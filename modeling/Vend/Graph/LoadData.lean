import Vend.Dbengine.RocksDb
import Vend.Lib.BinarySearch
import Mathlib.Data.List.Sort
import Mathlib.Data.List.GetD
import Mathlib.Data.List.ReduceOption

/-! # Loading a graph

    `Init`, `LoadData`, `LoadDataFromDb` and `TestEdgeByAdj` of `graph/graph.h` and
    `graph.cpp`, with the committed macros `IN_MEMORY` and `UNDIRECTED` both 1. A
    data file is given line by line, by what `sscanf(line, "%d %d", ..)` reads.

    `none` is an access out of bounds (`at` throws) or the overflow of the `int`
    that counts to `VERTEX_SIZE + 1`.

    Two results say when the lists are those of the file. In the build path of
    `Init` the file is loaded on top of what the database held
    (`init_hands_graph_iff`), and a directed graph gets each edge in both
    directions (`loadData_directed_iff`).
-/

namespace Vend

namespace LoadData

open BinarySearch

/-! ## Section 1: Model -/

/-- `adjacency_list_` and `in_adj_list_`. -/
structure Lists where
  adjacencyList : List (List Nat)
  inAdjList : List (List Nat)
  deriving DecidableEq, Repr

/-- The macro `UNDIRECTED`. -/
def undirected : Bool := true

/-- `resize(n)`. -/
def resize (lists : List (List Nat)) (n : Nat) : List (List Nat) :=
  lists.take n ++ List.replicate (n - lists.length) []

/-- `lists->at(i).push_back(v)`. -/
def pushAt (lists : List (List Nat)) (i v : Nat) : Option (List (List Nat)) :=
  if i < lists.length then some (lists.set i (lists.getD i [] ++ [v])) else none

/-- `std::sort` on one list. -/
def sort (l : List Nat) : List Nat := l.insertionSort (· ≤ ·)

/-- `std::sort` on the lists from index 1 on. -/
def sortLists : List (List Nat) → List (List Nat)
  | [] => []
  | unused :: lists => unused :: lists.map sort

/-- The body of the loop over the lines. Lines without two numbers are skipped. -/
def readLine (directed : Bool) (lists : Lists) : Option (Nat × Nat) → Option Lists
  | none => some lists
  | some (vertex1, vertex2) => do
    let adjacencyList ← pushAt lists.adjacencyList vertex1 vertex2
    let inAdjList ←
      if directed then pushAt lists.inAdjList vertex2 vertex1 else some lists.inAdjList
    let adjacencyList ←
      if undirected then pushAt adjacencyList vertex2 vertex1 else some adjacencyList
    return ⟨adjacencyList, inAdjList⟩

/-- `LoadData()`. -/
def loadData (vertexSize : Nat) (directed : Bool) (file : List (Option (Nat × Nat)))
    (lists : Lists) : Option Lists := do
  let size := (vertexSize + 1) % 2 ^ 32
  let lists : Lists := ⟨resize lists.adjacencyList size,
    if directed then resize lists.inAdjList size else lists.inAdjList⟩
  let lists ← file.foldlM (readLine directed) lists
  -- `int i` of the sorting loop reaches `VERTEX_SIZE + 1`
  guard (vertexSize + 1 < 2 ^ 31)
  return ⟨sortLists lists.adjacencyList,
    if directed then sortLists lists.inAdjList else lists.inAdjList⟩

/-- The body of the loop over the database. -/
def storeList (lists : List (List Nat)) (entry : Nat × List Nat) : Option (List (List Nat)) :=
  if entry.1 < lists.length then some (lists.set entry.1 (sort entry.2)) else none

/-- `LoadDataFromDb()`. -/
def loadDataFromDb (vertexSize : Nat) (db : RocksDb) (lists : List (List Nat)) :
    Option (List (List Nat)) :=
  db.scan.foldlM storeList (resize lists ((vertexSize + 1) % 2 ^ 32))

/-- The lists that the build path of `Init()` hands to the encoder. -/
def init (vertexSize : Nat) (directed : Bool) (file : List (Option (Nat × Nat))) (db : RocksDb) :
    Option Lists := do
  let adjacencyList ← loadDataFromDb vertexSize db []
  loadData vertexSize directed file ⟨adjacencyList, []⟩

/-- `TestEdgeByAdj(vertex1, vertex2)`: the shorter of the two lists is searched. -/
def testEdgeByAdj (lists : Lists) (vertex1 vertex2 : Nat) : Option Bool := do
  let neighbors1 ← lists.adjacencyList[vertex1]?
  let neighbors2 ← lists.adjacencyList[vertex2]?
  if neighbors1.length > neighbors2.length then return binarySearch neighbors2 vertex1
  else return binarySearch neighbors1 vertex2

/-! ## Section 2: What a file adds to the lists -/

/-- The pairs that are read. -/
def pairs (file : List (Option (Nat × Nat))) : List (Nat × Nat) := file.reduceOption

/-- What a line appends to the list of `v`. -/
def bothEnds (v : Nat) (p : Nat × Nat) : List Nat :=
  (if p.1 = v then [p.2] else []) ++ (if p.2 = v then [p.1] else [])

/-- What a line appends to the sources of `v`. -/
def source (v : Nat) (p : Nat × Nat) : List Nat := if p.2 = v then [p.1] else []

theorem mem_bothEnds {v w : Nat} {p : Nat × Nat} :
    w ∈ bothEnds v p ↔ p = (v, w) ∨ p = (w, v) := by
  obtain ⟨a, b⟩ := p
  unfold bothEnds
  simp only [List.mem_append, Prod.mk.injEq]
  constructor
  · rintro (h | h) <;> split at h <;> simp_all
  · rintro (⟨rfl, rfl⟩ | ⟨rfl, rfl⟩) <;> simp

theorem mem_source {v w : Nat} {p : Nat × Nat} : w ∈ source v p ↔ p = (w, v) := by
  obtain ⟨a, b⟩ := p
  unfold source
  split
  next h => simp only [List.mem_singleton, Prod.mk.injEq]; omega
  next h => simp only [List.not_mem_nil, Prod.mk.injEq, false_iff]; omega

theorem getD_pushAt {lists lists' : List (List Nat)} {i v : Nat} (h : pushAt lists i v = some lists')
    (x : Nat) : lists'.getD x [] = lists.getD x [] ++ (if i = x then [v] else []) := by
  unfold pushAt at h
  split at h
  next hi =>
    cases h
    by_cases hx : i = x
    · subst hx
      simp [List.getD_eq_getElem?_getD, hi]
    · simp [List.getD_eq_getElem?_getD, hx]
  next => cases h

theorem pushAt_of_lt (lists : List (List Nat)) {i : Nat} (v : Nat) (hi : i < lists.length) :
    ∃ lists', pushAt lists i v = some lists' ∧ lists'.length = lists.length :=
  ⟨_, if_pos hi, List.length_set⟩

/-- The lists have room for the vertices below `n`. -/
def Sized (directed : Bool) (n : Nat) (lists : Lists) : Prop :=
  lists.adjacencyList.length = n ∧ (directed = true → lists.inAdjList.length = n)

/-- One line. -/
theorem readLine_spec {directed : Bool} {n a b : Nat} {lists : Lists} (hlists : Sized directed n lists)
    (ha : a < n) (hb : b < n) :
    ∃ lists', readLine directed lists (some (a, b)) = some lists' ∧ Sized directed n lists' ∧
      (∀ v, lists'.adjacencyList.getD v [] =
        lists.adjacencyList.getD v [] ++ bothEnds v (a, b)) ∧
      (directed = true → ∀ v, lists'.inAdjList.getD v [] =
        lists.inAdjList.getD v [] ++ source v (a, b)) := by
  obtain ⟨hadj, hin⟩ := hlists
  obtain ⟨adj₁, hadj₁, hlen₁⟩ := pushAt_of_lt lists.adjacencyList b (by omega : a < _)
  obtain ⟨adj₂, hadj₂, hlen₂⟩ := pushAt_of_lt adj₁ a (by omega : b < _)
  have hget : ∀ v, adj₂.getD v [] = lists.adjacencyList.getD v [] ++ bothEnds v (a, b) := by
    intro v
    rw [getD_pushAt hadj₂, getD_pushAt hadj₁, List.append_assoc]
    rfl
  cases directed with
  | false =>
    refine ⟨⟨adj₂, lists.inAdjList⟩, ?_, ⟨by simp only; omega, by simp⟩, hget, by simp⟩
    simp [readLine, hadj₁, undirected, hadj₂]
  | true =>
    obtain ⟨inn, hinn, hlen⟩ :=
      pushAt_of_lt lists.inAdjList a (by rw [hin rfl]; exact hb : b < _)
    refine ⟨⟨adj₂, inn⟩, ?_, ⟨by simp only; omega, ?_⟩, hget, ?_⟩
    · simp [readLine, hadj₁, hinn, undirected, hadj₂]
    · intro _
      rw [hlen]
      exact hin rfl
    · intro _ v
      exact getD_pushAt hinn v

/-- All lines. -/
theorem foldlM_readLine {directed : Bool} {n : Nat} (file : List (Option (Nat × Nat)))
    (hfile : ∀ p ∈ pairs file, p.1 < n ∧ p.2 < n) {lists : Lists} (hlists : Sized directed n lists) :
    ∃ lists', file.foldlM (readLine directed) lists = some lists' ∧ Sized directed n lists' ∧
      (∀ v, lists'.adjacencyList.getD v [] =
        lists.adjacencyList.getD v [] ++ (pairs file).flatMap (bothEnds v)) ∧
      (directed = true → ∀ v, lists'.inAdjList.getD v [] =
        lists.inAdjList.getD v [] ++ (pairs file).flatMap (source v)) := by
  induction file generalizing lists with
  | nil => exact ⟨lists, rfl, hlists, by simp [pairs], by simp [pairs]⟩
  | cons line file ih =>
    cases line with
    | none =>
      rw [List.foldlM_cons]
      exact ih hfile hlists
    | some p =>
      obtain ⟨a, b⟩ := p
      have hpairs : pairs (some (a, b) :: file) = (a, b) :: pairs file :=
        List.reduceOption_cons_of_some _ _
      rw [hpairs] at hfile ⊢
      obtain ⟨ha, hb⟩ := hfile (a, b) (by simp)
      obtain ⟨lists₁, hstep, hsized, hadj, hin⟩ := readLine_spec hlists ha hb
      obtain ⟨lists', hrun, hsized', hadj', hin'⟩ :=
        ih (fun p hp => hfile p (by simp [hp])) hsized
      refine ⟨lists', by rw [List.foldlM_cons, hstep]; exact hrun, hsized', ?_, ?_⟩
      · intro v
        rw [hadj' v, hadj v, List.flatMap_cons, List.append_assoc]
      · intro hdir v
        rw [hin' hdir v, hin hdir v, List.flatMap_cons, List.append_assoc]

theorem getD_sortLists {lists : List (List Nat)} {v : Nat} (hv : 1 ≤ v) :
    (sortLists lists).getD v [] = sort (lists.getD v []) := by
  cases lists with
  | nil => simp [sortLists, sort]
  | cons unused lists =>
    obtain ⟨v, rfl⟩ := Nat.exists_eq_add_of_le' hv
    rw [sortLists, List.getD_cons_succ, List.getD_cons_succ, List.getD_eq_getElem?_getD,
      List.getD_eq_getElem?_getD, List.getElem?_map]
    cases lists[v]? <;> rfl

/-- Resizing adds empty lists only. -/
theorem resize_spec {ls : List (List Nat)} {n : Nat} (h : ls.length = n ∨ ls = []) :
    (resize ls n).length = n ∧ ∀ v, (resize ls n).getD v [] = ls.getD v [] := by
  rcases h with hlen | rfl
  · have heq : resize ls n = ls := by
      simp [resize, ← hlen]
    rw [heq]
    exact ⟨hlen, fun _ => rfl⟩
  · refine ⟨by simp [resize], ?_⟩
    intro v
    simp only [resize, List.take_nil, List.nil_append, List.length_nil, Nat.sub_zero,
      List.getD_eq_getElem?_getD, List.getElem?_replicate]
    split <;> rfl

theorem getD_zero_sortLists (lists : List (List Nat)) :
    (sortLists lists).getD 0 [] = lists.getD 0 [] := by
  cases lists <;> rfl

section

variable {vertexSize : Nat} (directed : Bool) {file : List (Option (Nat × Nat))}
variable (hfile : ∀ p ∈ pairs file, p.1 ≤ vertexSize ∧ p.2 ≤ vertexSize) (lists : Lists)
variable (hsize : vertexSize + 1 < 2 ^ 31)
variable (hlists : lists.adjacencyList.length = vertexSize + 1 ∨ lists.adjacencyList = [])
variable (hin : directed = true → lists.inAdjList = [])
include hfile hsize hlists hin

/-- The lists before they are sorted. -/
theorem loadData_run :
    ∃ lists₁ : Lists, loadData vertexSize directed file lists =
        some ⟨sortLists lists₁.adjacencyList,
          if directed then sortLists lists₁.inAdjList else lists₁.inAdjList⟩ ∧
      lists₁.adjacencyList.length = vertexSize + 1 ∧
      (∀ v, lists₁.adjacencyList.getD v [] =
        lists.adjacencyList.getD v [] ++ (pairs file).flatMap (bothEnds v)) ∧
      (directed = true → ∀ v, lists₁.inAdjList.getD v [] = (pairs file).flatMap (source v)) := by
  have hmod : (vertexSize + 1) % 2 ^ 32 = vertexSize + 1 := Nat.mod_eq_of_lt (by omega)
  obtain ⟨hlen, hget⟩ := resize_spec hlists
  have hsized : Sized directed (vertexSize + 1) ⟨resize lists.adjacencyList (vertexSize + 1),
      if directed then resize lists.inAdjList (vertexSize + 1) else lists.inAdjList⟩ := by
    refine ⟨hlen, ?_⟩
    intro hdir
    simp only [hdir, if_true]
    exact (resize_spec (Or.inr (hin hdir))).1
  obtain ⟨lists₁, hrun, hsized₁, hadj₁, hin₁⟩ := foldlM_readLine file
    (fun p hp => ⟨Nat.lt_succ_of_le (hfile p hp).1, Nat.lt_succ_of_le (hfile p hp).2⟩) hsized
  refine ⟨lists₁, ?_, hsized₁.1, ?_, ?_⟩
  · unfold loadData
    rw [hmod]
    simp only [hrun, Option.bind_eq_bind, Option.bind_some, guard, if_pos hsize]
    rfl
  · intro v
    rw [hadj₁ v, hget v]
  · intro hdir v
    have hempty : (resize lists.inAdjList (vertexSize + 1)).getD v [] = [] := by
      rw [(resize_spec (Or.inr (hin hdir))).2, hin hdir]
      rfl
    rw [hin₁ hdir v]
    simp only [hdir, if_true, hempty, List.nil_append]

/-- What `LoadData` leaves in the lists. -/
theorem loadData_spec :
    ∃ lists', loadData vertexSize directed file lists = some lists' ∧
      lists'.adjacencyList.length = vertexSize + 1 ∧
      (∀ v, 1 ≤ v → lists'.adjacencyList.getD v [] =
        sort (lists.adjacencyList.getD v [] ++ (pairs file).flatMap (bothEnds v))) ∧
      (directed = true → ∀ v, 1 ≤ v → lists'.inAdjList.getD v [] =
        sort ((pairs file).flatMap (source v))) := by
  obtain ⟨lists₁, hload, hlen, hadj, hin₁⟩ := loadData_run directed hfile lists hsize hlists hin
  refine ⟨_, hload, ?_, ?_, ?_⟩
  · cases hcase : lists₁.adjacencyList with
    | nil => rw [hcase] at hlen; simp at hlen
    | cons unused rest => rw [hcase] at hlen; simpa [sortLists] using hlen
  · intro v hv
    rw [getD_sortLists hv, hadj v]
  · intro hdir v hv
    simp only [hdir, if_true]
    rw [getD_sortLists hv, hin₁ hdir v]

/-- The list at index 0 is not sorted. -/
theorem getD_zero_of_loadData {lists' : Lists}
    (hload : loadData vertexSize directed file lists = some lists') :
    lists'.adjacencyList.getD 0 [] =
      lists.adjacencyList.getD 0 [] ++ (pairs file).flatMap (bothEnds 0) := by
  obtain ⟨lists₁, hload', -, hadj, -⟩ := loadData_run directed hfile lists hsize hlists hin
  obtain rfl := Option.some_inj.mp (hload.symm.trans hload')
  rw [getD_zero_sortLists, hadj 0]

end

theorem loadData_eq_none {vertexSize : Nat} (hsize : ¬ vertexSize + 1 < 2 ^ 31) (directed : Bool)
    (file : List (Option (Nat × Nat))) (lists : Lists) :
    loadData vertexSize directed file lists = none := by
  unfold loadData
  simp only [guard, if_neg hsize, Option.bind_eq_bind]
  cases List.foldlM (readLine directed) _ file <;> rfl

theorem mem_sort {l : List Nat} {v : Nat} : v ∈ sort l ↔ v ∈ l := List.mem_insertionSort _

theorem sorted_sort (l : List Nat) : (sort l).Pairwise (· ≤ ·) := List.pairwise_insertionSort _ l

theorem mem_flatMap_bothEnds {ps : List (Nat × Nat)} {v w : Nat} :
    w ∈ ps.flatMap (bothEnds v) ↔ (v, w) ∈ ps ∨ (w, v) ∈ ps := by
  rw [List.mem_flatMap]
  simp only [mem_bothEnds]
  constructor
  · rintro ⟨p, hp, rfl | rfl⟩
    · exact Or.inl hp
    · exact Or.inr hp
  · rintro (hp | hp)
    · exact ⟨_, hp, Or.inl rfl⟩
    · exact ⟨_, hp, Or.inr rfl⟩

theorem mem_flatMap_source {ps : List (Nat × Nat)} {v w : Nat} :
    w ∈ ps.flatMap (source v) ↔ (w, v) ∈ ps := by
  rw [List.mem_flatMap]
  simp only [mem_source]
  exact ⟨fun ⟨p, hp, heq⟩ => heq ▸ hp, fun hp => ⟨_, hp, rfl⟩⟩

/-! ## Section 3: Directed graphs -/

/-- A file of distinct directed edges between distinct ids. -/
structure DirectedFile (vertexSize : Nat) where
  lines : List (Option (Nat × Nat))
  range : ∀ p ∈ pairs lines, (1 ≤ p.1 ∧ p.1 ≤ vertexSize) ∧ (1 ≤ p.2 ∧ p.2 ≤ vertexSize)
  loopless : ∀ p ∈ pairs lines, p.1 ≠ p.2
  nodup : (pairs lines).Nodup

/-- The file has the edge `u -> w`. -/
def DirectedFile.Edge {vertexSize : Nat} (file : DirectedFile vertexSize) (u w : Nat) : Prop :=
  (u, w) ∈ pairs file.lines

instance {vertexSize : Nat} (file : DirectedFile vertexSize) (u w : Nat) :
    Decidable (file.Edge u w) :=
  inferInstanceAs (Decidable ((u, w) ∈ pairs file.lines))

/-- After `LoadData` on empty lists both families are those of the file, and so are the
    answers of `TestEdgeByAdj`. -/
def DirectedTruth {vertexSize : Nat} (file : DirectedFile vertexSize) : Prop :=
  ∃ lists, loadData vertexSize true file.lines ⟨[], []⟩ = some lists ∧
    ∀ u w, 1 ≤ u → u ≤ vertexSize → 1 ≤ w → w ≤ vertexSize →
      (w ∈ lists.adjacencyList.getD u [] ↔ file.Edge u w) ∧
      (u ∈ lists.inAdjList.getD w [] ↔ file.Edge u w) ∧
      (lists.adjacencyList.getD u []).Pairwise (· ≤ ·) ∧
      (lists.inAdjList.getD w []).Pairwise (· ≤ ·) ∧
      testEdgeByAdj lists u w = some (decide (file.Edge u w))

theorem DirectedFile.range_of_edge {vertexSize : Nat} {file : DirectedFile vertexSize} {u w : Nat}
    (h : file.Edge u w) : (1 ≤ u ∧ u ≤ vertexSize) ∧ (1 ≤ w ∧ w ≤ vertexSize) :=
  file.range (u, w) h

/-- On lists that are each other's mirror image the test does not depend on which of the
    two lists is shorter. -/
theorem testEdgeByAdj_eq {lists : Lists} {u w : Nat} {b : Bool}
    (hu : u < lists.adjacencyList.length) (hw : w < lists.adjacencyList.length)
    (hsorted_u : (lists.adjacencyList.getD u []).Pairwise (· ≤ ·))
    (hsorted_w : (lists.adjacencyList.getD w []).Pairwise (· ≤ ·))
    (hmem_u : w ∈ lists.adjacencyList.getD u [] ↔ b = true)
    (hmem_w : u ∈ lists.adjacencyList.getD w [] ↔ b = true) :
    testEdgeByAdj lists u w = some b := by
  rw [List.getD_eq_getElem _ _ hu] at hsorted_u hmem_u
  rw [List.getD_eq_getElem _ _ hw] at hsorted_w hmem_w
  unfold testEdgeByAdj
  rw [List.getElem?_eq_getElem hu, List.getElem?_eq_getElem hw]
  simp only [Option.bind_eq_bind, Option.bind_some]
  split
  · change some _ = some b
    rw [Option.some.injEq, Bool.eq_iff_iff, binarySearch_iff hsorted_w, hmem_w]
  · change some _ = some b
    rw [Option.some.injEq, Bool.eq_iff_iff, binarySearch_iff hsorted_u, hmem_u]

/-- `LoadData` gets a directed graph right exactly when every edge of the file has its
    reverse in the file. -/
theorem loadData_directed_iff {vertexSize : Nat} (file : DirectedFile vertexSize) :
    DirectedTruth file ↔
      vertexSize + 1 < 2 ^ 31 ∧ ∀ u w, file.Edge u w → file.Edge w u := by
  have hrange : ∀ p ∈ pairs file.lines, p.1 ≤ vertexSize ∧ p.2 ≤ vertexSize :=
    fun p hp => ⟨(file.range p hp).1.2, (file.range p hp).2.2⟩
  constructor
  · rintro ⟨lists, hload, htruth⟩
    have hsize : vertexSize + 1 < 2 ^ 31 := by
      by_contra hsize
      rw [loadData_eq_none hsize] at hload
      cases hload
    refine ⟨hsize, ?_⟩
    intro u w hedge
    obtain ⟨lists', hload', -, hadj, -⟩ := loadData_spec true hrange ⟨[], []⟩ hsize
      (Or.inr rfl) fun _ => rfl
    rw [hload', Option.some.injEq] at hload
    subst hload
    -- the edge has been written into the list of its target as well
    obtain ⟨⟨hu, hu'⟩, ⟨hw, hw'⟩⟩ := DirectedFile.range_of_edge hedge
    apply (htruth w u hw hw' hu hu').1.mp
    rw [hadj w hw, mem_sort, List.mem_append, mem_flatMap_bothEnds]
    exact Or.inr (Or.inr hedge)
  · rintro ⟨hsize, hclosed⟩
    obtain ⟨lists, hload, hlen, hadj, hin⟩ := loadData_spec true hrange ⟨[], []⟩ hsize
      (Or.inr rfl) fun _ => rfl
    have hadj' : ∀ v, 1 ≤ v → lists.adjacencyList.getD v [] =
        sort ((pairs file.lines).flatMap (bothEnds v)) := hadj
    -- both ends of every line are edges already, so nothing is added
    have hmem : ∀ u w, 1 ≤ u → (w ∈ lists.adjacencyList.getD u [] ↔ file.Edge u w) := by
      intro u w hu
      rw [hadj' u hu, mem_sort, mem_flatMap_bothEnds]
      exact ⟨fun h => h.elim id (hclosed w u), Or.inl⟩
    have hsorted : ∀ u, 1 ≤ u → (lists.adjacencyList.getD u []).Pairwise (· ≤ ·) := by
      intro u hu
      rw [hadj' u hu]
      exact sorted_sort _
    refine ⟨lists, hload, ?_⟩
    intro u w hu hu' hw hw'
    refine ⟨hmem u w hu, ?_, hsorted u hu, ?_, ?_⟩
    · rw [hin rfl w hw, mem_sort, mem_flatMap_source]
      rfl
    · rw [hin rfl w hw]
      exact sorted_sort _
    · refine testEdgeByAdj_eq (by omega) (by omega) (hsorted u hu) (hsorted w hw) ?_ ?_
      · rw [hmem u w hu, decide_eq_true_eq]
      · rw [hmem w u hw, decide_eq_true_eq]
        exact ⟨hclosed w u, hclosed u w⟩

/-- The single edge 1 -> 2. -/
def oneEdge : DirectedFile 2 where
  lines := [some (1, 2)]
  range := by decide
  loopless := by decide
  nodup := by decide

/-- The list of vertex 2 names vertex 1, and the reverse edge is reported. -/
theorem oneEdge_reversed :
    ∃ lists, loadData 2 true oneEdge.lines ⟨[], []⟩ = some lists ∧ ¬ oneEdge.Edge 2 1 ∧
      1 ∈ lists.adjacencyList.getD 2 [] ∧ testEdgeByAdj lists 2 1 = some true ∧
      ¬ DirectedTruth oneEdge := by
  refine ⟨⟨[[], [2], [1]], [[], [], [1]]⟩, by decide +kernel, by decide, by decide,
    by decide +kernel, ?_⟩
  rintro ⟨lists, hload, htruth⟩
  have heq : loadData 2 true oneEdge.lines ⟨[], []⟩ =
      some ⟨[[], [2], [1]], [[], [], [1]]⟩ := by decide +kernel
  rw [heq, Option.some.injEq] at hload
  subst hload
  have hwrong := (htruth 2 1 (by decide) (by decide) (by decide) (by decide)).1.mp (by decide)
  revert hwrong
  decide

/-! ## Section 4: The build path of `Init` -/

/-- A file of pairwise distinct undirected edges between distinct ids. -/
structure EdgeFile (vertexSize : Nat) where
  lines : List (Option (Nat × Nat))
  range : ∀ p ∈ pairs lines, (1 ≤ p.1 ∧ p.1 ≤ vertexSize) ∧ (1 ≤ p.2 ∧ p.2 ≤ vertexSize)
  loopless : ∀ p ∈ pairs lines, p.1 ≠ p.2
  distinct : (pairs lines).Pairwise fun p q => p ≠ q ∧ p ≠ q.swap

section

variable {vertexSize : Nat} (file : EdgeFile vertexSize)

/-- `v` and `w` are neighbours in the file. -/
def EdgeFile.Edge (v w : Nat) : Prop := (v, w) ∈ pairs file.lines ∨ (w, v) ∈ pairs file.lines

/-- The database holds the graph of the file: each neighbour once, in any order, and no
    other vertices. -/
structure HoldsGraph (db : RocksDb) : Prop where
  keys : ∀ v, db.lookup v ≠ none → v ≤ vertexSize
  nodup : ∀ v, (db.list v).Nodup
  mem_iff : ∀ v w, w ∈ db.list v ↔ file.Edge v w

/-- The lists that reach `BuildEncoding` have each neighbour once, in ascending order. -/
def HandsGraph (db : RocksDb) : Prop :=
  ∃ lists, init vertexSize false file.lines db = some lists ∧
    ∀ v, 1 ≤ v → v ≤ vertexSize →
      (lists.adjacencyList.getD v []).Pairwise (· < ·) ∧
      ∀ w, w ∈ lists.adjacencyList.getD v [] ↔ file.Edge v w

end

/-- The loop over the entries of a database. -/
theorem foldlM_storeList {n : Nat} (entries : List (Sigma fun _ : Nat => List UInt8))
    (hnodup : entries.NodupKeys) (hkeys : ∀ e ∈ entries, e.1 < n) (lists : List (List Nat))
    (hlen : lists.length = n) :
    ∃ lists', (entries.map fun e => (e.1, RocksDb.stringToValue e.2)).foldlM storeList lists =
        some lists' ∧ lists'.length = n ∧
      ∀ v, lists'.getD v [] = match entries.dlookup v with
        | none => lists.getD v []
        | some data => sort (RocksDb.stringToValue data) := by
  induction entries generalizing lists with
  | nil => exact ⟨lists, rfl, hlen, fun v => rfl⟩
  | cons e entries ih =>
    obtain ⟨key, data⟩ := e
    obtain ⟨hfresh, hrest⟩ := List.nodupKeys_cons.mp hnodup
    have hlt : key < lists.length := hlen ▸ hkeys ⟨key, data⟩ (by simp)
    obtain ⟨lists', hrun, hlen', hget⟩ := ih hrest (fun e he => hkeys e (by simp [he]))
      (lists.set key (sort (RocksDb.stringToValue data))) (by simpa using hlen)
    refine ⟨lists', ?_, hlen', ?_⟩
    · rw [List.map_cons, List.foldlM_cons, storeList, if_pos hlt]
      exact hrun
    · intro v
      rw [hget v]
      by_cases hv : v = key
      · subst hv
        rw [List.dlookup_cons_eq, List.dlookup_eq_none.mpr hfresh]
        simp [List.getD_eq_getElem?_getD, hlt]
      · have hother : List.dlookup v (⟨key, data⟩ :: entries) = entries.dlookup v :=
          List.dlookup_cons_ne (β := fun _ : Nat => List UInt8) entries ⟨key, data⟩ hv
        rw [hother]
        cases entries.dlookup v with
        | none => simp [List.getD_eq_getElem?_getD, Ne.symm hv]
        | some data => rfl

/-- `LoadDataFromDb` copies the lists of the database, sorted. -/
theorem loadDataFromDb_spec {vertexSize : Nat} {db : RocksDb} (hsize : vertexSize + 1 < 2 ^ 31)
    (hkeys : ∀ v, db.lookup v ≠ none → v ≤ vertexSize) :
    ∃ lists, loadDataFromDb vertexSize db [] = some lists ∧ lists.length = vertexSize + 1 ∧
      ∀ v, lists.getD v [] = sort (db.list v) := by
  have hmod : (vertexSize + 1) % 2 ^ 32 = vertexSize + 1 := Nat.mod_eq_of_lt (by omega)
  have hfresh : resize [] (vertexSize + 1) = List.replicate (vertexSize + 1) [] := by
    simp [resize]
  obtain ⟨lists, hrun, hlen, hget⟩ := foldlM_storeList db.entries db.nodupKeys (n := vertexSize + 1)
    (by
      intro e he
      have hmem : e.1 ∈ db := AList.mem_keys.mpr (List.mem_map_of_mem he)
      have := hkeys e.1 fun hnone => AList.lookup_eq_none.mp hnone hmem
      omega)
    (List.replicate (vertexSize + 1) []) (by simp)
  refine ⟨lists, ?_, hlen, ?_⟩
  · rw [loadDataFromDb, hmod, hfresh]
    exact hrun
  · intro v
    rw [hget v]
    change _ = sort ((db.get v []).2)
    unfold RocksDb.get
    change (match db.lookup v with | none => _ | some data => _) = _
    cases db.lookup v with
    | none =>
      simp only [List.getD_eq_getElem?_getD, List.getElem?_replicate]
      split <;> rfl
    | some data => rfl

section

variable {vertexSize : Nat} {file : EdgeFile vertexSize}

/-- Distinct edges append distinct neighbours. -/
theorem nodup_bothEnds (ps : List (Nat × Nat)) (hloop : ∀ p ∈ ps, p.1 ≠ p.2)
    (hdistinct : ps.Pairwise fun p q => p ≠ q ∧ p ≠ q.swap) (v : Nat) :
    (ps.flatMap (bothEnds v)).Nodup := by
  rw [List.nodup_flatMap]
  constructor
  · intro p hp
    have hne := hloop p hp
    unfold bothEnds
    split <;> split <;> simp
    omega
  · refine hdistinct.imp ?_
    rintro p q ⟨hne, hswap⟩ w hp hq
    rcases mem_bothEnds.mp hp with rfl | rfl <;> rcases mem_bothEnds.mp hq with rfl | rfl <;>
      simp_all

variable (file) in
/-- The list of a vertex in the build path: the database's, and the file's after it. -/
theorem init_spec {db : RocksDb} (hsize : vertexSize + 1 < 2 ^ 31)
    (hkeys : ∀ v, db.lookup v ≠ none → v ≤ vertexSize) :
    ∃ lists, init vertexSize false file.lines db = some lists ∧
      ∀ v, 1 ≤ v → lists.adjacencyList.getD v [] =
        sort (sort (db.list v) ++ (pairs file.lines).flatMap (bothEnds v)) := by
  obtain ⟨adj, hdb, hlen, hget⟩ := loadDataFromDb_spec hsize hkeys
  obtain ⟨lists, hload, -, hadj, -⟩ := loadData_spec false
    (fun p hp => ⟨(file.range p hp).1.2, (file.range p hp).2.2⟩) ⟨adj, []⟩ hsize
    (Or.inl hlen) (by simp)
  refine ⟨lists, ?_, ?_⟩
  · rw [init, hdb]
    exact hload
  · intro v hv
    rw [hadj v hv, ← hget v]

/-- From a database that is empty or holds the same graph, the encoder gets the graph of
    the file exactly when the database has no lists. -/
theorem init_hands_graph_iff {db : RocksDb} (hdb : db = ∅ ∨ HoldsGraph file db) :
    HandsGraph file db ↔ vertexSize + 1 < 2 ^ 31 ∧ ∀ v, db.list v = [] := by
  have hkeys : ∀ v, db.lookup v ≠ none → v ≤ vertexSize := by
    rcases hdb with rfl | hholds
    · intro v hv
      exact absurd (AList.lookup_empty v) hv
    · exact hholds.keys
  constructor
  · rintro ⟨lists, hinit, hgraph⟩
    have hsize : vertexSize + 1 < 2 ^ 31 := by
      by_contra hsize
      unfold init at hinit
      cases hadj : loadDataFromDb vertexSize db [] with
      | none => simp [hadj] at hinit
      | some adj => simp [hadj, loadData_eq_none hsize] at hinit
    refine ⟨hsize, ?_⟩
    rcases hdb with rfl | hholds
    · exact fun v => rfl
    · intro v
      by_contra hne
      obtain ⟨w, hw⟩ := List.exists_mem_of_ne_nil _ hne
      -- a neighbour from the database is appended a second time
      obtain ⟨lists', hinit', hlist⟩ := init_spec file hsize hkeys
      rw [hinit', Option.some.injEq] at hinit
      subst hinit
      have hedge := (hholds.mem_iff v w).mp hw
      have hrange : 1 ≤ v ∧ v ≤ vertexSize :=
        hedge.elim (fun h => (file.range _ h).1) (fun h => (file.range _ h).2)
      have hnodup : (lists'.adjacencyList.getD v []).Nodup :=
        (hgraph v hrange.1 hrange.2).1.imp Nat.ne_of_lt
      rw [hlist v hrange.1, sort, (List.perm_insertionSort _ _).nodup_iff] at hnodup
      exact (List.nodup_append.mp hnodup).2.2 w (mem_sort.mpr hw) w
        (mem_flatMap_bothEnds.mpr hedge) rfl
  · rintro ⟨hsize, hempty⟩
    obtain ⟨lists, hinit, hlist⟩ := init_spec file hsize hkeys
    refine ⟨lists, hinit, ?_⟩
    intro v hv _
    -- nothing was loaded in front of the file
    have heq : lists.adjacencyList.getD v [] = sort ((pairs file.lines).flatMap (bothEnds v)) := by
      rw [hlist v hv, hempty v]
      rfl
    rw [heq]
    constructor
    · have hnodup : (sort ((pairs file.lines).flatMap (bothEnds v))).Nodup :=
        (List.perm_insertionSort _ _).nodup_iff.mpr
          (nodup_bothEnds _ file.loopless file.distinct v)
      exact (sorted_sort _).imp₂ (fun a b hle hne => Nat.lt_of_le_of_ne hle hne) hnodup
    · intro w
      rw [mem_sort, mem_flatMap_bothEnds]
      rfl

end

/-- The single edge 1-2. -/
def onePair : EdgeFile 2 where
  lines := [some (1, 2)]
  range := by decide
  loopless := by decide
  distinct := by decide

theorem init_hands_graph_onePair : HandsGraph onePair ∅ :=
  (init_hands_graph_iff (Or.inl rfl)).mpr ⟨by decide, fun _ => rfl⟩

/-- With the edge in the database already, both vertices get each other twice. -/
theorem onePair_loaded_twice :
    HoldsGraph onePair RocksDb.pairStore ∧
    init 2 false onePair.lines RocksDb.pairStore = some ⟨[[], [2, 2], [1, 1]], []⟩ ∧
    ¬ HandsGraph onePair RocksDb.pairStore := by
  have hinit : init 2 false onePair.lines RocksDb.pairStore =
      some ⟨[[], [2, 2], [1, 1]], []⟩ := by decide +kernel
  refine ⟨⟨?_, ?_, ?_⟩, hinit, ?_⟩
  · intro v hv
    by_contra hlt
    exact hv (RocksDb.lookup_pairStore_of_ne (by omega) (by omega))
  · intro v
    rw [RocksDb.list_pairStore]
    split
    · simp
    · split <;> simp
  · intro v w
    have hedge : onePair.Edge v w ↔ (v = 1 ∧ w = 2) ∨ (v = 2 ∧ w = 1) := by
      simp [EdgeFile.Edge, onePair, pairs, List.reduceOption]
      omega
    rw [hedge, RocksDb.list_pairStore]
    split
    · simp_all
    · split <;> simp_all
  · rintro ⟨lists, hlists, hgraph⟩
    rw [hinit, Option.some.injEq] at hlists
    subst hlists
    have htwice := (hgraph 1 (by decide) (by decide)).1
    revert htwice
    decide

end LoadData

end Vend
