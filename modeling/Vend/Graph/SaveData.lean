import Vend.Graph.LoadData
import Mathlib.Algebra.Order.BigOperators.Group.Finset
import Mathlib.Order.Interval.Finset.Nat

/-! # Saving a graph

    `SaveData` of `graph/graph.cpp` and the build that uses it, the one without an
    encoder. `SaveData` appends the lists of the graph to those of the database, and with
    `IN_MEMORY` 1 the lists of the graph hold those of the database already. So a further
    build does not add a copy of the file, it doubles what is there and adds one
    (`buildNoVend_count`).

    The repeated neighbours are harmless to `TestEdgeByAdj`, which searches lists that
    `LoadDataFromDb` has sorted.
-/

namespace Vend

namespace SaveData

open LoadData

/-! ## Section 1: Model -/

/-- The body of the loop of `SaveData`. -/
def saveList (lists : List (List Nat)) (db : RocksDb) (id : Nat) : Option RocksDb := do
  let added ← lists[id]?
  if added.length = 0 then return db
  let neighbors := (db.get id []).2 ++ added
  return db.put id neighbors

/-- `SaveData()`, with its first assertion. -/
def saveData (vertexSize : Nat) (lists : List (List Nat)) (db : RocksDb) : Option RocksDb := do
  guard (lists ≠ [])
  (List.range' 1 vertexSize).foldlM (saveList lists) db

/-- `Execute()` of a build with `NoVend`: `Init()`, then `LoadAndSaveData()`. -/
def buildNoVend (vertexSize : Nat) (directed : Bool) (file : List (Option (Nat × Nat)))
    (db : RocksDb) : Option RocksDb := do
  let adjacencyList ← loadDataFromDb vertexSize db []
  let lists ← loadData vertexSize directed file ⟨adjacencyList, []⟩
  saveData vertexSize lists.adjacencyList db

/-- `n` such builds in a row. -/
def buildsNoVend (vertexSize : Nat) (directed : Bool) (file : List (Option (Nat × Nat))) :
    Nat → RocksDb → Option RocksDb
  | 0, db => some db
  | n + 1, db => (buildsNoVend vertexSize directed file n db).bind
      (buildNoVend vertexSize directed file)

/-- The answer of `TestEdgeByAdj` in a program that has just started on the database. -/
def testStored (vertexSize : Nat) (db : RocksDb) (vertex1 vertex2 : Nat) : Option Bool := do
  let adjacencyList ← loadDataFromDb vertexSize db []
  testEdgeByAdj ⟨adjacencyList, []⟩ vertex1 vertex2

/-! ## Section 2: What is saved -/

section

variable {lists : List (List Nat)} (hlists : ∀ v, 1 ≤ v → ∀ w ∈ lists.getD v [], w < 2 ^ 32)

include hlists in
/-- One list. -/
theorem saveList_spec (db : RocksDb) {id : Nat} (hid : 1 ≤ id ∧ id < lists.length) :
    ∃ db', saveList lists db id = some db' ∧
      (∀ v, db'.list v = if v = id then db.list v ++ lists.getD v [] else db.list v) ∧
      ∀ v, v ≠ id → db'.lookup v = db.lookup v := by
  have hget : lists[id]? = some (lists.getD id []) := by
    rw [List.getElem?_eq_getElem hid.2, List.getD_eq_getElem _ _ hid.2]
  by_cases hempty : (lists.getD id []).length = 0
  · refine ⟨db, ?_, ?_, fun _ _ => rfl⟩
    · simp only [saveList, hget, Option.bind_eq_bind, Option.bind_some, if_pos hempty]
      rfl
    · intro v
      split
      next heq => rw [heq, List.eq_nil_of_length_eq_zero hempty, List.append_nil]
      next => rfl
  · refine ⟨db.put id (db.list id ++ lists.getD id []), ?_, ?_, ?_⟩
    · simp only [saveList, hget, Option.bind_eq_bind, Option.bind_some, if_neg hempty]
      rfl
    · intro v
      split
      next heq =>
        subst heq
        apply RocksDb.list_put_self
        · intro hnil
          rw [List.append_eq_nil_iff] at hnil
          exact hempty (by rw [hnil.2]; rfl)
        · intro w hw
          rcases List.mem_append.mp hw with hw | hw
          · exact db.list_lt w hw
          · exact hlists v hid.1 w hw
      next hne => exact RocksDb.list_put_ne _ hne
    · intro v hv
      exact RocksDb.lookup_put_ne _ hv

include hlists in
/-- All lists of the loop. -/
theorem foldlM_saveList (ids : List Nat) (hnodup : ids.Nodup)
    (hids : ∀ id ∈ ids, 1 ≤ id ∧ id < lists.length) (db : RocksDb) :
    ∃ db', ids.foldlM (saveList lists) db = some db' ∧
      (∀ v, db'.list v = if v ∈ ids then db.list v ++ lists.getD v [] else db.list v) ∧
      ∀ v, v ∉ ids → db'.lookup v = db.lookup v := by
  induction ids generalizing db with
  | nil => exact ⟨db, rfl, by simp, fun _ _ => rfl⟩
  | cons id ids ih =>
    obtain ⟨hfresh, hrest⟩ := List.nodup_cons.mp hnodup
    obtain ⟨db₁, hstep, hlist₁, hlookup₁⟩ := saveList_spec hlists db (hids id (by simp))
    obtain ⟨db₂, hrun, hlist₂, hlookup₂⟩ := ih hrest (fun i hi => hids i (by simp [hi])) db₁
    refine ⟨db₂, ?_, ?_, ?_⟩
    · rw [List.foldlM_cons, hstep]
      exact hrun
    · intro v
      rw [hlist₂ v, hlist₁ v]
      by_cases hv : v = id
      · subst hv
        rw [if_neg hfresh, if_pos rfl, if_pos (by simp)]
      · simp [hv]
    · intro v hv
      rw [List.mem_cons, not_or] at hv
      rw [hlookup₂ v hv.2, hlookup₁ v hv.1]

include hlists in
/-- `SaveData` appends the list of every vertex. -/
theorem saveData_spec {vertexSize : Nat} (hlen : lists.length = vertexSize + 1) (db : RocksDb) :
    ∃ db', saveData vertexSize lists db = some db' ∧
      (∀ v, db'.list v =
        if 1 ≤ v ∧ v ≤ vertexSize then db.list v ++ lists.getD v [] else db.list v) ∧
      ∀ v, vertexSize < v → db'.lookup v = db.lookup v := by
  have hne : lists ≠ [] := List.ne_nil_of_length_pos (by omega)
  have hmem : ∀ v, v ∈ List.range' 1 vertexSize ↔ 1 ≤ v ∧ v ≤ vertexSize := by
    intro v
    rw [List.mem_range'_1]
    omega
  obtain ⟨db', hrun, hlist, hlookup⟩ := foldlM_saveList hlists (List.range' 1 vertexSize)
    List.nodup_range' (fun id hid => ⟨((hmem id).mp hid).1, by have := (hmem id).mp hid; omega⟩) db
  refine ⟨db', ?_, ?_, ?_⟩
  · rw [saveData, guard, if_pos hne]
    exact hrun
  · intro v
    rw [hlist v]
    simp only [hmem]
  · intro v hv
    exact hlookup v fun hin => by have := (hmem v).mp hin; omega

end

/-! ## Section 3: One build -/

/-- No vertex of the database is behind the last one of the graph. -/
def Fits (vertexSize : Nat) (db : RocksDb) : Prop := ∀ v, db.lookup v ≠ none → v ≤ vertexSize

theorem fits_empty (vertexSize : Nat) : Fits vertexSize ∅ :=
  fun v hv => absurd (AList.lookup_empty v) hv

section

variable {vertexSize : Nat} (file : EdgeFile vertexSize)

instance (u w : Nat) : Decidable (file.Edge u w) :=
  inferInstanceAs (Decidable (_ ∨ _))

/-- How often `w` stands among what the file adds to `v`. -/
theorem count_bothEnds (v w : Nat) :
    ((pairs file.lines).flatMap (bothEnds v)).count w = if file.Edge v w then 1 else 0 := by
  have hmem : w ∈ (pairs file.lines).flatMap (bothEnds v) ↔ file.Edge v w := mem_flatMap_bothEnds
  rw [(nodup_bothEnds _ file.loopless file.distinct v).count]
  simp only [hmem]

/-- A build appends, to what the database has, all of it again and the file. -/
theorem buildNoVend_spec {db : RocksDb} (hsize : vertexSize + 1 < 2 ^ 31)
    (hfits : Fits vertexSize db) :
    ∃ db', buildNoVend vertexSize false file.lines db = some db' ∧ Fits vertexSize db' ∧
      ∀ v, db'.list v = if 1 ≤ v ∧ v ≤ vertexSize then
        db.list v ++ sort (sort (db.list v) ++ (pairs file.lines).flatMap (bothEnds v))
      else db.list v := by
  obtain ⟨adj, hdb, hadjlen, hadj⟩ := loadDataFromDb_spec hsize hfits
  obtain ⟨lists, hload, hlen, hlists, -⟩ := loadData_spec false
    (fun p hp => ⟨(file.range p hp).1.2, (file.range p hp).2.2⟩) ⟨adj, []⟩ hsize
    (Or.inl hadjlen) (by simp)
  have hlist : ∀ v, 1 ≤ v → lists.adjacencyList.getD v [] =
      sort (sort (db.list v) ++ (pairs file.lines).flatMap (bothEnds v)) := by
    intro v hv
    rw [hlists v hv, ← hadj v]
  -- the ids fit into the words of the database
  have hlt : ∀ v, 1 ≤ v → ∀ w ∈ lists.adjacencyList.getD v [], w < 2 ^ 32 := by
    intro v hv w hw
    rw [hlist v hv, mem_sort, List.mem_append, mem_sort, mem_flatMap_bothEnds] at hw
    rcases hw with hw | hw | hw
    · exact db.list_lt w hw
    · have := (file.range _ hw).2.2
      simp only at this
      omega
    · have := (file.range _ hw).1.2
      simp only at this
      omega
  obtain ⟨db', hsave, hlist', hlookup⟩ := saveData_spec hlt hlen db
  refine ⟨db', ?_, ?_, ?_⟩
  · rw [buildNoVend, hdb, Option.bind_eq_bind, Option.bind_some, hload]
    exact hsave
  · intro v hv
    by_contra hle
    rw [hlookup v (by omega)] at hv
    exact hle (hfits v hv)
  · intro v
    rw [hlist' v]
    split
    next hv => rw [hlist v hv.1]
    next => rfl

end

/-! ## Section 4: Any number of builds -/

section

variable {vertexSize : Nat} (file : EdgeFile vertexSize)

/-- Every neighbour `copies` times in the list of a vertex, and nothing else. -/
structure Stored (copies : Nat) (db : RocksDb) : Prop where
  fits : Fits vertexSize db
  count : ∀ v w, (db.list v).count w = if file.Edge v w then copies else 0

theorem Stored.mem_iff {file : EdgeFile vertexSize} {copies : Nat} {db : RocksDb}
    (h : Stored file copies db) (v w : Nat) : w ∈ db.list v ↔ 1 ≤ copies ∧ file.Edge v w := by
  rw [← List.count_pos_iff, h.count v w]
  split
  next hedge => simp [hedge, Nat.succ_le_iff]
  next hedge => simp [hedge]

theorem stored_empty : Stored file 0 ∅ := by
  refine ⟨fits_empty vertexSize, fun v w => ?_⟩
  have hlist : RocksDb.list ∅ v = [] := rfl
  simp [hlist]

/-- An edge is between vertices of the graph. -/
theorem EdgeFile.range_of_edge {v w : Nat} (h : file.Edge v w) :
    (1 ≤ v ∧ v ≤ vertexSize) ∧ (1 ≤ w ∧ w ≤ vertexSize) :=
  h.elim (file.range (v, w)) fun h => (file.range (w, v) h).symm

/-- A list holds its copies and nothing else. -/
theorem Stored.length_le {file : EdgeFile vertexSize} {copies : Nat} {db : RocksDb}
    (h : Stored file copies db) (v : Nat) : (db.list v).length ≤ vertexSize * copies := by
  have hsub : (db.list v).toFinset ⊆ Finset.Icc 1 vertexSize := by
    intro w hw
    have hedge := ((h.mem_iff v w).mp (List.mem_toFinset.mp hw)).2
    exact Finset.mem_Icc.mpr (EdgeFile.range_of_edge file hedge).2
  have hcount : ∀ w ∈ (db.list v).toFinset, (db.list v).count w ≤ copies := by
    intro w _
    rw [h.count v w]
    split
    · exact Nat.le_refl _
    · exact Nat.zero_le _
  calc (db.list v).length
      = ∑ w ∈ (db.list v).toFinset, (db.list v).count w :=
        (List.sum_toFinset_count_eq_length _).symm
    _ ≤ (db.list v).toFinset.card * copies := Finset.sum_le_card_nsmul _ _ _ hcount
    _ ≤ vertexSize * copies := by
        refine Nat.mul_le_mul_right copies (Nat.le_trans (Finset.card_le_card hsub) ?_)
        rw [Nat.card_Icc]
        exact Nat.le_refl _

/-- A build doubles the copies and adds one. -/
theorem Stored.buildNoVend {copies : Nat} {db : RocksDb} (hsize : vertexSize + 1 < 2 ^ 31)
    (h : Stored file copies db) :
    ∃ db', SaveData.buildNoVend vertexSize false file.lines db = some db' ∧
      Stored file (2 * copies + 1) db' := by
  obtain ⟨db', hbuild, hfits, hlist⟩ := buildNoVend_spec file hsize h.fits
  refine ⟨db', hbuild, hfits, ?_⟩
  intro v w
  rw [hlist v]
  split
  next hv =>
    have hsort : ∀ l : List Nat, (sort l).count w = l.count w :=
      fun l => (List.perm_insertionSort _ l).count_eq w
    rw [List.count_append, hsort, List.count_append, hsort, count_bothEnds, h.count v w]
    split
    · omega
    · rfl
  next hv =>
    have hno : ¬ file.Edge v w := fun hedge => hv (EdgeFile.range_of_edge file hedge).1
    rw [h.count v w, if_neg hno, if_neg hno]

theorem stored_buildsNoVend (hsize : vertexSize + 1 < 2 ^ 31) (n : Nat) :
    ∃ db, buildsNoVend vertexSize false file.lines n ∅ = some db ∧ Stored file (2 ^ n - 1) db := by
  induction n with
  | zero => exact ⟨∅, rfl, stored_empty file⟩
  | succ n ih =>
    obtain ⟨db, hrun, hstored⟩ := ih
    obtain ⟨db', hbuild, hstored'⟩ := hstored.buildNoVend file hsize
    have hcopies : 2 * (2 ^ n - 1) + 1 = 2 ^ (n + 1) - 1 := by
      have hpos : 1 ≤ 2 ^ n := Nat.one_le_two_pow
      rw [Nat.pow_succ]
      omega
    rw [hcopies] at hstored'
    refine ⟨db', ?_, hstored'⟩
    rw [buildsNoVend, hrun]
    exact hbuild

/-- What `TestEdgeByAdj` reports on a database with copies of the graph. -/
theorem Stored.testStored {copies : Nat} {db : RocksDb} (hsize : vertexSize + 1 < 2 ^ 31)
    (h : Stored file copies db) {u w : Nat} (hu : u ≤ vertexSize) (hw : w ≤ vertexSize) :
    SaveData.testStored vertexSize db u w = some (decide (1 ≤ copies ∧ file.Edge u w)) := by
  obtain ⟨adj, hload, hlen, hadj⟩ := loadDataFromDb_spec hsize h.fits
  have hsorted : ∀ v, (adj.getD v []).Pairwise (· ≤ ·) := by
    intro v
    rw [hadj v]
    exact sorted_sort _
  have hmem : ∀ v x, x ∈ adj.getD v [] ↔ 1 ≤ copies ∧ file.Edge v x := by
    intro v x
    rw [hadj v, mem_sort, h.mem_iff]
  rw [SaveData.testStored, hload]
  have htest : ∀ b, _ → _ → testEdgeByAdj ⟨adj, []⟩ u w = some b := fun b =>
    testEdgeByAdj_eq (by simp only; omega) (by simp only; omega) (hsorted u) (hsorted w)
  apply htest
  · rw [hmem u w, decide_eq_true_eq]
  · rw [hmem w u, decide_eq_true_eq]
    exact and_congr_right fun _ => ⟨Or.symm, Or.symm⟩

/-- After `n` builds from an empty database every neighbour is there `2 ^ n - 1` times, and
    `TestEdgeByAdj` reports the graph of the file from the first build on. -/
theorem buildsNoVend_doubles (hsize : vertexSize + 1 < 2 ^ 31) (n : Nat) :
    ∃ db, buildsNoVend vertexSize false file.lines n ∅ = some db ∧
      (∀ v w, (db.list v).count w = if file.Edge v w then 2 ^ n - 1 else 0) ∧
      ∀ u w, u ≤ vertexSize → w ≤ vertexSize →
        testStored vertexSize db u w = some (decide (1 ≤ n ∧ file.Edge u w)) := by
  obtain ⟨db, hrun, hstored⟩ := stored_buildsNoVend file hsize n
  refine ⟨db, hrun, hstored.count, ?_⟩
  intro u w hu hw
  have hcopies : 1 ≤ 2 ^ n - 1 ↔ 1 ≤ n := by
    cases n with
    | zero => simp
    | succ n =>
      have hpos : 1 ≤ 2 ^ n := Nat.one_le_two_pow
      rw [Nat.pow_succ]
      omega
  rw [hstored.testStored file hsize hu hw]
  simp only [hcopies]

/-- Two builds from the edge 1-2. -/
theorem buildsNoVend_doubles_onePair : ∃ db, buildsNoVend 2 false onePair.lines 2 ∅ = some db ∧
    (db.list 1).count 2 = 3 ∧ testStored 2 db 1 2 = some true := by
  obtain ⟨db, hrun, hcount, htest⟩ := buildsNoVend_doubles onePair (by decide) 2
  have hedge : onePair.Edge 1 2 := by decide
  refine ⟨db, hrun, ?_, ?_⟩
  · rw [hcount, if_pos hedge]
    rfl
  · rw [htest 1 2 (by decide) (by decide), decide_eq_true ⟨by decide, hedge⟩]

/-- `DbQuery` searches a list as it stands in the database. The lists are in order after the
    first build; after a further one only those with at most one neighbour are. -/
theorem buildsNoVend_sorted_iff (hsize : vertexSize + 1 < 2 ^ 31) (n : Nat) :
    ∃ db, buildsNoVend vertexSize false file.lines n ∅ = some db ∧
      ∀ v, (db.list v).Pairwise (· ≤ ·) ↔
        n ≤ 1 ∨ ∀ a b, file.Edge v a → file.Edge v b → a = b := by
  cases n with
  | zero =>
    have hlist : ∀ v, RocksDb.list ∅ v = [] := fun v => rfl
    exact ⟨∅, rfl, by simp [hlist]⟩
  | succ n =>
    obtain ⟨db, hrun, hstored⟩ := stored_buildsNoVend file hsize n
    obtain ⟨db', hbuild, -, hlist⟩ := buildNoVend_spec file hsize hstored.fits
    obtain ⟨db'', hbuild', hstored'⟩ := hstored.buildNoVend file hsize
    rw [hbuild, Option.some.injEq] at hbuild'
    subst hbuild'
    refine ⟨db', by rw [buildsNoVend, hrun]; exact hbuild, ?_⟩
    intro v
    constructor
    · intro hsorted
      by_contra hnot
      push Not at hnot
      obtain ⟨hn, a, b, ha, hb, hne⟩ := hnot
      have hcopies : 1 ≤ 2 ^ n - 1 := by
        have hpow : 2 ^ 1 ≤ 2 ^ n := Nat.pow_le_pow_right (by decide) (by omega)
        omega
      rw [hlist v, if_pos (EdgeFile.range_of_edge file ha).1, List.pairwise_append] at hsorted
      -- both neighbours stand in the old part and in the new one
      have hle : ∀ x y, file.Edge v x → file.Edge v y → x ≤ y := by
        intro x y hx hy
        refine hsorted.2.2 x ((hstored.mem_iff v x).mpr ⟨hcopies, hx⟩) y ?_
        rw [mem_sort, List.mem_append]
        exact Or.inr (mem_flatMap_bothEnds.mpr hy)
      exact hne (Nat.le_antisymm (hle a b ha hb) (hle b a hb ha))
    · rintro (hn | halone)
      · have hzero : n = 0 := by omega
        subst hzero
        have hempty : db.list v = [] := by
          rw [List.eq_nil_iff_forall_not_mem]
          intro w hw
          have hcopies := ((hstored.mem_iff v w).mp hw).1
          omega
        rw [hlist v, hempty]
        split
        · exact sorted_sort _
        · exact List.Pairwise.nil
      · apply List.pairwise_of_forall_mem_list
        intro a ha b hb
        have hedge := fun x hx => ((hstored'.mem_iff v x).mp hx).2
        exact Nat.le_of_eq (halone a b (hedge a ha) (hedge b hb))

end

/-- The edges 1-2 and 1-3. -/
def twoPairs : EdgeFile 3 where
  lines := [some (1, 2), some (1, 3)]
  range := by decide
  loopless := by decide
  distinct := by decide

/-- The list of vertex 1 is not in order after the second build. -/
theorem buildsNoVend_sorted_twoPairs :
    ∃ db, buildsNoVend 3 false twoPairs.lines 2 ∅ = some db ∧
      ¬ (db.list 1).Pairwise (· ≤ ·) := by
  obtain ⟨db, hrun, hsorted⟩ := buildsNoVend_sorted_iff twoPairs (by decide) 2
  refine ⟨db, hrun, ?_⟩
  rw [hsorted 1]
  rintro (hn | halone)
  · omega
  · have := halone 2 3 (by decide) (by decide)
    omega

end SaveData

end Vend
