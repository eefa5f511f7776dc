import Vend.Lib.BucketOrder
import Vend.Vend.Covering
import Mathlib.Data.List.Perm.Basic
import Mathlib.Data.List.Sort
import Mathlib.Data.List.GetD

/-! # Bucket peeling

    The k-core build that `RangeVend::BuildEncoding` and
    `Directed_Hyb_Vend::BuildEncoding` share. Vertices are kept in an array
    ordered by degree; the first loop encodes the vertices of degree at most
    `GetIntSize()` one by one and takes them out of the graph, the second loop
    encodes the rest. Neighbours that have been taken out (`filtered`) are left
    out of every later encoding.

    The two sources differ in the lists of a vertex: one list for an undirected
    graph, an out- and an in-list for a directed one. `lists v` stands for
    either, and the degree of `v` is the total length.

    Reads and writes of the arrays are checked: `none` is an access out of
    bounds or a signed overflow. `std::sort` is not stable, so the order it
    leaves is a parameter.
-/

namespace Vend

namespace BucketPeeling

/-! ## Section 1: Model -/

/-- The local arrays of `BuildEncoding`. -/
structure Arrays where
  degrees : List Nat
  pos : List Nat
  vert : List Nat
  bin : List Nat
  filtered : List Bool
  deriving DecidableEq, Repr

/-- The body of the loop over the neighbours of the current vertex. -/
def relax (vertexDegree : Nat) (s : Arrays) (neighbor : Nat) : Option Arrays := do
  let isFiltered ← s.filtered[neighbor]?
  if isFiltered then return s
  let neighborDegree ← s.degrees[neighbor]?
  let neighborPos ← s.pos[neighbor]?
  let firstBinPos ← s.bin[neighborDegree]?
  let firstBin ← s.vert[firstBinPos]?
  if vertexDegree ≥ neighborDegree then return s
  guard (firstBin < s.pos.length ∧ neighborPos < s.vert.length)
  -- swap two elements in the pos and vert
  let s :=
    if firstBinPos ≠ neighborPos then
      { s with
        pos := (s.pos.set neighbor firstBinPos).set firstBin neighborPos
        vert := (s.vert.set neighborPos firstBin).set firstBinPos neighbor }
    else s
  return { s with
    bin := s.bin.set neighborDegree (firstBinPos + 1)
    degrees := s.degrees.set neighbor (neighborDegree - 1) }

/-- One round of the k-core loop. -/
def peelVertex (lists : Nat → List (List Nat)) (s : Arrays) (idx : Nat) :
    Option (Arrays × Call) := do
  let vertex ← s.vert[idx]?
  let vertexDegree ← s.degrees[vertex]?
  let relaxed ← (lists vertex).flatten.foldlM (relax vertexDegree) s
  guard (vertex < relaxed.filtered.length)
  return ({ relaxed with filtered := relaxed.filtered.set vertex true },
    ⟨true, vertex, (lists vertex).map (unfiltered s.filtered)⟩)

/-- The k-core loop. Its bound `bin[max_kcore + 1]` is read again in every round. -/
def kcoreLoop (lists : Nat → List (List Nat)) (maxKcore : Nat) :
    Nat → Nat → Arrays → Option (Nat × Arrays × List Call)
  | 0, _, _ => none
  | fuel + 1, idx, s => do
    let stop ← s.bin[maxKcore + 1]?
    if idx < stop then
      let (s, call) ← peelVertex lists s idx
      let (idx, s, calls) ← kcoreLoop lists maxKcore fuel (idx + 1) s
      return (idx, s, call :: calls)
    else return (idx, s, [])

/-- The loop over the remaining vertices. -/
def remainingLoop (lists : Nat → List (List Nat)) (s : Arrays) : Nat → Nat → Option (List Call)
  | 0, _ => some []
  | n + 1, idx => do
    let vertex ← s.vert[idx]?
    let calls ← remainingLoop lists s n (idx + 1)
    return ⟨false, vertex, (lists vertex).map (unfiltered s.filtered)⟩ :: calls

/-- `degrees`, zero for the unused vertex 0. -/
def initDegrees (vertexSize : Nat) (lists : Nat → List (List Nat)) : List Nat :=
  0 :: (List.range' 1 vertexSize).map fun v => (lists v).flatten.length

/-- `pos[vert[i]] = i` for the positions from `i` on. -/
def initPos : List Nat → Nat → List Nat → List Nat
  | [], _, pos => pos
  | v :: vs, i, pos => initPos vs (i + 1) (pos.set v i)

/-- The bucket starts of the degrees that occur. -/
def initBin (degrees : List Nat) : List Nat → Nat → Nat → List Nat → List Nat
  | [], _, _, bin => bin
  | v :: vs, i, j, bin =>
    let degree := degrees.getD v 0
    if degree > j then initBin degrees vs (i + 1) degree (bin.set degree i)
    else initBin degrees vs (i + 1) j bin

/-- `while (bin[++j] == 0) bin[j] = bin[j - 1];` from index `j` on. -/
def fillRun : Nat → Nat → List Nat → Option (Nat × List Nat)
  | 0, _, _ => none
  | fuel + 1, j, bin => do
    let start ← bin[j]?
    if start = 0 then
      let prev ← bin[j - 1]?
      fillRun fuel (j + 1) (bin.set j prev)
    else return (j, bin)

/-- The loop that fills the gaps between the degrees that occur. -/
def fillGaps (maxDegree : Nat) : Nat → Nat → List Nat → Option (List Nat)
  | 0, _, _ => none
  | fuel + 1, j, bin => do
    if j ≤ maxDegree then
      let start ← bin[j]?
      if start = 0 then
        let prev ← bin[j - 1]?
        let (j, bin) ← fillRun fuel (j + 1) (bin.set j (prev + 1))
        fillGaps maxDegree fuel (j + 1) bin
      else fillGaps maxDegree fuel (j + 1) bin
    else return bin

/-- `max_degree`. -/
def maxDegree (vertexSize : Nat) (lists : Nat → List (List Nat)) : Nat :=
  (initDegrees vertexSize lists).foldl max 0

/-- The arrays before the k-core loop; `order` is what `std::sort` leaves in
    `vert[1 ..]`. -/
def initArrays (vertexSize : Nat) (lists : Nat → List (List Nat)) (order : List Nat) :
    Option Arrays := do
  let degrees := initDegrees vertexSize lists
  let maxDegree := maxDegree vertexSize lists
  let bin ← fillGaps maxDegree (maxDegree + 1) 1
    (initBin degrees order 1 0 (List.replicate (maxDegree + 1) 0))
  return {
    degrees
    pos := initPos order 1 (List.replicate (vertexSize + 1) 0)
    vert := 0 :: order
    bin
    filtered := List.replicate (vertexSize + 1) false }

/-- The calls of `EncodeVertex` that `BuildEncoding` makes, in order. `int idx`
    counts to `VERTEX_SIZE + 1` and `int j` to `max_degree + 1`. -/
def peel (vertexSize : Nat) (lists : Nat → List (List Nat)) (maxKcore : Nat) (order : List Nat) :
    Option (List Call) := do
  guard (vertexSize + 1 < 2 ^ 31 ∧ maxDegree vertexSize lists + 1 < 2 ^ 31)
  let s ← initArrays vertexSize lists order
  let (idx, s, calls) ← kcoreLoop lists maxKcore (vertexSize + 2) 0 s
  let rest ← remainingLoop lists s (vertexSize + 1 - idx) idx
  return calls ++ rest

/-! ## Section 2: The arrays as a bucket order -/

/-- The four arrays, read as functions. -/
def Arrays.view (s : Arrays) : BucketOrder.Buckets where
  key v := s.degrees.getD v 0
  pos v := s.pos.getD v 0
  vert i := s.vert.getD i 0
  bin d := s.bin.getD d 0

/-- The arrays have room for `n` vertices and the degrees up to `top`. -/
structure Arrays.Sized (s : Arrays) (n top : Nat) : Prop where
  degrees : s.degrees.length = n
  pos : s.pos.length = n
  vert : s.vert.length = n
  bin : s.bin.length = top + 1
  filtered : s.filtered.length = n

theorem getD_set (l : List Nat) {i : Nat} (hi : i < l.length) (a j : Nat) :
    (l.set i a).getD j 0 = if j = i then a else l.getD j 0 := by
  by_cases hij : j = i
  · subst hij
    simp [List.getD_eq_getElem?_getD, hi]
  · have hne : i ≠ j := fun h => hij h.symm
    simp [List.getD_eq_getElem?_getD, hij, hne]

theorem getElem?_eq_getD {l : List Nat} {i : Nat} (hi : i < l.length) :
    l[i]? = some (l.getD i 0) := by
  simp [List.getD_eq_getElem?_getD, hi]

theorem set_getD_self (l : List Nat) (i : Nat) : l.set i (l.getD i 0) = l := by
  by_cases hi : i < l.length
  · rw [List.getD_eq_getElem _ _ hi, List.set_getElem_self]
  · exact List.set_eq_of_length_le (by omega)

/-- The arrays after `relax` lowered the degree of `neighbor`. -/
def Arrays.lower (s : Arrays) (neighbor : Nat) : Arrays where
  degrees := s.degrees.set neighbor (s.view.key neighbor - 1)
  pos := (s.pos.set neighbor (s.view.bin (s.view.key neighbor))).set
    (s.view.vert (s.view.bin (s.view.key neighbor))) (s.view.pos neighbor)
  vert := (s.vert.set (s.view.pos neighbor) (s.view.vert (s.view.bin (s.view.key neighbor)))).set
    (s.view.bin (s.view.key neighbor)) neighbor
  bin := s.bin.set (s.view.key neighbor) (s.view.bin (s.view.key neighbor) + 1)
  filtered := s.filtered

section Relax

variable {s : Arrays} {n top vertexDegree neighbor : Nat}
variable (hsize : s.Sized n top) (hord : BucketOrder.Bounded s.view n top)
variable (hn : neighbor < n)
include hsize hn

theorem relax_of_filtered (hfil : s.filtered.getD neighbor false = true) :
    relax vertexDegree s neighbor = some s := by
  have hlt : neighbor < s.filtered.length := by rw [hsize.filtered]; exact hn
  have hread : s.filtered[neighbor]? = some true := by
    rw [List.getD_eq_getElem?_getD, List.getElem?_eq_getElem hlt] at hfil
    rw [List.getElem?_eq_getElem hlt]
    simpa using hfil
  simp [relax, hread]

include hord

/-- The reads of `relax` are in bounds. -/
theorem relax_of_not_filtered (hfil : s.filtered.getD neighbor false = false) :
    relax vertexDegree s neighbor =
      if vertexDegree ≥ s.view.key neighbor then some s else some (s.lower neighbor) := by
  have hlt : neighbor < s.filtered.length := by rw [hsize.filtered]; exact hn
  have hread : s.filtered[neighbor]? = some false := by
    rw [List.getD_eq_getElem?_getD, List.getElem?_eq_getElem hlt] at hfil
    rw [List.getElem?_eq_getElem hlt]
    simpa using hfil
  -- every read of the loop body is inside its array
  have hkey := hord.key_le neighbor hn
  have hbin := hord.bin_lt hn
  have hdeg : s.degrees[neighbor]? = some (s.view.key neighbor) :=
    getElem?_eq_getD (by rw [hsize.degrees]; exact hn)
  have hpos : s.pos[neighbor]? = some (s.view.pos neighbor) :=
    getElem?_eq_getD (by rw [hsize.pos]; exact hn)
  have hbin' : s.bin[s.view.key neighbor]? = some (s.view.bin (s.view.key neighbor)) :=
    getElem?_eq_getD (by rw [hsize.bin]; omega)
  have hvert : s.vert[s.view.bin (s.view.key neighbor)]? =
      some (s.view.vert (s.view.bin (s.view.key neighbor))) :=
    getElem?_eq_getD (by rw [hsize.vert]; exact hbin)
  have hguard : s.view.vert (s.view.bin (s.view.key neighbor)) < s.pos.length ∧
      s.view.pos neighbor < s.vert.length := by
    rw [hsize.pos, hsize.vert]
    exact ⟨hord.vert_lt _ hbin, hord.pos_lt _ hn⟩
  simp only [relax, hread, hdeg, hpos, hbin', hvert, Option.bind_eq_bind, Option.bind_some,
    Bool.false_eq_true, if_false]
  split
  · rfl
  · simp only [guard, if_pos hguard]
    split
    next => rfl
    next heq =>
      -- the neighbour is the first of its bucket, and the swap would do nothing
      have heq : s.view.bin (s.view.key neighbor) = s.view.pos neighbor := not_not.mp heq
      have hpos' : s.pos = (s.lower neighbor).pos := by
        simp only [Arrays.lower, heq, hord.vert_pos _ hn, List.set_set]
        exact (set_getD_self s.pos neighbor).symm
      have hvert' : s.vert = (s.lower neighbor).vert := by
        have hset := set_getD_self s.vert (s.view.pos neighbor)
        change s.vert.set _ (s.view.vert (s.view.pos neighbor)) = _ at hset
        rw [hord.vert_pos _ hn] at hset
        simp only [Arrays.lower, heq, List.set_set]
        exact hset.symm
      simp only [Option.pure_def, Option.bind_some, Option.some.injEq]
      rw [hpos', hvert']
      rfl

/-- Lowering a degree is a `decrease` of the bucket order. -/
theorem view_lower : (s.lower neighbor).view = s.view.decrease neighbor := by
  have hkey := hord.key_le neighbor hn
  have hbin := hord.bin_lt hn
  have hpos := hord.pos_lt _ hn
  have hvert := hord.vert_lt _ hbin
  unfold BucketOrder.Buckets.decrease
  conv_lhs => unfold Arrays.view
  simp only [Arrays.lower, BucketOrder.Buckets.mk.injEq]
  refine ⟨?_, ?_, ?_, ?_⟩
  · funext w
    rw [getD_set _ (by rw [hsize.degrees]; exact hn), Function.update_apply]
    rfl
  · funext w
    rw [Function.update_apply, Function.update_apply,
      getD_set _ (by rw [List.length_set, hsize.pos]; exact hvert),
      getD_set _ (by rw [hsize.pos]; exact hn)]
    rfl
  · funext i
    rw [Function.update_apply, Function.update_apply,
      getD_set _ (by rw [List.length_set, hsize.vert]; exact hbin),
      getD_set _ (by rw [hsize.vert]; exact hpos)]
    rfl
  · funext d
    rw [getD_set _ (by rw [hsize.bin]; omega), Function.update_apply]
    rfl

omit hn hord in
theorem sized_lower : (s.lower neighbor).Sized n top := by
  constructor
  · simp [Arrays.lower, hsize.degrees]
  · simp [Arrays.lower, hsize.pos]
  · simp [Arrays.lower, hsize.vert]
  · simp [Arrays.lower, hsize.bin]
  · exact hsize.filtered

end Relax

/-! ## Section 3: One round of the k-core loop -/

/-- Neighbour lists as the builds receive them: ids `1 .. vertexSize`, no loops,
    and `w` occurs at `v` as often as `v` occurs at `w`. -/
structure Peelable (vertexSize : Nat) (lists : Nat → List (List Nat)) : Prop where
  zero : (lists 0).flatten = []
  range : ∀ v, ∀ w ∈ (lists v).flatten, 1 ≤ w ∧ w ≤ vertexSize
  loopless : ∀ v, v ∉ (lists v).flatten
  symm : ∀ v w, (lists v).flatten.count w = (lists w).flatten.count v

/-- The loop invariant. The vertices in front of `idx` have been taken out; a
    vertex that is left has at most `key` neighbours left; the vertices of
    `core` are never taken out, and the bucket starts are right in front of
    `bound`. -/
structure PeelInv (lists : Nat → List (List Nat)) (n top bound : Nat) (core : Finset Nat)
    (s : Arrays) (idx : Nat) : Prop where
  sized : s.Sized n top
  ordered : BucketOrder.Ordered s.view n 2 top bound
  filtered_iff : ∀ v, v < n → (s.filtered.getD v false = true ↔ s.view.pos v < idx)
  rest_le : ∀ v, v < n → idx ≤ s.view.pos v →
    ((lists v).flatten.countP fun w => !s.filtered.getD w false) ≤ s.view.key v
  core_le : ∀ v ∈ core, idx ≤ s.view.pos v

/-- In the middle of the loop over the neighbours of `vert[idx]`. -/
structure Mid (start : Arrays) (n top bound idx : Nat) (done : List Nat) (s : Arrays) : Prop where
  sized : s.Sized n top
  ordered : BucketOrder.Ordered s.view n 2 top bound
  filtered_eq : s.filtered = start.filtered
  vert_eq : ∀ i, i ≤ idx → s.view.vert i = start.view.vert i
  key_eq : s.view.key (start.view.vert idx) = start.view.key (start.view.vert idx)
  key_le : ∀ w, start.view.key w ≤ s.view.key w + done.count w

section Round

variable {lists : Nat → List (List Nat)} {n top bound idx : Nat} {core : Finset Nat}
variable {start s : Arrays} {done : List Nat}

/-- The loop body keeps `Mid`. -/
theorem Mid.step (h : Mid start n top bound idx done s) (hidx : idx < n) (hbound : idx < bound)
    {neighbor : Nat} (hn : neighbor < n) (hne : neighbor ≠ start.view.vert idx)
    (hpos : start.filtered.getD neighbor false = false →
      1 ≤ start.view.key (start.view.vert idx)) :
    ∃ s', relax (start.view.key (start.view.vert idx)) s neighbor = some s' ∧
      Mid start n top bound idx (done ++ [neighbor]) s' := by
  have hmono : ∀ w, start.view.key w ≤ s.view.key w + (done ++ [neighbor]).count w := by
    intro w
    have hle := h.key_le w
    rw [List.count_append]
    omega
  have hsame : Mid start n top bound idx (done ++ [neighbor]) s :=
    ⟨h.sized, h.ordered, h.filtered_eq, h.vert_eq, h.key_eq, hmono⟩
  cases hfil : s.filtered.getD neighbor false with
  | true => exact ⟨s, relax_of_filtered h.sized hn hfil, hsame⟩
  | false =>
    rw [relax_of_not_filtered h.sized h.ordered.bounded hn hfil]
    by_cases hge : start.view.key (start.view.vert idx) ≥ s.view.key neighbor
    · exact ⟨s, by rw [if_pos hge], hsame⟩
    · rw [if_neg hge]
      refine ⟨s.lower neighbor, rfl, ?_⟩
      have hview := view_lower h.sized h.ordered.bounded hn
      have hk := hpos (by rw [← h.filtered_eq]; exact hfil)
      have hlo : 2 ≤ s.view.key neighbor := by omega
      -- the current vertex has a smaller key, so the swap happens behind it
      have hcur : s.view.key (s.view.vert idx) < s.view.key neighbor := by
        rw [h.vert_eq idx (Nat.le_refl _), h.key_eq]
        omega
      refine ⟨sized_lower h.sized, ?_, h.filtered_eq, ?_, ?_, ?_⟩
      · rw [hview]
        exact h.ordered.decrease hn hlo (by omega)
      · intro i hi
        rw [hview, h.ordered.vert_decrease_of_le hn hlo hidx hbound hcur hi, h.vert_eq i hi]
      · rw [hview, BucketOrder.key_decrease_of_ne (Ne.symm hne), h.key_eq]
      · intro w
        rw [hview]
        by_cases hw : w = neighbor
        · subst hw
          have hle := h.key_le w
          rw [BucketOrder.key_decrease_self, List.count_append, List.count_singleton_self]
          omega
        · rw [BucketOrder.key_decrease_of_ne hw]
          exact hmono w

theorem Mid.run (h : Mid start n top bound idx done s) (hidx : idx < n) (hbound : idx < bound)
    {neighbors : List Nat} (hn : ∀ w ∈ neighbors, w < n ∧ w ≠ start.view.vert idx)
    (hpos : ∀ w ∈ neighbors, start.filtered.getD w false = false →
      1 ≤ start.view.key (start.view.vert idx)) :
    ∃ s', neighbors.foldlM (relax (start.view.key (start.view.vert idx))) s = some s' ∧
      Mid start n top bound idx (done ++ neighbors) s' := by
  induction neighbors generalizing done s with
  | nil => exact ⟨s, rfl, by simpa using h⟩
  | cons w neighbors ih =>
    obtain ⟨hlt, hne⟩ := hn w (by simp)
    obtain ⟨s₁, heq₁, h₁⟩ := h.step hidx hbound hlt hne (hpos w (by simp))
    obtain ⟨s₂, heq₂, h₂⟩ := ih h₁ (fun x hx => hn x (by simp [hx]))
      (fun x hx => hpos x (by simp [hx]))
    refine ⟨s₂, ?_, by simpa using h₂⟩
    rw [List.foldlM_cons, heq₁]
    exact heq₂

/-- The loop does not leave a key too large: while a vertex of degree at most 1 is
    relaxed, every occurrence of a neighbour lowers its key, down to 1. -/
def Lowered (start : Arrays) (done : List Nat) (s : Arrays) : Prop :=
  ∀ w, start.filtered.getD w false = false →
    s.view.key w ≤ max 1 (start.view.key w - done.count w)

theorem Mid.step_lowered (h : Mid start n top bound idx done s)
    (hlow : Lowered start done s) (hone : start.view.key (start.view.vert idx) ≤ 1)
    {neighbor : Nat} (hn : neighbor < n) {s' : Arrays}
    (heq : relax (start.view.key (start.view.vert idx)) s neighbor = some s') :
    Lowered start (done ++ [neighbor]) s' := by
  intro w hw
  have hle := hlow w hw
  have hcount : (done ++ [neighbor]).count w =
      done.count w + if neighbor = w then 1 else 0 := by
    rw [List.count_append, List.count_singleton]
    simp only [beq_iff_eq]
  cases hfil : s.filtered.getD neighbor false with
  | true =>
    rw [relax_of_filtered h.sized hn hfil, Option.some.injEq] at heq
    -- `w` is still in the graph, the neighbour is not
    have hne : neighbor ≠ w := by
      rintro rfl
      rw [h.filtered_eq, hw] at hfil
      cases hfil
    rw [← heq, hcount, if_neg hne]
    exact hle
  | false =>
    rw [relax_of_not_filtered h.sized h.ordered.bounded hn hfil] at heq
    split at heq
    next hge =>
      obtain rfl := Option.some.inj heq
      rw [hcount]
      split
      next hnw =>
        subst hnw
        omega
      next => exact hle
    next hlt =>
      obtain rfl := Option.some.inj heq
      rw [view_lower h.sized h.ordered.bounded hn, hcount]
      by_cases hwn : w = neighbor
      · subst hwn
        rw [BucketOrder.key_decrease_self, if_pos rfl]
        omega
      · rw [BucketOrder.key_decrease_of_ne hwn, if_neg (Ne.symm hwn)]
        exact hle

theorem Mid.run_lowered (h : Mid start n top bound idx done s) (hidx : idx < n)
    (hbound : idx < bound) (hlow : Lowered start done s)
    (hone : start.view.key (start.view.vert idx) ≤ 1) {neighbors : List Nat}
    (hn : ∀ w ∈ neighbors, w < n ∧ w ≠ start.view.vert idx)
    (hpos : ∀ w ∈ neighbors, start.filtered.getD w false = false →
      1 ≤ start.view.key (start.view.vert idx)) {s' : Arrays}
    (heq : neighbors.foldlM (relax (start.view.key (start.view.vert idx))) s = some s') :
    Lowered start (done ++ neighbors) s' := by
  induction neighbors generalizing done s with
  | nil =>
    obtain rfl : s = s' := Option.some.inj heq
    simpa using hlow
  | cons w neighbors ih =>
    obtain ⟨hlt, hne⟩ := hn w (by simp)
    obtain ⟨s₁, heq₁, h₁⟩ := h.step hidx hbound hlt hne (hpos w (by simp))
    have hlow₁ := h.step_lowered hlow hone hlt heq₁
    rw [List.foldlM_cons, heq₁] at heq
    have hrest := ih h₁ hlow₁ (fun x hx => hn x (by simp [hx])) (fun x hx => hpos x (by simp [hx]))
      heq
    simpa using hrest

/-- The positions of the vertices in front of `k` are settled by `vert` there. -/
theorem pos_lt_iff_of_vert_eq {b b' : BucketOrder.Buckets} (hb : BucketOrder.Arranged b n)
    (hb' : BucketOrder.Arranged b' n) {k : Nat} (hk : k ≤ n)
    (heq : ∀ i, i < k → b'.vert i = b.vert i) {v : Nat} (hv : v < n) :
    b'.pos v < k ↔ b.pos v < k := by
  constructor
  · intro hlt
    have hvert := hb'.vert_pos v hv
    rw [heq _ hlt] at hvert
    rw [← hvert, hb.pos_vert _ (by omega)]
    exact hlt
  · intro hlt
    have hvert := hb.vert_pos v hv
    rw [← heq _ hlt] at hvert
    rw [← hvert, hb'.pos_vert _ (by omega)]
    exact hlt

/-- There is no room for `core` behind `bound`. -/
theorem PeelInv.idx_lt_bound (h : PeelInv lists n top bound core s idx) (hidx : idx ≤ n)
    (hcore : ∀ v ∈ core, v < n) (hbound : n + 1 ≤ bound + core.card) : idx < bound := by
  have hsub : core ⊆ (Finset.range n) \ ((Finset.range idx).image s.view.vert) := by
    intro v hv
    rw [Finset.mem_sdiff, Finset.mem_range, Finset.mem_image]
    refine ⟨hcore v hv, ?_⟩
    rintro ⟨i, hi, rfl⟩
    rw [Finset.mem_range] at hi
    have hle := h.core_le _ hv
    rw [h.ordered.pos_vert i (by omega)] at hle
    omega
  have himage : ((Finset.range idx).image s.view.vert).card = idx := by
    rw [Finset.card_image_of_injOn, Finset.card_range]
    intro i hi j hj heq
    rw [Finset.coe_range, Set.mem_Iio] at hi hj
    exact h.ordered.vert_injective (by omega) (by omega) heq
  have hsub' : (Finset.range idx).image s.view.vert ⊆ Finset.range n := by
    intro v hv
    obtain ⟨i, hi, rfl⟩ := Finset.mem_image.mp hv
    rw [Finset.mem_range] at hi
    exact Finset.mem_range.mpr (h.ordered.vert_lt i (by omega))
  have hcard := Finset.card_le_card hsub
  rw [Finset.card_sdiff_of_subset hsub', himage, Finset.card_range] at hcard
  omega

/-- A place in front of a bucket start is inside the array. -/
theorem PeelInv.idx_lt (h : PeelInv lists n top bound core s idx) {d : Nat} (hd : d ≤ top)
    (hlt : idx < s.view.bin d) : idx < n := by
  have hle := h.ordered.bin_le d hd
  have hcard : s.view.below n d ≤ n := BucketOrder.below_le d
  omega

/-- `core` is a set of vertices with more than `maxKcore` neighbours in `core`. -/
structure IsCore (lists : Nat → List (List Nat)) (n maxKcore : Nat) (core : Finset Nat) :
    Prop where
  lt : ∀ v ∈ core, v < n
  count : ∀ v ∈ core, maxKcore < (lists v).flatten.countP fun w => w ∈ core

/-- The core neighbours of a core vertex are all left, so its degree is large. -/
theorem PeelInv.lt_key_of_core {maxKcore : Nat} (h : PeelInv lists n top bound core s idx)
    (hcore : IsCore lists n maxKcore core) {v : Nat} (hv : v ∈ core) :
    maxKcore < s.view.key v := by
  have hsub : ((lists v).flatten.countP fun w => decide (w ∈ core)) ≤
      (lists v).flatten.countP fun w => !s.filtered.getD w false := by
    apply List.countP_mono_left
    intro w _ hw
    have hmem : w ∈ core := of_decide_eq_true hw
    have hge := h.core_le w hmem
    have hiff := h.filtered_iff w (hcore.lt w hmem)
    cases hfil : s.filtered.getD w false with
    | true => exact absurd (hiff.mp hfil) (by omega)
    | false => rfl
  have hrest := h.rest_le v (hcore.lt v hv) (h.core_le v hv)
  have hgt := hcore.count v hv
  omega

/-- Taking out one more vertex removes exactly its own occurrences. -/
theorem countP_not_take_out (l : List Nat) {f : Nat → Bool} {u : Nat} (hu : f u = false) :
    (l.countP fun w => !f w) = (l.countP fun w => !(decide (w = u) || f w)) + l.count u := by
  induction l with
  | nil => rfl
  | cons w l ih =>
    rw [List.countP_cons, List.countP_cons, List.count_cons, ih]
    by_cases hw : w = u
    · subst hw
      simp only [hu, decide_true, Bool.true_or, Bool.not_true, Bool.not_false, beq_self_eq_true,
        if_true, Bool.false_eq_true, if_false]
      omega
    · simp only [hw, decide_false, Bool.false_or, beq_iff_eq, if_false]
      omega

/-- The loop over the neighbours in a round of the k-core loop. -/
theorem PeelInv.relax_run {vertexSize : Nat} (hlists : Peelable vertexSize lists)
    (h : PeelInv lists (vertexSize + 1) top bound core s idx) (hidx : idx < vertexSize + 1)
    (hb : idx < bound) :
    ∃ s₁, BucketPeeling.peelVertex lists s idx =
        some ({ s₁ with filtered := s₁.filtered.set (s.view.vert idx) true },
          ⟨true, s.view.vert idx, (lists (s.view.vert idx)).map (unfiltered s.filtered)⟩) ∧
      Mid s (vertexSize + 1) top bound idx (lists (s.view.vert idx)).flatten s₁ ∧
      (s.view.key (s.view.vert idx) ≤ 1 → Lowered s (lists (s.view.vert idx)).flatten s₁) ∧
      ∀ v, (s₁.filtered.set (s.view.vert idx) true).getD v false =
        (decide (v = s.view.vert idx) || s.filtered.getD v false) := by
  have hu := h.ordered.vert_lt idx hidx
  have hpos := h.ordered.pos_vert idx hidx
  have hrest := h.rest_le _ hu (by omega)
  have hn : ∀ w ∈ (lists (s.view.vert idx)).flatten,
      w < vertexSize + 1 ∧ w ≠ s.view.vert idx := by
    intro w hw
    have hrange := hlists.range _ w hw
    exact ⟨by omega, fun heq => hlists.loopless _ (heq ▸ hw)⟩
  -- a vertex of degree 0 has no neighbour left to relax
  have hpos' : ∀ w ∈ (lists (s.view.vert idx)).flatten, s.filtered.getD w false = false →
      1 ≤ s.view.key (s.view.vert idx) := by
    intro w hw hfil
    have hcount : 0 < (lists (s.view.vert idx)).flatten.countP
        fun w => !s.filtered.getD w false :=
      List.countP_pos_iff.mpr ⟨w, hw, by simp only [hfil, Bool.not_false]⟩
    omega
  have hmid : Mid s (vertexSize + 1) top bound idx [] s :=
    ⟨h.sized, h.ordered, rfl, fun _ _ => rfl, rfl, fun w => by simp⟩
  obtain ⟨s₁, heq, h₁⟩ := hmid.run hidx hb hn hpos'
  rw [List.nil_append] at h₁
  -- the body of the first loop is this run, then the mark in `filtered`
  refine ⟨s₁, ?_, h₁, ?_, ?_⟩
  · have hvert : s.vert[idx]? = some (s.view.vert idx) :=
      getElem?_eq_getD (by rw [h.sized.vert]; exact hidx)
    have hdeg : s.degrees[s.view.vert idx]? = some (s.view.key (s.view.vert idx)) :=
      getElem?_eq_getD (by rw [h.sized.degrees]; exact hu)
    have hguard : s.view.vert idx < s₁.filtered.length := by
      rw [h₁.sized.filtered]
      exact hu
    simp only [BucketPeeling.peelVertex, hvert, hdeg, heq, Option.bind_eq_bind, Option.bind_some,
      guard, if_pos hguard]
    rfl
  · intro hone
    have hlow : Lowered s [] s := fun w _ => by simp
    exact hmid.run_lowered hidx hb hlow hone hn hpos' heq
  · intro v
    rw [h₁.filtered_eq]
    by_cases hv : v = s.view.vert idx
    · rw [hv]
      simp [List.getD_eq_getElem?_getD, h.sized.filtered, hu]
    · have hne : s.view.vert idx ≠ v := fun e => hv e.symm
      simp [List.getD_eq_getElem?_getD, hv, hne]

/-- What a round of the k-core loop does. -/
theorem PeelInv.peelVertex {vertexSize maxKcore : Nat} (hlists : Peelable vertexSize lists)
    (hcore : IsCore lists (vertexSize + 1) maxKcore core)
    (hbound : vertexSize + 2 ≤ bound + core.card) (htop : maxKcore + 1 ≤ top)
    (h : PeelInv lists (vertexSize + 1) top bound core s idx)
    (hlt : idx < s.view.bin (maxKcore + 1)) :
    ∃ s', peelVertex lists s idx = some (s', ⟨true, s.view.vert idx,
        (lists (s.view.vert idx)).map (unfiltered s.filtered)⟩) ∧
      PeelInv lists (vertexSize + 1) top bound core s' (idx + 1) ∧
      (∀ i, i ≤ idx → s'.view.vert i = s.view.vert i) ∧
      ((lists (s.view.vert idx)).flatten.countP fun w => !s.filtered.getD w false) ≤ maxKcore := by
  have hidx := h.idx_lt htop hlt
  have hb := h.idx_lt_bound (by omega) hcore.lt hbound
  have hu := h.ordered.vert_lt idx hidx
  have hpos := h.ordered.pos_vert idx hidx
  have hkey := h.ordered.lt_of_lt_bin _ htop idx hidx hb hlt
  have hrest := h.rest_le _ hu (by omega)
  obtain ⟨s₁, heq, h₁, -, hfilset⟩ := h.relax_run hlists hidx hb
  have hlen : s₁.filtered.length = vertexSize + 1 := h₁.sized.filtered
  -- the places up to `idx` stay as they are
  have hposiff : ∀ v, v < vertexSize + 1 → (s₁.view.pos v < idx + 1 ↔ s.view.pos v < idx + 1) :=
    fun v hv => pos_lt_iff_of_vert_eq h.ordered.toArranged h₁.ordered.toArranged (by omega)
      (fun i hi => h₁.vert_eq i (by omega)) hv
  have hcur : ∀ v, v < vertexSize + 1 → (s.view.pos v = idx ↔ v = s.view.vert idx) := by
    intro v hv
    constructor
    · intro heq
      rw [← heq, h.ordered.vert_pos v hv]
    · rintro rfl
      exact hpos
  refine ⟨{ s₁ with filtered := s₁.filtered.set (s.view.vert idx) true }, heq, ?_, h₁.vert_eq,
    by omega⟩
  refine ⟨?_, h₁.ordered, ?_, ?_, ?_⟩
  · exact ⟨h₁.sized.degrees, h₁.sized.pos, h₁.sized.vert, h₁.sized.bin, by simpa using hlen⟩
  · intro v hv
    change (s₁.filtered.set (s.view.vert idx) true).getD v false = true ↔ s₁.view.pos v < idx + 1
    have hold := h.filtered_iff v hv
    have hv' := hcur v hv
    rw [hfilset, hposiff v hv, Bool.or_eq_true, decide_eq_true_eq, hold, ← hv']
    omega
  · intro v hv hle
    change ((lists v).flatten.countP fun w =>
      !(s₁.filtered.set (s.view.vert idx) true).getD w false) ≤ s₁.view.key v
    change idx + 1 ≤ s₁.view.pos v at hle
    have hle' : idx ≤ s.view.pos v := by
      have := hposiff v hv
      omega
    have hold := h.rest_le v hv hle'
    have hmono := h₁.key_le v
    rw [hlists.symm] at hmono
    -- taking out the current vertex removes its occurrences from the list of `v`
    have hfil : s.filtered.getD (s.view.vert idx) false = false := by
      have hiff := h.filtered_iff _ hu
      rw [hpos] at hiff
      simpa using hiff
    have hsplit := countP_not_take_out (lists v).flatten (f := fun w => s.filtered.getD w false)
      hfil
    simp only [hfilset]
    omega
  · intro v hv
    -- a core vertex has too many neighbours left to be the current one
    change idx + 1 ≤ s₁.view.pos v
    have hvlt := hcore.lt v hv
    have hle := h.core_le v hv
    have hcount := h.lt_key_of_core hcore hv
    have hne : s.view.pos v ≠ idx := by
      intro heq
      have := (hcur v hvlt).mp heq
      rw [this] at hcount
      omega
    have := hposiff v hvlt
    omega

end Round

/-! ## Section 4: The two loops -/

/-- The call for position `i` of the final order, with the neighbours from
    position `cut` on. -/
def callAt (lists : Nat → List (List Nat)) (b : BucketOrder.Buckets) (firstLoop : Bool)
    (cut i : Nat) : Call :=
  ⟨firstLoop, b.vert i, (lists (b.vert i)).map fun l => l.filter fun w => cut ≤ b.pos w⟩

section Loops

variable {lists : Nat → List (List Nat)} {vertexSize maxKcore top bound idx : Nat}
variable {core : Finset Nat} {s : Arrays}
variable (hlists : Peelable vertexSize lists)
include hlists

/-- The unfiltered neighbours are those that stand behind `idx`, in this order
    and in every later one. -/
theorem PeelInv.filtered_eq (h : PeelInv lists (vertexSize + 1) top bound core s idx)
    (hidx : idx ≤ vertexSize + 1) {b : BucketOrder.Buckets}
    (hb : BucketOrder.Arranged b (vertexSize + 1))
    (hvert : ∀ i, i < idx → b.vert i = s.view.vert i) {v w : Nat}
    (hw : w ∈ (lists v).flatten) :
    (!s.filtered.getD w false) = decide (idx ≤ b.pos w) := by
  have hlt : w < vertexSize + 1 := by
    have := (hlists.range v w hw).2
    omega
  have hiff := h.filtered_iff w hlt
  have hpos := pos_lt_iff_of_vert_eq h.ordered.toArranged hb hidx hvert hlt
  cases hfil : s.filtered.getD w false with
  | true =>
    have := hpos.mpr (hiff.mp hfil)
    simp only [Bool.not_true]
    exact (decide_eq_false (by omega)).symm
  | false =>
    have hnot : ¬ s.view.pos w < idx := by
      intro hlt'
      rw [hiff.mpr hlt'] at hfil
      cases hfil
    simp only [Bool.not_false]
    exact (decide_eq_true (by omega)).symm

theorem PeelInv.call_eq (h : PeelInv lists (vertexSize + 1) top bound core s idx)
    (hidx : idx ≤ vertexSize + 1) {b : BucketOrder.Buckets}
    (hb : BucketOrder.Arranged b (vertexSize + 1))
    (hvert : ∀ i, i < idx → b.vert i = s.view.vert i) (firstLoop : Bool) (i : Nat) :
    (⟨firstLoop, b.vert i, (lists (b.vert i)).map (unfiltered s.filtered)⟩ : Call) =
      callAt lists b firstLoop idx i := by
  unfold callAt unfiltered
  congr 1
  apply List.map_congr_left
  intro l hl
  apply List.filter_congr
  intro w hw
  exact h.filtered_eq hlists hidx hb hvert (List.mem_flatten.mpr ⟨l, hl, hw⟩)

/-- The k-core loop comes to an end and keeps the invariant; its calls are those
    of the final order. `extra` is whatever else the rounds keep, and `small` bounds
    the lists of its calls. -/
theorem kcoreLoop_run (hcore : IsCore lists (vertexSize + 1) maxKcore core)
    (hbound : vertexSize + 2 ≤ bound + core.card) (htop : maxKcore + 1 ≤ top)
    {extra : Arrays → Nat → Prop} {small : Nat}
    (hstep : ∀ s idx s' call, PeelInv lists (vertexSize + 1) top bound core s idx → extra s idx →
      idx < s.view.bin (maxKcore + 1) → BucketPeeling.peelVertex lists s idx = some (s', call) →
      extra s' (idx + 1) ∧ ((lists (s.view.vert idx)).flatten.countP fun w =>
        !s.filtered.getD w false) ≤ small)
    (fuel : Nat) (h : PeelInv lists (vertexSize + 1) top bound core s idx) (hextra : extra s idx)
    (hidx : idx ≤ vertexSize + 1) (hfuel : vertexSize + 1 < fuel + idx) :
    ∃ k s', kcoreLoop lists maxKcore fuel idx s = some (k, s',
        (List.range' idx (k - idx)).map fun i => callAt lists s'.view true i i) ∧
      idx ≤ k ∧ k ≤ vertexSize + 1 ∧ PeelInv lists (vertexSize + 1) top bound core s' k ∧
      extra s' k ∧ s'.view.bin (maxKcore + 1) ≤ k ∧
      (∀ i, i < idx → s'.view.vert i = s.view.vert i) ∧
      ∀ i, idx ≤ i → i < k → ((lists (s'.view.vert i)).flatten.countP fun w =>
        decide (i ≤ s'.view.pos w)) ≤ small := by
  induction fuel generalizing idx s with
  | zero => omega
  | succ fuel ih =>
    have hstop : s.bin[maxKcore + 1]? = some (s.view.bin (maxKcore + 1)) :=
      getElem?_eq_getD (by rw [h.sized.bin]; omega)
    by_cases hlt : idx < s.view.bin (maxKcore + 1)
    · -- one round, and then the rounds behind it
      have hidx' := h.idx_lt htop hlt
      obtain ⟨s₁, heq₁, h₁, hvert₁, -⟩ := h.peelVertex hlists hcore hbound htop hlt
      obtain ⟨hextra₁, hcount⟩ := hstep s idx s₁ _ h hextra hlt heq₁
      obtain ⟨k, s₂, heq₂, hle₂, hk, h₂, hextra₂, hend, hvert₂, hcount₂⟩ :=
        ih h₁ hextra₁ hidx' (by omega)
      -- what has been passed stays in place, so every call can be read off the last array
      have hvert : ∀ i, i < idx + 1 → s₂.view.vert i = s.view.vert i := by
        intro i hi
        rw [hvert₂ i hi, hvert₁ i (by omega)]
      have hsame := h.call_eq hlists hidx h₂.ordered.toArranged (fun i hi => hvert i (by omega))
        true idx
      rw [hvert idx (by omega)] at hsame
      have hrange : List.range' idx (k - idx) = idx :: List.range' (idx + 1) (k - (idx + 1)) := by
        rw [show k - idx = k - (idx + 1) + 1 by omega, List.range'_succ]
      refine ⟨k, s₂, ?_, by omega, hk, h₂, hextra₂, hend, fun i hi => hvert i (by omega), ?_⟩
      · simp only [kcoreLoop, hstop, Option.bind_eq_bind, Option.bind_some, if_pos hlt, heq₁, heq₂,
          hrange, List.map_cons, hsame]
        rfl
      · intro i hi hik
        rcases Nat.eq_or_lt_of_le hi with rfl | hgt
        · rw [hvert _ (by omega)]
          refine Nat.le_trans (Nat.le_of_eq ?_) hcount
          apply List.countP_congr
          intro w hw
          rw [h.filtered_eq hlists hidx h₂.ordered.toArranged (fun i hi => hvert i (by omega)) hw]
        · exact hcount₂ i (by omega) hik
    · -- `idx` has reached the start of the first large bucket
      refine ⟨idx, s, ?_, Nat.le_refl _, hidx, h, hextra, by omega, fun _ _ => rfl, by omega⟩
      simp [kcoreLoop, hstop, hlt]

omit hlists in
/-- Without the entry `bin[max_kcore + 1]` the loop does not even start. -/
theorem kcoreLoop_of_short (lists : Nat → List (List Nat)) (hshort : s.bin.length ≤ maxKcore + 1)
    (fuel idx : Nat) : kcoreLoop lists maxKcore fuel idx s = none := by
  have hnone : s.bin[maxKcore + 1]? = none := List.getElem?_eq_none hshort
  cases fuel with
  | zero => rfl
  | succ fuel => simp [kcoreLoop, hnone]

omit hlists in
theorem remainingLoop_run (lists : Nat → List (List Nat)) (idx n : Nat)
    (hsize : s.Sized (vertexSize + 1) top)
    (hle : idx + n ≤ vertexSize + 1) :
    remainingLoop lists s n idx = some ((List.range' idx n).map fun i =>
      ⟨false, s.view.vert i, (lists (s.view.vert i)).map (unfiltered s.filtered)⟩) := by
  induction n generalizing idx with
  | zero => rfl
  | succ n ih =>
    have hvert : s.vert[idx]? = some (s.view.vert idx) :=
      getElem?_eq_getD (by rw [hsize.vert]; omega)
    have hrest := ih (idx + 1) (by omega)
    simp only [remainingLoop, hvert, Option.bind_eq_bind, Option.bind_some, hrest,
      List.range'_succ, List.map_cons]
    rfl

end Loops

/-! ## Section 5: The initial arrays -/

/-- The degree of a vertex: the total length of its lists. -/
def degree (lists : Nat → List (List Nat)) (v : Nat) : Nat := (lists v).flatten.length

/-- What `std::sort` guarantees: the ids `1 .. vertexSize` by ascending degree. -/
structure SortedOrder (vertexSize : Nat) (lists : Nat → List (List Nat)) (order : List Nat) :
    Prop where
  perm : order.Perm (List.range' 1 vertexSize)
  sorted : order.Pairwise fun v w => degree lists v ≤ degree lists w

/-- The degree occurs; the unused vertex 0 has degree 0. -/
def Occurs (vertexSize : Nat) (lists : Nat → List (List Nat)) (d : Nat) : Prop :=
  ∃ v, v ≤ vertexSize ∧ degree lists v = d

/-- The number of vertices, vertex 0 included, of degree below `d`. -/
def degreeBelow (vertexSize : Nat) (lists : Nat → List (List Nat)) (d : Nat) : Nat :=
  ((Finset.range (vertexSize + 1)).filter fun v => degree lists v < d).card

section Init

variable {vertexSize : Nat} {lists : Nat → List (List Nat)} {order : List Nat}

theorem getD_initDegrees (hlists : Peelable vertexSize lists) {v : Nat} (hv : v ≤ vertexSize) :
    (initDegrees vertexSize lists).getD v 0 = degree lists v := by
  cases v with
  | zero => simp [initDegrees, degree, hlists.zero]
  | succ v =>
    have hlt : v < vertexSize := hv
    simp [initDegrees, degree, List.getD_eq_getElem?_getD, hlt, Nat.add_comm 1 v]

theorem length_initDegrees : (initDegrees vertexSize lists).length = vertexSize + 1 := by
  simp [initDegrees]

theorem le_foldl_max (l : List Nat) (a : Nat) : a ≤ l.foldl max a ∧ ∀ x ∈ l, x ≤ l.foldl max a := by
  induction l generalizing a with
  | nil => simp
  | cons y l ih =>
    obtain ⟨hle, hmem⟩ := ih (max a y)
    simp only [List.foldl_cons, List.mem_cons]
    refine ⟨Nat.le_trans (Nat.le_max_left _ _) hle, ?_⟩
    rintro x (rfl | hx)
    · exact Nat.le_trans (Nat.le_max_right _ _) hle
    · exact hmem x hx

theorem foldl_max_mem (l : List Nat) (a : Nat) : l.foldl max a = a ∨ l.foldl max a ∈ l := by
  induction l generalizing a with
  | nil => simp
  | cons y l ih =>
    simp only [List.foldl_cons, List.mem_cons]
    rcases ih (max a y) with h | h
    · rcases Nat.le_total a y with hle | hle
      · exact Or.inr (Or.inl (by rw [h]; exact Nat.max_eq_right hle))
      · exact Or.inl (by rw [h]; exact Nat.max_eq_left hle)
    · exact Or.inr (Or.inr h)

theorem degree_le_maxDegree (hlists : Peelable vertexSize lists) {v : Nat} (hv : v ≤ vertexSize) :
    degree lists v ≤ maxDegree vertexSize lists := by
  have hlt : v < (initDegrees vertexSize lists).length := by rw [length_initDegrees]; omega
  rw [← getD_initDegrees hlists hv, List.getD_eq_getElem _ _ hlt]
  exact (le_foldl_max _ 0).2 _ (List.getElem_mem hlt)

theorem occurs_maxDegree (hlists : Peelable vertexSize lists) :
    Occurs vertexSize lists (maxDegree vertexSize lists) := by
  rcases foldl_max_mem (initDegrees vertexSize lists) 0 with h | h
  · refine ⟨0, by omega, ?_⟩
    rw [maxDegree, h, degree, hlists.zero]
    rfl
  · obtain ⟨v, hv, heq⟩ := List.mem_iff_getElem.mp h
    rw [length_initDegrees] at hv
    refine ⟨v, by omega, ?_⟩
    rw [← getD_initDegrees hlists (by omega), List.getD_eq_getElem _ _
      (by rw [length_initDegrees]; exact hv), heq]
    rfl

/-- `pos` after the loop `pos[vert[i]] = i`. -/
theorem initPos_spec (vs : List Nat) (i : Nat) (pos : List Nat) (hnodup : vs.Nodup)
    (hlt : ∀ v ∈ vs, v < pos.length) :
    (initPos vs i pos).length = pos.length ∧
    (∀ j (hj : j < vs.length), (initPos vs i pos).getD vs[j] 0 = i + j) ∧
    ∀ v, v ∉ vs → (initPos vs i pos).getD v 0 = pos.getD v 0 := by
  induction vs generalizing i pos with
  | nil => simp [initPos]
  | cons v vs ih =>
    obtain ⟨hnot, hnodup'⟩ := List.nodup_cons.mp hnodup
    obtain ⟨hlen, hat, hother⟩ := ih (i + 1) (pos.set v i) hnodup' (by
      intro w hw
      rw [List.length_set]
      exact hlt w (by simp [hw]))
    rw [initPos]
    refine ⟨by rw [hlen, List.length_set], ?_, ?_⟩
    · intro j hj
      cases j with
      | zero =>
        rw [List.getElem_cons_zero, hother v hnot, getD_set _ (hlt v (by simp)), if_pos rfl]
        rfl
      | succ j =>
        rw [List.getElem_cons_succ, hat j (by simpa using hj)]
        omega
    · intro w hw
      rw [List.mem_cons, not_or] at hw
      rw [hother w hw.2, getD_set _ (hlt v (by simp)), if_neg hw.1]

theorem length_initBin {degrees : List Nat} (vs : List Nat) (i j : Nat) (bin : List Nat) :
    (initBin degrees vs i j bin).length = bin.length := by
  induction vs generalizing i j bin with
  | nil => rfl
  | cons v vs ih =>
    rw [initBin]
    split
    · rw [ih, List.length_set]
    · exact ih (i + 1) j bin

/-- A degree that no vertex opens keeps its entry. -/
theorem initBin_of_not_occurs {degrees : List Nat} {d : Nat} (vs : List Nat) (i j : Nat)
    (bin : List Nat) (hlt : ∀ v ∈ vs, degrees.getD v 0 < bin.length)
    (hnot : d ≤ j ∨ ¬ ∃ v ∈ vs, degrees.getD v 0 = d) :
    (initBin degrees vs i j bin).getD d 0 = bin.getD d 0 := by
  induction vs generalizing i j bin with
  | nil => rfl
  | cons v vs ih =>
    have hrest : (¬ ∃ w ∈ v :: vs, degrees.getD w 0 = d) → ¬ ∃ w ∈ vs, degrees.getD w 0 = d :=
      fun hnone ⟨w, hw, hwd⟩ => hnone ⟨w, by simp [hw], hwd⟩
    rw [initBin]
    split
    next hgt =>
      have hd : d ≠ degrees.getD v 0 := by
        intro heq
        rcases hnot with hle | hnone
        · omega
        · exact hnone ⟨v, by simp, heq.symm⟩
      rw [ih, getD_set _ (hlt v (by simp)), if_neg hd]
      · intro w hw
        rw [List.length_set]
        exact hlt w (by simp [hw])
      · exact hnot.imp (fun hle => by omega) hrest
    next =>
      exact ih _ _ _ (fun w hw => hlt w (by simp [hw])) (hnot.imp_right hrest)

/-- A degree above `j` that occurs gets the number of the vertices of smaller degree. -/
theorem initBin_of_occurs {degrees : List Nat} {d : Nat} (vs : List Nat) (i j : Nat)
    (bin : List Nat) (hsorted : vs.Pairwise fun v w => degrees.getD v 0 ≤ degrees.getD w 0)
    (hlt : ∀ v ∈ vs, degrees.getD v 0 < bin.length) (hjd : j < d)
    (hocc : ∃ v ∈ vs, degrees.getD v 0 = d) :
    (initBin degrees vs i j bin).getD d 0 = i + vs.countP fun v => degrees.getD v 0 < d := by
  induction vs generalizing i j bin with
  | nil => simp at hocc
  | cons v vs ih =>
    obtain ⟨hhead, hsorted'⟩ := List.pairwise_cons.mp hsorted
    by_cases hd : degrees.getD v 0 = d
    · -- the head opens this bucket, and nothing in front of it is smaller
      have hzero : (v :: vs).countP (fun w => decide (degrees.getD w 0 < d)) = 0 := by
        rw [List.countP_eq_zero]
        intro w hw
        simp only [decide_eq_true_eq, Nat.not_lt]
        rcases List.mem_cons.mp hw with rfl | hw
        · exact Nat.le_of_eq hd.symm
        · exact hd ▸ hhead w hw
      have hset : ∀ w ∈ vs, degrees.getD w 0 < (bin.set (degrees.getD v 0) i).length := by
        intro w hw
        rw [List.length_set]
        exact hlt w (by simp [hw])
      rw [initBin, if_pos (by omega), initBin_of_not_occurs _ _ _ _ hset (Or.inl (by omega)),
        getD_set _ (hlt v (by simp)), if_pos hd.symm, hzero, Nat.add_zero]
    · -- the head is smaller, and counts
      obtain ⟨w, hw, hwd⟩ := hocc
      have hw' : w ∈ vs := by
        rcases List.mem_cons.mp hw with rfl | hw
        · exact absurd hwd hd
        · exact hw
      have hvd : degrees.getD v 0 < d := by
        have := hhead w hw'
        omega
      have hstart : i + 1 + vs.countP (fun w => decide (degrees.getD w 0 < d)) =
          i + (v :: vs).countP fun w => degrees.getD w 0 < d := by
        simp only [List.countP_cons, hvd, decide_true, if_true]
        omega
      rw [initBin, ← hstart]
      split
      · apply ih _ _ _ hsorted' _ hvd ⟨w, hw', hwd⟩
        intro x hx
        rw [List.length_set]
        exact hlt x (by simp [hx])
      · exact ih _ _ _ hsorted' (fun x hx => hlt x (by simp [hx])) hjd ⟨w, hw', hwd⟩

open Classical in
/-- The bucket starts that the gap loop leaves. A run of missing degrees gets the
    start of the bucket in front of it plus one, whatever the size of that bucket. -/
noncomputable def filledStart (vertexSize : Nat) (lists : Nat → List (List Nat)) : Nat → Nat
  | 0 => 0
  | d + 1 =>
    if Occurs vertexSize lists (d + 1) then degreeBelow vertexSize lists (d + 1)
    else if Occurs vertexSize lists d then filledStart vertexSize lists d + 1
    else filledStart vertexSize lists d

theorem filledStart_of_occurs {d : Nat} (h : Occurs vertexSize lists d) :
    filledStart vertexSize lists d = degreeBelow vertexSize lists d := by
  cases d with
  | zero => simp [filledStart, degreeBelow]
  | succ d => rw [filledStart, if_pos h]

theorem occurs_zero (hlists : Peelable vertexSize lists) : Occurs vertexSize lists 0 :=
  ⟨0, by omega, by rw [degree, hlists.zero]; rfl⟩

/-- A missing degree takes its start from the next occurring degree below it. -/
theorem filledStart_of_not_occurs (hlists : Peelable vertexSize lists) {d : Nat}
    (h : ¬ Occurs vertexSize lists d) :
    ∃ b, b < d ∧ Occurs vertexSize lists b ∧
      (∀ e, b < e → e ≤ d → ¬ Occurs vertexSize lists e) ∧
      filledStart vertexSize lists d = degreeBelow vertexSize lists b + 1 := by
  induction d with
  | zero => exact absurd (occurs_zero hlists) h
  | succ d ih =>
    by_cases hd : Occurs vertexSize lists d
    · refine ⟨d, by omega, hd, ?_, ?_⟩
      · intro e h₁ h₂
        rwa [show e = d + 1 by omega]
      · rw [filledStart, if_neg h, if_pos hd, filledStart_of_occurs hd]
    · obtain ⟨b, hb, hocc, hgap, heq⟩ := ih hd
      refine ⟨b, by omega, hocc, ?_, ?_⟩
      · intro e h₁ h₂
        rcases Nat.lt_or_ge d e with hlt | hge
        · rwa [show e = d + 1 by omega]
        · exact hgap e h₁ hge
      · rw [filledStart, if_neg h, if_neg hd, heq]

/-- `bin` while the gap loop runs: filled in front of `j`, zero at the missing
    degrees from `j` on. -/
structure Filling (vertexSize : Nat) (lists : Nat → List (List Nat)) (j : Nat)
    (bin : List Nat) : Prop where
  length : bin.length = maxDegree vertexSize lists + 1
  filled : ∀ d, d < j → bin.getD d 0 = filledStart vertexSize lists d
  raw : ∀ d, j ≤ d → Occurs vertexSize lists d → bin.getD d 0 = degreeBelow vertexSize lists d
  zero : ∀ d, j ≤ d → ¬ Occurs vertexSize lists d → bin.getD d 0 = 0

theorem degreeBelow_pos (hlists : Peelable vertexSize lists) {d : Nat} (hd : 1 ≤ d) :
    0 < degreeBelow vertexSize lists d := by
  have hzero : degree lists 0 < d := by
    rw [degree, hlists.zero]
    exact hd
  exact Finset.card_pos.mpr ⟨0, by simp [hzero]⟩

theorem Filling.succ {j : Nat} {bin : List Nat} (h : Filling vertexSize lists j bin)
    (hocc : Occurs vertexSize lists j) : Filling vertexSize lists (j + 1) bin := by
  refine ⟨h.length, ?_, fun d hd => h.raw d (by omega), fun d hd => h.zero d (by omega)⟩
  intro d hd
  rcases Nat.lt_or_ge d j with hlt | hge
  · exact h.filled d hlt
  · have heq : d = j := by omega
    rw [heq, h.raw j (Nat.le_refl _) hocc, filledStart_of_occurs hocc]

theorem Filling.set {j start : Nat} {bin : List Nat} (h : Filling vertexSize lists j bin)
    (hj : j ≤ maxDegree vertexSize lists)
    (hstart : start = filledStart vertexSize lists j) :
    Filling vertexSize lists (j + 1) (bin.set j start) := by
  have hlt : j < bin.length := by rw [h.length]; omega
  refine ⟨by rw [List.length_set, h.length], ?_, ?_, ?_⟩
  · intro d hd
    rw [getD_set _ hlt]
    by_cases hdj : d = j
    · rw [if_pos hdj, hdj, hstart]
    · rw [if_neg hdj]
      exact h.filled d (by omega)
  · intro d hd hocc
    rw [getD_set _ hlt, if_neg (by omega)]
    exact h.raw d (by omega) hocc
  · intro d hd hocc
    rw [getD_set _ hlt, if_neg (by omega)]
    exact h.zero d (by omega) hocc

section Fill

variable (hlists : Peelable vertexSize lists)
include hlists

/-- The start read at `j` tells whether the degree occurs. -/
theorem Filling.read {j : Nat} {bin : List Nat} (h : Filling vertexSize lists j bin)
    (hpos : 1 ≤ j) (hj : j ≤ maxDegree vertexSize lists) :
    bin[j]? = some (bin.getD j 0) ∧ (bin.getD j 0 = 0 ↔ ¬ Occurs vertexSize lists j) := by
  refine ⟨getElem?_eq_getD (by rw [h.length]; omega), ?_⟩
  by_cases hocc : Occurs vertexSize lists j
  · have hgt := degreeBelow_pos hlists hpos
    rw [h.raw j (Nat.le_refl _) hocc]
    exact iff_of_false (by omega) (not_not.mpr hocc)
  · rw [h.zero j (Nat.le_refl _) hocc]
    exact iff_of_true rfl hocc

theorem fillRun_spec (fuel : Nat) {j : Nat} {bin : List Nat} (h : Filling vertexSize lists j bin)
    (hpos : 1 ≤ j) (hprev : ¬ Occurs vertexSize lists (j - 1))
    (hj : j ≤ maxDegree vertexSize lists) (hfuel : maxDegree vertexSize lists < fuel + j) :
    ∃ j' bin', fillRun fuel j bin = some (j', bin') ∧ j ≤ j' ∧
      j' ≤ maxDegree vertexSize lists ∧ Occurs vertexSize lists j' ∧
      Filling vertexSize lists j' bin' := by
  induction fuel generalizing j bin with
  | zero => omega
  | succ fuel ih =>
    obtain ⟨hread, hzero⟩ := h.read hlists hpos hj
    by_cases hocc : Occurs vertexSize lists j
    · refine ⟨j, bin, ?_, Nat.le_refl _, hj, hocc, h⟩
      have hne : bin.getD j 0 ≠ 0 := fun heq => (hzero.mp heq) hocc
      simp only [fillRun, hread, Option.bind_eq_bind, Option.bind_some, if_neg hne]
      rfl
    · have heq := hzero.mpr hocc
      have hlt : j < maxDegree vertexSize lists := by
        rcases Nat.eq_or_lt_of_le hj with rfl | hlt
        · exact absurd (occurs_maxDegree hlists) hocc
        · exact hlt
      have hprev' : bin[j - 1]? = some (bin.getD (j - 1) 0) :=
        getElem?_eq_getD (by rw [h.length]; omega)
      have hstart : bin.getD (j - 1) 0 = filledStart vertexSize lists j := by
        obtain ⟨i, rfl⟩ : ∃ i, j = i + 1 := ⟨j - 1, by omega⟩
        rw [Nat.add_sub_cancel] at hprev ⊢
        rw [h.filled i (by omega), filledStart, if_neg hocc, if_neg hprev]
      obtain ⟨j', bin', heq', hle, hj', hocc', hfill⟩ := ih (h.set hj hstart) (by omega)
        (by simpa using hocc) (by omega) (by omega)
      refine ⟨j', bin', ?_, by omega, hj', hocc', hfill⟩
      simp only [fillRun, hread, hprev', Option.bind_eq_bind, Option.bind_some, if_pos heq, heq']

theorem fillGaps_spec (fuel : Nat) {j : Nat} {bin : List Nat} (h : Filling vertexSize lists j bin)
    (hpos : 1 ≤ j) (hprev : Occurs vertexSize lists (j - 1))
    (hj : j ≤ maxDegree vertexSize lists + 1)
    (hfuel : maxDegree vertexSize lists + 1 < fuel + j) :
    ∃ bin', fillGaps (maxDegree vertexSize lists) fuel j bin = some bin' ∧
      Filling vertexSize lists (maxDegree vertexSize lists + 1) bin' := by
  induction fuel generalizing j bin with
  | zero => omega
  | succ fuel ih =>
    by_cases hle : j ≤ maxDegree vertexSize lists
    · obtain ⟨hread, hzero⟩ := h.read hlists hpos hle
      by_cases hocc : Occurs vertexSize lists j
      · have hne : bin.getD j 0 ≠ 0 := fun heq => (hzero.mp heq) hocc
        obtain ⟨bin', heq', hfill⟩ := ih (h.succ hocc) (by omega) (by simpa using hocc) (by omega)
          (by omega)
        refine ⟨bin', ?_, hfill⟩
        simp only [fillGaps, if_pos hle, hread, Option.bind_eq_bind, Option.bind_some, if_neg hne,
          heq']
      · -- the first degree of a gap gets the start in front of it plus one
        have heq := hzero.mpr hocc
        have hlt : j < maxDegree vertexSize lists := by
          rcases Nat.eq_or_lt_of_le hle with rfl | hlt
          · exact absurd (occurs_maxDegree hlists) hocc
          · exact hlt
        have hprev' : bin[j - 1]? = some (bin.getD (j - 1) 0) :=
          getElem?_eq_getD (by rw [h.length]; omega)
        have hstart : bin.getD (j - 1) 0 + 1 = filledStart vertexSize lists j := by
          obtain ⟨i, rfl⟩ : ∃ i, j = i + 1 := ⟨j - 1, by omega⟩
          rw [Nat.add_sub_cancel] at hprev ⊢
          rw [h.filled i (by omega), filledStart, if_neg hocc, if_pos hprev]
        obtain ⟨j', bin', heq', hle', hj', hocc', hfill'⟩ := fillRun_spec hlists fuel
          (h.set hle hstart) (by omega) (by simpa using hocc) (by omega) (by omega)
        obtain ⟨bin'', heq'', hfill''⟩ := ih (hfill'.succ hocc') (by omega) (by simpa using hocc')
          (by omega) (by omega)
        refine ⟨bin'', ?_, hfill''⟩
        simp only [fillGaps, if_pos hle, hread, hprev', Option.bind_eq_bind, Option.bind_some,
          if_pos heq, heq', heq'']
    · refine ⟨bin, ?_, ?_⟩
      · simp only [fillGaps, if_neg hle]
        rfl
      · rwa [show maxDegree vertexSize lists + 1 = j by omega]

end Fill

section Arrays

variable (hlists : Peelable vertexSize lists) (horder : SortedOrder vertexSize lists order)
include horder

theorem SortedOrder.mem_iff {v : Nat} : v ∈ order ↔ 1 ≤ v ∧ v ≤ vertexSize := by
  rw [horder.perm.mem_iff, List.mem_range'_1]
  omega

theorem SortedOrder.length : order.length = vertexSize := by
  rw [horder.perm.length_eq, List.length_range']

theorem SortedOrder.nodup : order.Nodup :=
  horder.perm.nodup_iff.mpr (List.nodup_range' 1)

include hlists

theorem one_add_countP {d : Nat} (hd : 1 ≤ d) :
    1 + order.countP (fun v => decide (degree lists v < d)) = degreeBelow vertexSize lists d := by
  have hperm : (0 :: order).Perm (List.range (vertexSize + 1)) := by
    rw [List.range_eq_range', List.range'_succ]
    exact horder.perm.cons 0
  have hfin : (Finset.range (vertexSize + 1)).filter (fun v => degree lists v < d) =
      ((List.range (vertexSize + 1)).filter fun v => decide (degree lists v < d)).toFinset := by
    ext v
    simp
  have hzero : degree lists 0 < d := by
    rw [degree, hlists.zero]
    exact hd
  rw [degreeBelow, hfin, List.toFinset_card_of_nodup (List.nodup_range.filter _),
    ← List.countP_eq_length_filter, ← hperm.countP_eq, List.countP_cons]
  simp only [hzero, decide_true, if_true]
  omega

/-- The bucket starts before the gaps are filled. -/
theorem filling_initBin : Filling vertexSize lists 1 (initBin (initDegrees vertexSize lists) order
    1 0 (List.replicate (maxDegree vertexSize lists + 1) 0)) := by
  have hdeg : ∀ v ∈ order, (initDegrees vertexSize lists).getD v 0 = degree lists v :=
    fun v hv => getD_initDegrees hlists (horder.mem_iff.mp hv).2
  have hsorted : order.Pairwise fun v w =>
      (initDegrees vertexSize lists).getD v 0 ≤ (initDegrees vertexSize lists).getD w 0 := by
    apply horder.sorted.imp_of_mem
    intro v w hv hw hle
    rwa [hdeg v hv, hdeg w hw]
  have hlt : ∀ v ∈ order, (initDegrees vertexSize lists).getD v 0 <
      (List.replicate (maxDegree vertexSize lists + 1) 0).length := by
    intro v hv
    have hle := degree_le_maxDegree hlists (horder.mem_iff.mp hv).2
    rw [hdeg v hv, List.length_replicate]
    omega
  have hrep : ∀ d, (List.replicate (maxDegree vertexSize lists + 1) 0).getD d 0 = 0 := by
    intro d
    by_cases hd : d < maxDegree vertexSize lists + 1
    · simp [List.getD_eq_getElem?_getD, hd]
    · simp [List.getD_eq_getElem?_getD, hd]
  refine ⟨by rw [length_initBin, List.length_replicate], ?_, ?_, ?_⟩
  · intro d hd
    have hzero : d = 0 := by omega
    rw [hzero, initBin_of_not_occurs _ _ _ _ hlt (Or.inl (Nat.le_refl _)), hrep]
    rfl
  · rintro d hd ⟨v, hv, hvd⟩
    have hv1 : 1 ≤ v := by
      by_contra hnot
      have hzero : v = 0 := by omega
      rw [hzero, degree, hlists.zero, List.length_nil] at hvd
      omega
    -- vertex 0 is not in `order`: it is the one that stands in front of it
    have hmem : v ∈ order := horder.mem_iff.mpr ⟨hv1, hv⟩
    rw [initBin_of_occurs _ _ _ _ hsorted hlt (by omega) ⟨v, hmem, by rw [hdeg v hmem, hvd]⟩,
      ← one_add_countP hlists horder hd]
    congr 1
    apply List.countP_congr
    intro w hw
    rw [hdeg w hw]
  · intro d hd hnot
    rw [initBin_of_not_occurs _ _ _ _ hlt, hrep]
    right
    rintro ⟨v, hv, hvd⟩
    rw [hdeg v hv] at hvd
    exact hnot ⟨v, (horder.mem_iff.mp hv).2, hvd⟩

/-- `pos` as it is filled. -/
def startPos (vertexSize : Nat) (order : List Nat) : List Nat :=
  initPos order 1 (List.replicate (vertexSize + 1) 0)

omit hlists in
/-- Vertex 0 stands in front and the others follow in the given order. -/
theorem startPos_spec : (startPos vertexSize order).length = vertexSize + 1 ∧
    (startPos vertexSize order).getD 0 0 = 0 ∧
    ∀ j (hj : j < order.length), (startPos vertexSize order).getD order[j] 0 = j + 1 := by
  obtain ⟨hlen, hat, hother⟩ := initPos_spec order 1 (List.replicate (vertexSize + 1) 0)
    horder.nodup (by
      intro v hv
      have := (horder.mem_iff.mp hv).2
      rw [List.length_replicate]
      omega)
  rw [List.length_replicate] at hlen
  refine ⟨hlen, ?_, fun j hj => (hat j hj).trans (Nat.add_comm 1 j)⟩
  rw [startPos, hother 0 (fun h => by have := (horder.mem_iff.mp h).1; omega)]
  simp

omit hlists in
/-- `pos` and `vert` are inverse to each other. -/
theorem startPos_inverse :
    (∀ v, v < vertexSize + 1 → (startPos vertexSize order).getD v 0 < vertexSize + 1) ∧
    (∀ i, i < vertexSize + 1 → (0 :: order).getD i 0 < vertexSize + 1) ∧
    (∀ v, v < vertexSize + 1 →
      (0 :: order).getD ((startPos vertexSize order).getD v 0) 0 = v) ∧
    ∀ i, i < vertexSize + 1 → (startPos vertexSize order).getD ((0 :: order).getD i 0) 0 = i := by
  obtain ⟨-, hzero, hat⟩ := startPos_spec horder
  have holen := horder.length
  have hmem : ∀ {v}, v ∈ order ↔ 1 ≤ v ∧ v ≤ vertexSize := horder.mem_iff
  -- a vertex other than 0 is an entry of the order
  have hentry : ∀ v, v < vertexSize + 1 → v ≠ 0 → ∃ j, ∃ hj : j < order.length, order[j] = v :=
    fun v hv hne => List.mem_iff_getElem.mp (hmem.mpr ⟨by omega, by omega⟩)
  refine ⟨?_, ?_, ?_, ?_⟩
  · intro v hv
    by_cases hv0 : v = 0
    · rw [hv0, hzero]
      omega
    · obtain ⟨j, hj, rfl⟩ := hentry v hv hv0
      rw [hat j hj]
      omega
  · intro i hi
    cases i with
    | zero => simp
    | succ i =>
      have hlt : i < order.length := by omega
      have := (hmem.mp (List.getElem_mem hlt)).2
      rw [List.getD_cons_succ, List.getD_eq_getElem _ _ hlt]
      omega
  · intro v hv
    by_cases hv0 : v = 0
    · rw [hv0, hzero]
      rfl
    · obtain ⟨j, hj, rfl⟩ := hentry v hv hv0
      rw [hat j hj, List.getD_cons_succ, List.getD_eq_getElem _ _ hj]
  · intro i hi
    cases i with
    | zero => exact hzero
    | succ i =>
      have hlt : i < order.length := by omega
      rw [List.getD_cons_succ, List.getD_eq_getElem _ _ hlt, hat i hlt]

/-- The vertices stand in the order of their degrees. -/
theorem initDegrees_vert_mono {i j : Nat} (hij : i ≤ j) (hj : j < vertexSize + 1) :
    (initDegrees vertexSize lists).getD ((0 :: order).getD i 0) 0 ≤
      (initDegrees vertexSize lists).getD ((0 :: order).getD j 0) 0 := by
  have holen := horder.length
  cases i with
  | zero =>
    rw [List.getD_cons_zero, getD_initDegrees hlists (Nat.zero_le _), degree, hlists.zero]
    exact Nat.zero_le _
  | succ i =>
    obtain ⟨j, rfl⟩ : ∃ k, j = k + 1 := ⟨j - 1, by omega⟩
    have hi' : i < order.length := by omega
    have hj' : j < order.length := by omega
    rw [List.getD_cons_succ, List.getD_cons_succ, List.getD_eq_getElem _ _ hi',
      List.getD_eq_getElem _ _ hj',
      getD_initDegrees hlists (horder.mem_iff.mp (List.getElem_mem hi')).2,
      getD_initDegrees hlists (horder.mem_iff.mp (List.getElem_mem hj')).2]
    rcases Nat.eq_or_lt_of_le hij with heq | hlt
    · obtain rfl : i = j := by omega
      exact Nat.le_refl _
    · exact List.pairwise_iff_getElem.mp horder.sorted i j hi' hj' (by omega)

/-- The arrays with which the k-core loop starts. -/
theorem initArrays_spec :
    ∃ s, initArrays vertexSize lists order = some s ∧
      s.Sized (vertexSize + 1) (maxDegree vertexSize lists) ∧
      BucketOrder.Arranged s.view (vertexSize + 1) ∧
      (∀ v, v ≤ vertexSize → s.view.key v = degree lists v) ∧
      (∀ i j, i ≤ j → j < vertexSize + 1 → s.view.key (s.view.vert i) ≤
        s.view.key (s.view.vert j)) ∧
      (∀ d, d ≤ maxDegree vertexSize lists → s.view.bin d = filledStart vertexSize lists d) ∧
      ∀ v, s.filtered.getD v false = false := by
  obtain ⟨bin, heq, hfill⟩ := fillGaps_spec hlists (maxDegree vertexSize lists + 1)
    (filling_initBin hlists horder) (Nat.le_refl 1) (occurs_zero hlists) (by omega) (by omega)
  obtain ⟨hlen, -, -⟩ := startPos_spec horder
  obtain ⟨hposlt, hvertlt, hvertpos, hposvert⟩ := startPos_inverse horder
  refine ⟨{
    degrees := initDegrees vertexSize lists
    pos := startPos vertexSize order
    vert := 0 :: order
    bin := bin
    filtered := List.replicate (vertexSize + 1) false }, ?_, ?_, ?_, ?_, ?_, ?_, ?_⟩
  · simp only [initArrays, heq, Option.bind_eq_bind, Option.bind_some]
    rfl
  · exact ⟨length_initDegrees, hlen, by simp [horder.length], hfill.length, by simp⟩
  · exact ⟨hposlt, hvertlt, hvertpos, hposvert⟩
  · exact fun v hv => getD_initDegrees hlists hv
  · exact fun i j hij hj => initDegrees_vert_mono hlists horder hij hj
  · exact fun d hd => hfill.filled d (by omega)
  · intro v
    by_cases hv : v < vertexSize + 1
    · simp [List.getD_eq_getElem?_getD, hv]
    · simp [List.getD_eq_getElem?_getD, hv]

end Arrays

end Init

/-! ## Section 6: The whole build -/

/-- The gap loop does no harm: a missing degree `d` follows a bucket `b` of one
    vertex, or only vertices of `core` and their like stand from that bucket on.
    (The bucket of degree 0 also holds the unused vertex 0.) -/
def GapsClosed (vertexSize : Nat) (lists : Nat → List (List Nat)) (core : Finset Nat) : Prop :=
  ∀ b d, b < d → 2 ≤ d → d ≤ maxDegree vertexSize lists → Occurs vertexSize lists b →
    (∀ e, b < e → e ≤ d → ¬ Occurs vertexSize lists e) →
    ((Finset.range (vertexSize + 1)).filter fun v => degree lists v = b).card ≤ 1 ∨
    ((Finset.range (vertexSize + 1)).filter fun v => b ≤ degree lists v).card ≤ core.card

section Build

variable {vertexSize maxKcore : Nat} {lists : Nat → List (List Nat)} {order : List Nat}
variable {core : Finset Nat}

/-- The vertices below `d` are those below `b` and those of degree `b`, when no
    degree in between occurs. -/
theorem degreeBelow_of_gap {b d : Nat} (hbd : b < d)
    (hgap : ∀ e, b < e → e < d → ¬ Occurs vertexSize lists e) :
    degreeBelow vertexSize lists d = degreeBelow vertexSize lists b +
      ((Finset.range (vertexSize + 1)).filter fun v => degree lists v = b).card := by
  unfold degreeBelow
  rw [← Finset.card_union_of_disjoint]
  · congr 1
    ext v
    simp only [Finset.mem_filter, Finset.mem_range, Finset.mem_union]
    constructor
    · rintro ⟨hv, hlt⟩
      have hnot : ¬ (b < degree lists v) := fun hlt' =>
        hgap _ hlt' hlt ⟨v, by omega, rfl⟩
      omega
    · omega
  · rw [Finset.disjoint_left]
    intro v hv hv'
    simp only [Finset.mem_filter] at hv hv'
    omega

theorem degreeBelow_add_card (b : Nat) :
    degreeBelow vertexSize lists b +
      ((Finset.range (vertexSize + 1)).filter fun v => b ≤ degree lists v).card =
      vertexSize + 1 := by
  have h := Finset.card_filter_add_card_filter_not (s := Finset.range (vertexSize + 1))
    (fun v => degree lists v < b)
  simp only [Nat.not_lt] at h
  rw [Finset.card_range] at h
  exact h

theorem below_eq_degreeBelow {s : Arrays}
    (hkey : ∀ v, v ≤ vertexSize → s.view.key v = degree lists v) (d : Nat) :
    s.view.below (vertexSize + 1) d = degreeBelow vertexSize lists d := by
  unfold BucketOrder.Buckets.below degreeBelow
  congr 1
  apply Finset.filter_congr
  intro v hv
  rw [Finset.mem_range] at hv
  rw [hkey v (by omega)]

variable (hlists : Peelable vertexSize lists) (horder : SortedOrder vertexSize lists order)
include hlists

/-- The filled starts never lie behind the true ones. -/
theorem filledStart_le (d : Nat) :
    filledStart vertexSize lists d ≤ degreeBelow vertexSize lists d := by
  by_cases hocc : Occurs vertexSize lists d
  · exact Nat.le_of_eq (filledStart_of_occurs hocc)
  · obtain ⟨b, hb, ⟨v, hv, hvb⟩, hgap, heq⟩ := filledStart_of_not_occurs hlists hocc
    have hsplit := degreeBelow_of_gap hb fun e h₁ h₂ => hgap e h₁ (by omega)
    have hpos : 0 < ((Finset.range (vertexSize + 1)).filter fun v => degree lists v = b).card :=
      Finset.card_pos.mpr ⟨v, by simp only [Finset.mem_filter, Finset.mem_range]; omega⟩
    omega

/-- In front of the core they are the true ones. -/
theorem filledStart_eq (hgaps : GapsClosed vertexSize lists core) {d : Nat} (hd : 2 ≤ d)
    (hle : d ≤ maxDegree vertexSize lists)
    (hlt : filledStart vertexSize lists d + core.card < vertexSize + 2) :
    filledStart vertexSize lists d = degreeBelow vertexSize lists d := by
  by_cases hocc : Occurs vertexSize lists d
  · exact filledStart_of_occurs hocc
  · obtain ⟨b, hb, hoccb, hgap, heq⟩ := filledStart_of_not_occurs hlists hocc
    have hsplit := degreeBelow_of_gap hb fun e h₁ h₂ => hgap e h₁ (by omega)
    have hge := filledStart_le hlists d
    rcases hgaps b d hb hd hle hoccb hgap with hone | hfew
    · omega
    · have htotal : degreeBelow vertexSize lists b + _ = vertexSize + 1 := degreeBelow_add_card b
      omega

include horder

theorem peelInv_initArrays (hgaps : GapsClosed vertexSize lists core) :
    ∃ s, initArrays vertexSize lists order = some s ∧
      PeelInv lists (vertexSize + 1) (maxDegree vertexSize lists) (vertexSize + 2 - core.card) core
        s 0 := by
  obtain ⟨s, heq, hsize, harr, hkey, hsorted, hbin, hfil⟩ := initArrays_spec hlists horder
  have hbelow := below_eq_degreeBelow hkey
  have hlt : ∀ {i d}, i < vertexSize + 1 →
      (s.view.key (s.view.vert i) < d ↔ i < degreeBelow vertexSize lists d) := by
    intro i d hi
    rw [harr.key_lt_iff hsorted hi, hbelow]
  refine ⟨s, heq, hsize, ⟨harr, ?_, ?_, ?_, ?_⟩, ?_, ?_, fun _ _ => Nat.zero_le _⟩
  · intro v hv
    rw [hkey v (by omega)]
    exact degree_le_maxDegree hlists (by omega)
  · intro d hd
    rw [hbin d hd, hbelow]
    exact filledStart_le hlists d
  · intro d hd i hi _ hib
    rw [hbin d hd] at hib
    rw [hlt hi]
    exact Nat.lt_of_lt_of_le hib (filledStart_le hlists d)
  · intro d hlo hd hbound i hi hle
    rw [hbin d hd] at hbound hle
    -- in front of the bound the gap loop did no harm
    have hfilled := filledStart_eq hlists hgaps hlo hd (by omega)
    by_contra hnot
    have hpos : i < degreeBelow vertexSize lists d := (hlt hi).mp (Nat.lt_of_not_le hnot)
    omega
  · intro v _
    rw [hfil]
    simp
  · intro v hv _
    rw [hkey v (by omega)]
    exact List.countP_le_length

/-- The calls of the build, in the final order `vert`: the first `k` of them
    come from the k-core loop. -/
theorem peel_eq (hsize : vertexSize + 1 < 2 ^ 31)
    (hdeg : maxDegree vertexSize lists + 1 < 2 ^ 31) (hmax : maxKcore < maxDegree vertexSize lists)
    (hcore : IsCore lists (vertexSize + 1) maxKcore core)
    (hgaps : GapsClosed vertexSize lists core) (extra : Arrays → Nat → Prop) (small : Nat)
    (hinit : ∀ s, initArrays vertexSize lists order = some s → extra s 0)
    (hstep : ∀ bound, vertexSize + 2 ≤ bound + core.card → ∀ s idx s' call,
      PeelInv lists (vertexSize + 1) (maxDegree vertexSize lists) bound core s idx → extra s idx →
      idx < s.view.bin (maxKcore + 1) → peelVertex lists s idx = some (s', call) →
      extra s' (idx + 1) ∧ ((lists (s.view.vert idx)).flatten.countP fun w =>
        !s.filtered.getD w false) ≤ small) :
    ∃ s k bound, vertexSize + 2 ≤ bound + core.card ∧
      PeelInv lists (vertexSize + 1) (maxDegree vertexSize lists) bound core s k ∧ extra s k ∧
      s.view.bin (maxKcore + 1) ≤ k ∧ k ≤ vertexSize + 1 ∧
      peel vertexSize lists maxKcore order = some ((List.range (vertexSize + 1)).map fun i =>
        callAt lists s.view (decide (i < k)) (min i k) i) ∧
      ∀ i, i < k → ((lists (s.view.vert i)).flatten.countP fun w =>
        decide (i ≤ s.view.pos w)) ≤ small := by
  obtain ⟨s, heq, hinv⟩ := peelInv_initArrays hlists horder hgaps
  have hcard : core.card ≤ vertexSize + 1 := by
    have hsub : core ⊆ Finset.range (vertexSize + 1) :=
      fun v hv => Finset.mem_range.mpr (hcore.lt v hv)
    have := Finset.card_le_card hsub
    rwa [Finset.card_range] at this
  obtain ⟨k, s', hrun, -, hk, hinv', hextra, hend, -, hcount⟩ := kcoreLoop_run hlists hcore
    (by omega) hmax (hstep _ (by omega)) (vertexSize + 2) hinv (hinit s heq) (by omega) (by omega)
  have hrest := remainingLoop_run lists k (vertexSize + 1 - k) hinv'.sized
    (by omega)
  have harr := hinv'.ordered.toArranged
  refine ⟨s', k, _, by omega, hinv', hextra, hend, hk, ?_, fun i hi => hcount i (by omega) hi⟩
  have hguard : vertexSize + 1 < 2 ^ 31 ∧ maxDegree vertexSize lists + 1 < 2 ^ 31 := ⟨hsize, hdeg⟩
  simp only [peel, guard, if_pos hguard, heq, hrun, hrest, Option.bind_eq_bind, Option.bind_some,
    Option.pure_def]
  congr 1
  -- the calls of the first loop, and those of the second behind them
  rw [List.range_eq_range', show vertexSize + 1 = k + (vertexSize + 1 - k) by omega,
    ← List.range'_append_1, List.map_append, Nat.sub_zero, Nat.zero_add,
    show k + (vertexSize + 1 - k) - k = vertexSize + 1 - k by omega]
  congr 1
  · apply List.map_congr_left
    intro i hi
    rw [List.mem_range'_1] at hi
    rw [decide_eq_true (by omega : i < k), Nat.min_eq_left (by omega)]
  · apply List.map_congr_left
    intro i hi
    rw [List.mem_range'_1] at hi
    rw [decide_eq_false (by omega : ¬ i < k), Nat.min_eq_right (by omega)]
    exact hinv'.call_eq hlists hk harr (fun _ _ => rfl) false i

end Build

/-! ## Section 7: What the calls cover -/

/-- The calls in the order `vert` cover the graph. -/
theorem covering_callAt {vertexSize k small : Nat} {lists : Nat → List (List Nat)}
    {b : BucketOrder.Buckets} (harr : BucketOrder.Arranged b (vertexSize + 1))
    (hcount : ∀ i, i < k → ((lists (b.vert i)).flatten.countP fun w =>
      decide (i ≤ b.pos w)) ≤ small) :
    Covering (List.range (vertexSize + 1)) lists (fun ls => ls.flatten.length ≤ small)
      ((List.range (vertexSize + 1)).map fun i => callAt lists b (decide (i < k)) (min i k) i)
      (fun v => decide (b.pos v < k)) fun v w => decide (min (b.pos v) k ≤ b.pos w) := by
  refine ⟨?_, ?_, ?_, ?_⟩
  · -- `vert` runs through all vertices
    rw [List.map_map]
    have hnodup : ((List.range (vertexSize + 1)).map b.vert).Nodup := by
      apply List.Nodup.map_on _ List.nodup_range
      intro i hi j hj
      exact harr.vert_injective (List.mem_range.mp hi) (List.mem_range.mp hj)
    apply (List.perm_ext_iff_of_nodup hnodup List.nodup_range).mpr
    intro v
    rw [List.mem_map, List.mem_range]
    constructor
    · rintro ⟨i, hi, rfl⟩
      exact harr.vert_lt i (List.mem_range.mp hi)
    · intro hv
      exact ⟨b.pos v, List.mem_range.mpr (harr.pos_lt v hv), harr.vert_pos v hv⟩
  · intro c hc
    obtain ⟨i, hi, rfl⟩ := List.mem_map.mp hc
    have hpos := harr.pos_vert i (List.mem_range.mp hi)
    simp only [callAt, hpos]
    exact ⟨trivial, trivial⟩
  · intro c hc hfirst
    obtain ⟨i, hi, rfl⟩ := List.mem_map.mp hc
    have hik : i < k := of_decide_eq_true hfirst
    have hle := hcount i hik
    simp only [callAt, flatten_map_filter, Nat.min_eq_left (Nat.le_of_lt hik)]
    rw [← List.countP_eq_length_filter]
    exact hle
  · intro v hv w hw hne
    rw [List.mem_range] at hv hw
    have hpos : b.pos v ≠ b.pos w := by
      intro heq'
      exact hne (by rw [← harr.vert_pos v (by omega), heq', harr.vert_pos w (by omega)])
    simp only [decide_eq_true_eq, decide_eq_false_iff_not]
    omega

theorem peel_covering {vertexSize maxKcore : Nat} {lists : Nat → List (List Nat)}
    {order : List Nat} {core : Finset Nat} (hlists : Peelable vertexSize lists)
    (horder : SortedOrder vertexSize lists order) (hsize : vertexSize + 1 < 2 ^ 31)
    (hdeg : maxDegree vertexSize lists + 1 < 2 ^ 31) (hmax : maxKcore < maxDegree vertexSize lists)
    (hcore : IsCore lists (vertexSize + 1) maxKcore core)
    (hgaps : GapsClosed vertexSize lists core) :
    ∃ calls first keep, peel vertexSize lists maxKcore order = some calls ∧
      Covering (List.range (vertexSize + 1)) lists (fun ls => ls.flatten.length ≤ maxKcore)
        calls first keep := by
  obtain ⟨s, k, bound, -, hinv, -, -, -, heq, hcount⟩ := peel_eq hlists horder hsize hdeg hmax
    hcore hgaps (fun _ _ => True) maxKcore (fun _ _ => trivial)
    (fun bound hbound s idx s' call h _ hlt _ => by
      obtain ⟨-, -, -, -, hle⟩ := h.peelVertex hlists hcore hbound hmax hlt
      exact ⟨trivial, hle⟩)
  exact ⟨_, _, _, heq, covering_callAt hinv.ordered.toArranged hcount⟩

/-! ## Section 8: The conditions can be evaluated -/

instance (vertexSize : Nat) (lists : Nat → List (List Nat)) (order : List Nat) :
    Decidable (SortedOrder vertexSize lists order) :=
  decidable_of_iff (order.Perm (List.range' 1 vertexSize) ∧
      order.Pairwise fun v w => degree lists v ≤ degree lists w)
    ⟨fun h => ⟨h.1, h.2⟩, fun h => ⟨h.perm, h.sorted⟩⟩

instance (vertexSize : Nat) (lists : Nat → List (List Nat)) (d : Nat) :
    Decidable (Occurs vertexSize lists d) :=
  decidable_of_iff ((List.range (vertexSize + 1)).any (fun v => degree lists v = d) = true) (by
    simp only [Occurs, List.any_eq_true, List.mem_range, Nat.lt_succ_iff, decide_eq_true_eq])

instance (lists : Nat → List (List Nat)) (n maxKcore : Nat) (core : Finset Nat) :
    Decidable (IsCore lists n maxKcore core) :=
  decidable_of_iff ((∀ v ∈ core, v < n) ∧
      ∀ v ∈ core, maxKcore < (lists v).flatten.countP fun w => w ∈ core)
    ⟨fun h => ⟨h.1, h.2⟩, fun h => ⟨h.lt, h.count⟩⟩

instance (vertexSize : Nat) (lists : Nat → List (List Nat)) (core : Finset Nat) :
    Decidable (GapsClosed vertexSize lists core) :=
  decidable_of_iff (((List.range (maxDegree vertexSize lists + 1)).all fun d =>
      (List.range d).all fun b => decide (2 ≤ d → Occurs vertexSize lists b →
        ((List.range (d + 1)).all fun e => decide (b < e → ¬ Occurs vertexSize lists e)) = true →
        ((Finset.range (vertexSize + 1)).filter fun v => degree lists v = b).card ≤ 1 ∨
        ((Finset.range (vertexSize + 1)).filter fun v => b ≤ degree lists v).card ≤
          core.card)) = true) (by
    simp only [GapsClosed, List.all_eq_true, List.mem_range, Nat.lt_succ_iff, decide_eq_true_eq]
    constructor
    · intro h b d hbd hd hle hocc hgap
      exact h d hle b hbd hd hocc fun e he hbe => hgap e hbe he
    · intro h d hle b hbd hd hocc hgap
      exact h b d hbd hd hle hocc fun e hbe he => hgap e he hbe)

end BucketPeeling

end Vend
