import Vend.Encode.RangeEncode
import Vend.Lib.BestSearch
import Vend.Lib.WidestRun

/-! # The window of the range encoding

    `RangeEncode::EncodeVertex` scores the first and the last window outside its loop. All
    windows are runs of as many consecutive elements of the sorted ids between the bounds
    0 and `VERTEX_SIZE + 1`, and on that list the three scores are one: the last element
    less the first. The search ends at the first widest run (`firstWidest_position`), and
    the words of the record are that run (`window_eq_run`).

    `int idx` and the sum `idx + i` hold positions below `2^31` only. A list whose widest
    run reaches further is not encoded, and neither is any list when `VERTEX_SIZE + 1` is
    cut to 0 and there are no records.
-/

namespace Vend

namespace RangeEncode

open BitSetSIMD WidestRun

/-! ## Section 1: Model -/

/-- `std::sort(neighbors.begin(), neighbors.end())`. -/
def sorted (neighbors : List Nat) : List Nat := neighbors.insertionSort (· ≤ ·)

/-- `EncodeVertex(vertex_id, neighbors)` where it has a result. The vertex needs a record,
    and the sums `idx + i` of the last loop must not pass the largest `int`; in the last
    window the sum with `max_int_size_` is not computed. A list of `2^32` ids or more,
    whose size the code cuts off, is not described. -/
def encodeVertexAt (c : Config) (vertexId : Nat) (neighbors : List Nat) (encodes : Records) :
    Option Records :=
  -- a list that fits has no window, and the window at -1 no sum
  if maxIntSize c < neighbors.length ∧ ((chooseIdx c (sorted neighbors)).any fun idx =>
      decide (2 ^ 31 ≤ min (idx + maxIntSize c) neighbors.length)) = true then none
  else encodes.updateAt vertexId (encodeBits c neighbors)

/-! ## Section 2: Runs -/

/-- The ids between their two bounds. -/
def extended (c : Config) (ids : List Nat) : List Nat := 0 :: ids ++ [c.vertexSize + 1]

/-- The position of a window among the runs. -/
def position : Option Nat → Nat
  | none => 0
  | some idx => idx + 1

@[simp] theorem position_none : position none = 0 := rfl

@[simp] theorem position_some (idx : Nat) : position (some idx) = idx + 1 := rfl

theorem position_le {idx : Option Nat} {n : Nat} (hle : ∀ k, idx = some k → k ≤ n) :
    position idx ≤ n + 1 := by
  cases idx with
  | none => exact Nat.zero_le _
  | some k => exact Nat.succ_le_succ (hle k rfl)

@[simp] theorem length_extended (c : Config) (ids : List Nat) :
    (extended c ids).length = ids.length + 2 := by
  simp [extended]

theorem getD_extended (c : Config) (ids : List Nat) (j : Nat) :
    (extended c ids).getD j 0 =
      if j = 0 then 0
      else if j ≤ ids.length then ids.getD (j - 1) 0
      else if j = ids.length + 1 then c.vertexSize + 1
      else 0 := by
  unfold extended
  cases j with
  | zero => rfl
  | succ j =>
    rw [List.cons_append, List.getD_cons_succ, if_neg (Nat.succ_ne_zero j)]
    -- an id, the upper bound, or nothing
    by_cases hle : j + 1 ≤ ids.length
    · rw [if_pos hle, List.getD_append _ _ _ _ hle]
      rfl
    · rw [if_neg hle, List.getD_append_right _ _ _ _ (by omega)]
      by_cases hend : j + 1 = ids.length + 1
      · rw [if_pos hend, show j - ids.length = 0 by omega]
        rfl
      · rw [if_neg hend, List.getD_eq_default _ _ (by simp; omega)]

section

variable {c : Config} (hc : Worded c)
include hc

/-- A stored word by its place in the run. -/
theorem windowWord_eq {ids : List Nat} (hlong : maxIntSize c < ids.length) {idx : Option Nat}
    (hle : ∀ k, idx = some k → k ≤ ids.length - maxIntSize c + 1) {i : Nat}
    (hi : i < maxIntSize c) :
    windowWord c ids (i + 1) idx = (extended c ids).getD (position idx + i) 0 := by
  have hm := maxIntSize_ge hc
  have hupper := vertexIdUpper_eq hc
  rw [getD_extended]
  cases idx with
  | none =>
    rw [windowWord, position_none, Nat.zero_add]
    cases i with
    | zero => rfl
    | succ i =>
      rw [if_neg (by omega), if_neg (by omega), if_pos (by omega)]
      rfl
  | some idx =>
    have hidx := hle idx rfl
    rw [windowWord, position_some, if_neg (show ¬ idx + 1 + i = 0 by omega)]
    -- only the last word of the last window is the upper bound
    by_cases hlast : i + 1 = maxIntSize c ∧ idx = ids.length - maxIntSize c + 1
    · rw [if_pos hlast, if_neg (by omega), if_pos (by omega), hupper]
    · rw [if_neg hlast, if_pos (by omega)]
      congr 1
      omega

/-- The stored words are the run of the window. -/
theorem window_eq_run {ids : List Nat} (hlong : maxIntSize c < ids.length) :
    window c ids = run (maxIntSize c) (extended c ids) (position (chooseIdx c ids)) := by
  have hm := maxIntSize_ge hc
  have hle : ∀ k, chooseIdx c ids = some k → k ≤ ids.length - maxIntSize c + 1 :=
    fun k => chooseIdx_le
  have hpos := position_le hle
  unfold window run
  apply List.ext_getElem
  · simp
    omega
  · intro i h₁ h₂
    simp only [List.length_map, List.length_range'] at h₁
    simp only [List.getElem_map, List.getElem_range', List.getElem_take, List.getElem_drop]
    rw [← List.getD_eq_getElem _ 0, ← windowWord_eq hc hlong hle h₁]
    congr 1
    omega

/-! ## Section 3: The search -/

section Search

variable {ids : List Nat} (hlong : maxIntSize c < ids.length)
include hlong

/-- The first window: the lower bound is 0. -/
theorem width_zero : width (maxIntSize c) (extended c ids) 0 = ids.getD (maxIntSize c - 2) 0 := by
  have hm := maxIntSize_ge hc
  rw [width, getD_extended, getD_extended, if_neg (by omega), if_pos (by omega), if_pos rfl,
    Nat.sub_zero]
  congr 1
  omega

variable (hids : IdList c ids)
include hids

/-- The score behind the loop: the upper bound is `VERTEX_SIZE + 1`. -/
theorem width_last : width (maxIntSize c) (extended c ids) (ids.length - maxIntSize c + 2) =
    sub32 c.vertexIdUpper (ids.getD (ids.length - maxIntSize c + 1) 0) := by
  have hm := maxIntSize_ge hc
  have hv := hc.vertexSize_lt
  have hupper := vertexIdUpper_eq hc
  have hle : ids.getD (ids.length - maxIntSize c + 1) 0 ≤ c.vertexSize := by
    rw [List.getD_eq_getElem _ _ (show ids.length - maxIntSize c + 1 < ids.length by omega)]
    exact (hids _ (List.getElem_mem _)).2
  rw [width, getD_extended, getD_extended, if_neg (by omega), if_neg (by omega),
    if_pos (by omega), if_neg (by omega), if_pos (by omega), hupper,
    sub32_of_le (by omega) hv]
  rfl

variable (hsorted : ids.Pairwise (· ≤ ·))
include hsorted

/-- The score of the loop. -/
theorem width_succ {i : Nat} (hi : i < ids.length - maxIntSize c + 1) :
    width (maxIntSize c) (extended c ids) (i + 1) =
      sub32 (ids.getD (i + maxIntSize c - 1) 0) (ids.getD i 0) := by
  have hm := maxIntSize_ge hc
  have hv := hc.vertexSize_lt
  have hle : ids.getD i 0 ≤ ids.getD (i + maxIntSize c - 1) 0 := by
    rw [List.getD_eq_getElem _ _ (show i < ids.length by omega),
      List.getD_eq_getElem _ _ (show i + maxIntSize c - 1 < ids.length by omega)]
    exact List.pairwise_iff_getElem.mp hsorted _ _ _ _ (by omega)
  -- in an ascending list the difference is no negative number
  have hlt : ids.getD (i + maxIntSize c - 1) 0 < 2 ^ 32 :=
    getD_lt_of_forall (by decide) (fun id hid => by have := (hids id hid).2; omega) _
  rw [width, getD_extended, getD_extended, if_neg (by omega), if_pos (by omega),
    if_neg (by omega), if_pos (by omega), sub32_of_le hle hlt, Nat.add_sub_cancel]
  congr 2
  omega

/-- The loop of `EncodeVertex` with the score that it begins with. -/
def searchLoop (c : Config) (ids : List Nat) : Option Nat × Nat :=
  (List.range (ids.length - maxIntSize c + 1)).foldl (BestSearch.keepFirst
    fun i => sub32 (ids.getD (i + maxIntSize c - 1) 0) (ids.getD i 0))
    (none, ids.getD (maxIntSize c - 2) 0)

/-- The loop ends at the first widest run but for the last one. -/
theorem searchLoop_spec :
    (searchLoop c ids).2 = width (maxIntSize c) (extended c ids) (position (searchLoop c ids).1) ∧
    position (searchLoop c ids).1 ≤ ids.length - maxIntSize c + 1 ∧
    (∀ q ≤ ids.length - maxIntSize c + 1,
      width (maxIntSize c) (extended c ids) q ≤ (searchLoop c ids).2) ∧
    ∀ q < position (searchLoop c ids).1,
      width (maxIntSize c) (extended c ids) q < (searchLoop c ids).2 := by
  have hzero := width_zero hc hlong
  have hscore : ∀ i < ids.length - maxIntSize c + 1, width (maxIntSize c) (extended c ids) (i + 1) =
      sub32 (ids.getD (i + maxIntSize c - 1) 0) (ids.getD i 0) :=
    fun i hi => width_succ hc hlong hids hsorted hi
  have hbest := BestSearch.firstBest_foldl
    (fun i => sub32 (ids.getD (i + maxIntSize c - 1) 0) (ids.getD i 0))
    (ids.getD (maxIntSize c - 2) 0) (ids.length - maxIntSize c + 1)
  rw [← searchLoop] at hbest
  generalize searchLoop c ids = best at hbest
  cases hbest with
  | none hle =>
    -- the first window was not beaten
    refine ⟨hzero.symm, Nat.zero_le _, fun q hq => ?_, fun q hq => absurd hq (Nat.not_lt_zero q)⟩
    cases q with
    | zero => exact Nat.le_of_eq hzero
    | succ i =>
      rw [hscore i hq]
      exact hle i hq
  | @some k hk hbase hle hfirst =>
    -- the best window of the loop is one position further among the runs
    refine ⟨(hscore k hk).symm, hk, fun q hq => ?_, fun q hq => ?_⟩
    · cases q with
      | zero =>
        rw [hzero]
        exact Nat.le_of_lt hbase
      | succ i =>
        rw [hscore i hq]
        exact hle i hq
    · cases q with
      | zero =>
        rw [hzero]
        exact hbase
      | succ i =>
        have hi : i < k := Nat.lt_of_succ_lt_succ hq
        rw [hscore i (by omega)]
        exact hfirst i hi

/-- The search ends at the first widest run. -/
theorem firstWidest_position :
    FirstWidest (maxIntSize c) (extended c ids) (position (chooseIdx c ids)) := by
  have hm := maxIntSize_ge hc
  have hlast := width_last hc hlong hids
  obtain ⟨hscore, hpos, hle, hlt⟩ := searchLoop_spec hc hlong hids hsorted
  have hchoose : chooseIdx c ids =
      if (searchLoop c ids).2 <
          sub32 c.vertexIdUpper (ids.getD (ids.length - maxIntSize c + 1) 0) then
        some (ids.length - maxIntSize c + 1)
      else (searchLoop c ids).1 := rfl
  rw [hchoose, ← hlast]
  generalize searchLoop c ids = best at hscore hpos hle hlt
  -- the runs that the loop has not seen are the last one
  have hruns : ∀ q, IsRun (maxIntSize c) (extended c ids) q →
      q ≤ ids.length - maxIntSize c + 1 ∨ q = ids.length - maxIntSize c + 2 := by
    intro q hq
    rw [IsRun, length_extended] at hq
    omega
  split
  next hwider =>
    refine ⟨⟨by rw [IsRun, length_extended, position_some]; omega, fun q hq => ?_⟩, fun q hq => ?_⟩
    · rcases hruns q hq with hseen | rfl
      · exact Nat.le_trans (hle q hseen) (Nat.le_of_lt hwider)
      · exact Nat.le_refl _
    · exact Nat.lt_of_le_of_lt (hle q (Nat.le_of_lt_succ hq)) hwider
  next hnot =>
    rw [hscore] at hle hlt hnot
    refine ⟨⟨by rw [IsRun, length_extended]; omega, fun q hq => ?_⟩, hlt⟩
    rcases hruns q hq with hseen | rfl
    · exact hle q hseen
    · exact Nat.not_lt.mp hnot

end Search

/-! ## Section 4: What is stored, and what it answers -/

/-- Some widest run takes its ids from the first `2^31 - 1`. -/
def WithinInt (c : Config) (ids : List Nat) : Prop :=
  ∃ p, Widest (maxIntSize c) (extended c ids) p ∧ min (p + maxIntSize c - 1) ids.length < 2 ^ 31

omit hc in
@[simp] theorem length_sorted (ids : List Nat) : (sorted ids).length = ids.length :=
  List.length_insertionSort _ _

omit hc in
theorem idList_sorted {ids : List Nat} (hids : IdList c ids) : IdList c (sorted ids) :=
  fun id hid => hids id (List.mem_insertionSort _ |>.mp hid)

omit hc in
theorem pairwise_sorted (ids : List Nat) : (sorted ids).Pairwise (· ≤ ·) :=
  List.pairwise_insertionSort _ ids

/-- A list of less than `2^31` ids keeps them all there. -/
theorem withinInt_of_lt {ids : List Nat} (hids : IdList c ids) (hlong : maxIntSize c < ids.length)
    (hlt : ids.length < 2 ^ 31) : WithinInt c (sorted ids) := by
  have hfirst := firstWidest_position hc (by rwa [length_sorted]) (idList_sorted hids)
    (pairwise_sorted ids)
  exact ⟨_, hfirst.toWidest, Nat.lt_of_le_of_lt (Nat.min_le_right _ _) (by rwa [length_sorted])⟩

/-- The sums of the last loop stay below `2^31` exactly when those of some widest run do. -/
theorem any_chooseIdx_iff {ids : List Nat} (hids : IdList c ids)
    (hlong : maxIntSize c < ids.length) :
    ((chooseIdx c (sorted ids)).any fun idx =>
      decide (2 ^ 31 ≤ min (idx + maxIntSize c) ids.length)) = true ↔
      ¬ WithinInt c (sorted ids) := by
  have hk := hc.kSize_le
  have hm : maxIntSize c ≤ 63 := by unfold maxIntSize; omega
  have hfirst := firstWidest_position hc (by rwa [length_sorted]) (idList_sorted hids)
    (pairwise_sorted ids)
  have hiff : WithinInt c (sorted ids) ↔
      min (position (chooseIdx c (sorted ids)) + maxIntSize c - 1) ids.length < 2 ^ 31 := by
    unfold WithinInt
    rw [length_sorted]
    constructor
    · rintro ⟨p, hp, hlt⟩
      -- the search has not gone further than this run
      have hle := hfirst.le hp
      omega
    · exact fun hlt => ⟨_, hfirst.toWidest, hlt⟩
  rw [hiff]
  cases chooseIdx c (sorted ids) with
  | none => simp; omega
  | some idx =>
    rw [Option.any_some, decide_eq_true_eq, position_some,
      show idx + 1 + maxIntSize c - 1 = idx + maxIntSize c by omega]
    omega

/-- `EncodeVertex` has a result when there are records and the sums fit. -/
theorem encodeVertexAt_eq_some {encodes : Records} (h : encodes.Built c) {v : Nat}
    (hv : v ≤ c.vertexSize) {ids : List Nat} (hids : IdList c ids)
    (hfit : ids.length ≤ maxIntSize c ∨ WithinInt c (sorted ids)) :
    encodeVertexAt c v ids encodes = some (encodeVertex c v ids encodes) := by
  have hlt := h.lt_length hc.vertexSize_lt hv
  rw [encodeVertexAt, if_neg, Records.updateAt, if_pos hlt]
  · rfl
  · rintro ⟨hlong, hany⟩
    rw [any_chooseIdx_iff hc hids hlong] at hany
    exact hfit.elim (fun hle => by omega) hany

theorem record_encodeVertex {encodes : Records} (h : encodes.Built c) {v : Nat}
    (hv : v ≤ c.vertexSize) (ids : List Nat) :
    (encodeVertex c v ids encodes).record v = encodeBits c ids (encodes.record v) := by
  rw [encodeVertex, Records.record_update _ _ (h.lt_length hc.vertexSize_lt hv), if_pos rfl]

end

/-- A result of `EncodeVertex` shows that there are records and that the sums fit. -/
theorem fits_of_encodeVertexAt {c : Config} (hk : 3 ≤ c.kSize) (hk' : c.kSize ≤ 64)
    {encodes encodes' : Records} (h : encodes.Built c) {v : Nat} {ids : List Nat}
    (hids : IdList c ids) (heq : encodeVertexAt c v ids encodes = some encodes') :
    c.vertexSize + 1 < 2 ^ 32 ∧ (ids.length ≤ maxIntSize c ∨ WithinInt c (sorted ids)) := by
  unfold encodeVertexAt at heq
  split at heq
  · cases heq
  next hnot =>
    have hsize := h.vertexSize_lt heq
    refine ⟨hsize, ?_⟩
    by_cases hle : ids.length ≤ maxIntSize c
    · exact Or.inl hle
    · right
      by_contra hfar
      exact hnot ⟨by omega, (any_chooseIdx_iff ⟨hk, hk', hsize⟩ hids (by omega)).mpr hfar⟩

/-- Whatever the records held before, the vertex is encoded and its record is exact up to
    `Uncertain`: it is uncertain about an id only when the list does not fit and the id lies
    outside the stored window. -/
def Exact (c : Config) (v : Nat) (ids : List Nat) : Prop :=
  ∀ encodes : Records, encodes.Built c →
    ∃ encodes', encodeVertexAt c v ids encodes = some encodes' ∧ ∀ w, 1 ≤ w → w ≤ c.vertexSize →
      (nonNeighborTest c encodes' v w = .neighbor → w ∈ ids) ∧
      (nonNeighborTest c encodes' v w = .nonNeighbor → w ∉ ids) ∧
      (nonNeighborTest c encodes' v w = .uncertain → maxIntSize c < ids.length ∧
        (w < word (encodes'.record v) 1 ∨ word (encodes'.record v) (maxIntSize c) < w))

/-- Only the test against the window is uncertain. -/
theorem testBits_eq_uncertain {c : Config} {encode : BitSetSIMD} {w : Nat}
    (h : testBits c encode w = .uncertain) : getFlag encode = false ∧
      (w < word encode 1 ∨ word encode (maxIntSize c) < w) := by
  unfold testBits at h
  split at h
  · split at h <;> cases h
  next hflag =>
    split at h
    · cases h
    · split at h
      next hout => exact ⟨by simpa using hflag, hout⟩
      next => split at h <;> cases h

theorem exact_encodeVertex_iff {c : Config} (hk : 3 ≤ c.kSize) (hk' : c.kSize ≤ 64) {v : Nat}
    (hv : v ≤ c.vertexSize) {ids : List Nat} (hids : IdList c ids) :
    (c.vertexSize + 1 < 2 ^ 32 ∧
        (ids.length ≤ maxIntSize c ∨ ids.length < 2 ^ 32 ∧ WithinInt c (sorted ids)) →
      Exact c v ids) ∧
    (ids.length < 2 ^ 32 → Exact c v ids → c.vertexSize + 1 < 2 ^ 32 ∧
      (ids.length ≤ maxIntSize c ∨ ids.length < 2 ^ 32 ∧ WithinInt c (sorted ids))) := by
  constructor
  · rintro ⟨hsize, hfit⟩ encodes h
    have hc : Worded c := ⟨hk, hk', hsize⟩
    have hrec := h.record (h.lt_length hsize hv)
    refine ⟨_, encodeVertexAt_eq_some hc h hv hids (hfit.imp_right And.right), fun w hw hw' => ?_⟩
    rw [nonNeighborTest, record_encodeVertex hc h hv]
    have hspeaks := speaks_encodeBits hc hids hrec hw hw'
    refine ⟨hspeaks.stored_of_neighbor,
      fun htest hmem => hspeaks.ne_nonNeighbor hmem htest, fun htest => ?_⟩
    -- an uncertain verdict is one about a window
    obtain ⟨hflag, hout⟩ := testBits_eq_uncertain htest
    rw [getFlag_encodeBits hc hids hrec, decide_eq_false_iff_not] at hflag
    exact ⟨by omega, hout⟩
  · intro hlen hexact
    obtain ⟨encodes', heq, -⟩ := hexact _ (Records.built_constructed c)
    obtain ⟨hsize, hfit⟩ := fits_of_encodeVertexAt hk hk' (Records.built_constructed c) hids heq
    exact ⟨hsize, hfit.imp_right fun hwithin => ⟨hlen, hwithin⟩⟩

/-- Whatever the records held before, the vertex is encoded and the window in its record is a
    widest run. -/
def StoresWidest (c : Config) (v : Nat) (ids : List Nat) : Prop :=
  ∀ encodes : Records, encodes.Built c →
    ∃ encodes', encodeVertexAt c v ids encodes = some encodes' ∧
      ∃ p, Widest (maxIntSize c) (extended c (sorted ids)) p ∧
        slots c (encodes'.record v) = run (maxIntSize c) (extended c (sorted ids)) p

theorem storesWidest_iff {c : Config} (hc : Worded c) {v : Nat} (hv : v ≤ c.vertexSize)
    {ids : List Nat} (hids : IdList c ids) (hlong : maxIntSize c < ids.length) :
    (ids.length < 2 ^ 32 ∧ WithinInt c (sorted ids) → StoresWidest c v ids) ∧
    (ids.length < 2 ^ 32 → StoresWidest c v ids →
      ids.length < 2 ^ 32 ∧ WithinInt c (sorted ids)) := by
  constructor
  · rintro ⟨-, hwithin⟩ encodes h
    have hlong' : maxIntSize c < (sorted ids).length := by rwa [length_sorted]
    have hrec := h.record (h.lt_length hc.vertexSize_lt hv)
    have hfirst := firstWidest_position hc hlong' (idList_sorted hids) (pairwise_sorted ids)
    refine ⟨_, encodeVertexAt_eq_some hc h hv hids (Or.inr hwithin), _, hfirst.toWidest, ?_⟩
    have hslots : slots c (encodeBits c ids (encodes.record v)) = window c (sorted ids) ++
        List.replicate (maxIntSize c - (window c (sorted ids)).length) 0 :=
      (wordRecord_encodeBits_window hc hids hlong hrec).slots
    rw [(isWindow_window hc hlong').2, Nat.sub_self, List.replicate_zero, List.append_nil] at hslots
    rw [record_encodeVertex hc h hv, hslots, ← window_eq_run hc hlong']
  · intro hlen hwidest
    obtain ⟨encodes', heq, -⟩ := hwidest _ (Records.built_constructed c)
    obtain ⟨-, hfit⟩ := fits_of_encodeVertexAt hc.kSize_ge hc.kSize_le
      (Records.built_constructed c) hids heq
    exact ⟨hlen, hfit.elim (fun hle => absurd hle (by omega)) id⟩

/-! ## Section 5: A vertex with more than `2^31` neighbours -/

/-- Four words to a record and `2^31 + 3` vertices. -/
def starConfig : Config := .ofSizes 4 2147483651 2 (by decide)

theorem starConfig_worded : Worded starConfig := ⟨by decide, by decide, by decide⟩

/-- The neighbours of the last vertex: all others. -/
def star : List Nat := List.range' 1 (2 ^ 31 + 2)

theorem length_star : star.length = 2 ^ 31 + 2 := List.length_range'

theorem idList_star : IdList starConfig star := by
  intro id hid
  have h : 1 ≤ id ∧ id < 1 + (2 ^ 31 + 2) := List.mem_range'_1.mp hid
  refine ⟨h.1, ?_⟩
  change id ≤ 2147483651
  omega

theorem sorted_star : sorted star = star :=
  (List.pairwise_le_range' 1).insertionSort_eq

/-- Position `j` between the bounds holds `j`, up to the last id. -/
theorem getD_extended_star {j : Nat} (hj : j ≤ 2 ^ 31 + 2) :
    (extended starConfig star).getD j 0 = j := by
  rw [getD_extended, length_star, if_pos hj]
  split
  next hzero => exact hzero.symm
  next hpos =>
    rw [star, List.getD_eq_getElem _ _ (by rw [List.length_range']; omega), List.getElem_range']
    omega

/-- The vertex itself is missing, so the last run is the widest. -/
theorem not_withinInt_star : ¬ WithinInt starConfig (sorted star) := by
  have hm : maxIntSize starConfig = 3 := rfl
  have hv : starConfig.vertexSize = 2 ^ 31 + 3 := rfl
  rw [sorted_star]
  rintro ⟨p, hp, hlt⟩
  rw [hm, length_star] at hlt
  have hrun : IsRun (maxIntSize starConfig) (extended starConfig star) (2 ^ 31 + 1) := by
    rw [IsRun, length_extended, length_star, hm]
  have hle := hp.width_le _ hrun
  -- the upper bound is one more than the vertex that is missing
  have hend : (extended starConfig star).getD (2 ^ 31 + 3) 0 = 2 ^ 31 + 4 := by
    rw [getD_extended, length_star, if_neg (by omega), if_neg (by omega), if_pos rfl, hv]
  rw [width, width, hm, show 2 ^ 31 + 1 + 3 - 1 = 2 ^ 31 + 3 by omega, hend,
    getD_extended_star (by omega), getD_extended_star (by omega), getD_extended_star (by omega)]
    at hle
  omega

/-- It has no result. -/
theorem encodeVertexAt_star (encodes : Records) :
    encodeVertexAt starConfig 2147483651 star encodes = none := by
  have hlong : maxIntSize starConfig < star.length := by
    rw [length_star]
    decide
  exact if_pos ⟨hlong, (any_chooseIdx_iff starConfig_worded idList_star hlong).mpr
    not_withinInt_star⟩

theorem not_exact_star : IdList starConfig star ∧ ¬ Exact starConfig 2147483651 star := by
  refine ⟨idList_star, fun hexact => ?_⟩
  obtain ⟨encodes', heq, -⟩ := hexact _ (Records.built_constructed starConfig)
  rw [encodeVertexAt_star] at heq
  cases heq

theorem not_storesWidest_star : Worded starConfig ∧ IdList starConfig star ∧
    maxIntSize starConfig < star.length ∧ ¬ StoresWidest starConfig 2147483651 star := by
  refine ⟨starConfig_worded, idList_star, by rw [length_star]; decide, fun hwidest => ?_⟩
  obtain ⟨encodes', heq, -⟩ := hwidest _ (Records.built_constructed starConfig)
  rw [encodeVertexAt_star] at heq
  cases heq

/-- Five neighbours on three words. -/
theorem exact_encodeVertex_five : IdList starConfig [5, 1, 2, 4, 9] ∧
    Exact starConfig 6 [5, 1, 2, 4, 9] := by
  have hids : IdList starConfig [5, 1, 2, 4, 9] := by
    unfold IdList
    decide
  exact ⟨hids, (@exact_encodeVertex_iff starConfig (by decide) (by decide) 6 (by decide) _ hids).1
    ⟨by decide, Or.inr ⟨by decide, withinInt_of_lt starConfig_worded hids (by decide) (by decide)⟩⟩⟩

theorem storesWidest_five : Worded starConfig ∧ IdList starConfig [5, 1, 2, 4, 9] ∧
    StoresWidest starConfig 6 [5, 1, 2, 4, 9] := by
  have hids : IdList starConfig [5, 1, 2, 4, 9] := by
    unfold IdList
    decide
  exact ⟨starConfig_worded, hids, (@storesWidest_iff starConfig starConfig_worded 6 (by decide) _
    hids (by decide)).1 ⟨by decide, withinInt_of_lt starConfig_worded hids (by decide) (by decide)⟩⟩

end RangeEncode

end Vend
