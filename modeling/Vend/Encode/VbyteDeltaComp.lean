import Vend.Encode.VbyteComp

/-! # `VbyteDeltaComp`

    `encode/single/compression.h`: the bytes of `VbyteComp` for the differences between
    neighbouring ids.

    A list that does not fit leaves a block of it in the record: its minimum and its maximum
    as they are, and the differences of what stands between them. The search adds up the cost
    of a block as it grows (`innerLoop_good`), and the block it ends with always has two
    elements or more (`search_good`), so no access leaves the list or the record
    (`deltaExact_of_distinct`).
-/

namespace Vend

namespace VbyteDeltaComp

open BitSetSIMD
open VbyteComp (integerBytes integerBits compress getAllBits Best Stores size)
open RangeCompEncode (verdict)
open Vbyte (stream)

/-! ## Section 1: Model -/

/-- `Encode(list, encode, shift)`. -/
def encode (list : List Nat) (bs : BitSetSIMD) (shift : Nat) : Option BitSetSIMD :=
  VbyteComp.encode (getDeltas list) bs shift

/-- `GetDeltaBits(list)` for a list of two elements or more. -/
def getDeltaBits (list : List Nat) : List Nat :=
  (List.zipWith sub32 list.tail list).map fun delta => integerBytes delta * 8

/-- The inner loop of the search: the block from `i` to `j`, for each `j` of the list. -/
def innerLoop (c : Config) (list : List Nat) (shift i : Nat) : List Nat → Nat → Best → Best
  | [], _, best => best
  | j :: js, bitsNum, best =>
    let score := sub32 (list.getD j 0) (list.getD i 0)
    -- the old maximum is replaced by the new one and takes its place among the differences
    let bitsNum := (bitsNum + sub32 ((getAllBits list).getD j 0) ((getAllBits list).getD (j - 1) 0)
      + (getDeltaBits list).getD (j - 2) 0) % 2 ^ 32
    -- the first block that does not fit ends the loop
    if c.perEncodeBitSize < bitsNum + shift then best
    else innerLoop c list shift i js bitsNum
      (if best.bestScore < score then ⟨j - i + 1, i, score⟩ else best)

/-- One round of the search of `DynamicEncode`. -/
def searchStep (c : Config) (list : List Nat) (shift : Nat) (best : Best) (i : Nat) : Best :=
  let bitsNum := (getAllBits list).getD i 0 + (getAllBits list).getD (i + 1) 0
  if c.perEncodeBitSize < bitsNum + shift then best
  else
    let score := sub32 (list.getD (i + 1) 0) (list.getD i 0)
    innerLoop c list shift i (List.range' (i + 2) (list.length - 1 - (i + 2))) bitsNum
      -- a block of two elements is tried before the inner loop
      (if best.bestScore < score then ⟨2, i, score⟩ else best)

/-- The search of `DynamicEncode`; the index -1 is a `uint32_t`. -/
def search (c : Config) (list : List Nat) (shift : Nat) : Best :=
  (List.range (list.length - 3)).foldl (searchStep c list shift) ⟨0, 2 ^ 32 - 1, 0⟩

/-- `DynamicEncode(list, encode, shift)` for a list of three elements or more. The assertion
    stands behind the search. -/
def dynamicEncode (c : Config) (list : List Nat) (bs : BitSetSIMD) (shift : Nat) :
    Option BitSetSIMD :=
  let best := search c list shift
  let last := best.idx + best.bestBlock - 1
  if 2 ≤ best.bestBlock then
    bs.blockSetFields shift
      (((getAllBits list).getD best.idx 0, compress (list.getD best.idx 0)) ::
        ((getAllBits list).getD last 0, compress (list.getD last 0)) ::
        (List.range' 1 (best.bestBlock - 2)).map fun i =>
          ((getDeltaBits list).getD (best.idx + i - 1) 0,
            compress (sub32 (list.getD (i + best.idx) 0) (list.getD (i + best.idx - 1) 0))))
  else none

/-- A difference stands for what it leads to from the id in front of it. -/
def next (pre x : Nat) : Nat := (x + pre) % 2 ^ 32

/-- `Find(value, encode, shift, not_partial)`. -/
def find (c : Config) : Nat → BitSetSIMD → Nat → Bool → Option PairType :=
  VbyteComp.findWith c next

/-- `VbyteDeltaComp` behind the pointer to `Compression`. -/
def codec (c : Config) : CompressionAt where
  getRequiredBits := getRequiredBits
  encode := encode
  dynamicEncode := dynamicEncode c
  find := find c

/-! ## Section 2: Reading differences -/

open VbyteComp (readings)

/-- Running sums undo differences. -/
theorem readings_gaps {pre : Nat} {ids : List Nat} (hsorted : (pre :: ids).Pairwise (· ≤ ·))
    (hlt : ∀ x ∈ ids, x < 2 ^ 32) : readings next pre (GapCost.gaps pre ids) = ids := by
  induction ids generalizing pre with
  | nil => rfl
  | cons id ids ih =>
    obtain ⟨hhead, htail⟩ := List.pairwise_cons.mp hsorted
    have hle := hhead id List.mem_cons_self
    have hid := hlt id List.mem_cons_self
    -- adding the difference to the id in front gives the id back
    have hnext : next pre (id - pre) = id := by
      unfold next
      omega
    rw [GapCost.gaps, readings, hnext, ih htail fun x hx => hlt x (List.mem_cons_of_mem _ hx)]

/-- Differences are no larger than what they lead to. -/
theorem gaps_lt {pre bound : Nat} {ids : List Nat} (hlt : ∀ x ∈ pre :: ids, x < bound) :
    ∀ d ∈ GapCost.gaps pre ids, d < bound := by
  induction ids generalizing pre with
  | nil => exact fun d hd => absurd hd (by simp [GapCost.gaps])
  | cons id ids ih =>
    intro d hd
    rcases List.mem_cons.mp hd with rfl | hd
    · exact Nat.lt_of_le_of_lt (Nat.sub_le _ _) (hlt id (by simp))
    · exact ih (fun x hx => hlt x (List.mem_cons_of_mem _ hx)) d hd

/-- Zeros repeat the id in front of them. -/
theorem readings_zeros {pre : Nat} (hpre : pre < 2 ^ 32) (k : Nat) :
    readings next pre (List.replicate k 0) = List.replicate k pre := by
  induction k with
  | zero => rfl
  | succ k ih =>
    have hnext : next pre 0 = pre := by
      unfold next
      omega
    rw [List.replicate_succ, List.replicate_succ, readings, hnext, ih]

/-- The search in differences with zeros behind them is the search in the ids. -/
theorem found_readings {pre w : Nat} {ids : List Nat} (hsorted : (pre :: ids).Pairwise (· ≤ ·))
    (hlt : ∀ x ∈ pre :: ids, x < 2 ^ 32) (hw : pre < w) (k : Nat) :
    OrderedSearch.found w (readings next pre (GapCost.gaps pre ids ++ List.replicate k 0)) =
      decide (w ∈ ids) := by
  have hids : ∀ x ∈ ids, x < 2 ^ 32 := fun x hx => hlt x (List.mem_cons_of_mem _ hx)
  have hlast : ids.getLastD pre ∈ pre :: ids := List.getLastD_mem_cons
  -- the zeros repeat the last id, or the start when there is none
  have hpad : ∀ y ∈ List.replicate k (ids.getLastD pre), y < w ∨ ∃ x ∈ ids, y ≤ x := by
    intro y hy
    rw [List.eq_of_mem_replicate hy]
    rcases List.mem_cons.mp hlast with heq | hmem
    · exact Or.inl (by omega)
    · exact Or.inr ⟨_, hmem, Nat.le_refl _⟩
  rw [VbyteComp.readings_append, readings_gaps hsorted hids, readings_zeros (hlt _ hlast),
    OrderedSearch.found_append hpad, Bool.eq_iff_iff,
    OrderedSearch.found_iff (List.pairwise_cons.mp hsorted).2, decide_eq_true_eq]

/-! ## Section 3: Blocks -/

/-- What is written for the block of `n` elements from `idx` on. -/
def blockValues (list : List Nat) (idx n : Nat) : List Nat :=
  list.getD idx 0 :: list.getD (idx + n - 1) 0 ::
    (List.range' 1 (n - 2)).map fun i => list.getD (idx + i) 0 - list.getD (idx + i - 1) 0

theorem fullBits_two (list : List Nat) (idx : Nat) :
    VbyteComp.fullBits (blockValues list idx 2) =
      integerBits (list.getD idx 0) + integerBits (list.getD (idx + 1) 0) := by
  simp [VbyteComp.fullBits, blockValues]

/-- One more element: the old maximum becomes a difference. -/
theorem fullBits_succ (list : List Nat) (idx : Nat) {n : Nat} (hn : 2 ≤ n) :
    VbyteComp.fullBits (blockValues list idx (n + 1)) + integerBits (list.getD (idx + n - 1) 0) =
      VbyteComp.fullBits (blockValues list idx n) + integerBits (list.getD (idx + n) 0) +
        integerBits (list.getD (idx + n - 1) 0 - list.getD (idx + n - 2) 0) := by
  -- the old maximum becomes the last of the differences
  have hrange : List.range' 1 (n + 1 - 2) = List.range' 1 (n - 2) ++ [n - 1] := by
    rw [show n + 1 - 2 = n - 2 + 1 by omega, List.range'_1_concat]
    congr 2
    omega
  unfold VbyteComp.fullBits blockValues
  rw [hrange]
  simp only [List.map_cons, List.map_append, List.map_nil, List.sum_cons, List.sum_append,
    List.sum_nil, show idx + (n + 1) - 1 = idx + n by omega,
    show idx + (n - 1) = idx + n - 1 by omega, show idx + n - 1 - 1 = idx + n - 2 by omega]
  omega

theorem integerBits_le_fullBits (list : List Nat) (idx n : Nat) :
    integerBits (list.getD (idx + n - 1) 0) ≤ VbyteComp.fullBits (blockValues list idx n) := by
  unfold VbyteComp.fullBits blockValues
  simp only [List.map_cons, List.sum_cons]
  omega

theorem getD_getAllBits (list : List Nat) {i : Nat} (hi : i < list.length) :
    (getAllBits list).getD i 0 = integerBits (list.getD i 0) := by
  unfold getAllBits integerBits
  rw [List.getD_eq_getElem _ _ (by simpa using hi), List.getElem_map,
    List.getD_eq_getElem _ _ hi, Nat.mul_comm]

theorem getD_getDeltaBits (list : List Nat) {i : Nat} (hi : i + 1 < list.length) :
    (getDeltaBits list).getD i 0 =
      integerBits (sub32 (list.getD (i + 1) 0) (list.getD i 0)) := by
  have hlen : i < (getDeltaBits list).length := by
    simp only [getDeltaBits, List.length_map, List.length_zipWith, List.length_tail]
    omega
  unfold getDeltaBits integerBits at *
  rw [List.getD_eq_getElem _ _ hlen, List.getElem_map, List.getElem_zipWith, List.getElem_tail,
    List.getD_eq_getElem _ _ hi, List.getD_eq_getElem _ _ (by omega), Nat.mul_comm]

section

variable {c : Config} {list : List Nat} {shift : Nat}
  (hsorted : list.Pairwise (· < ·)) (hlt : ∀ x ∈ list, x < 2 ^ 32)
include hsorted hlt

theorem sub32_getD {i j : Nat} (hij : i ≤ j) (hj : j < list.length) :
    sub32 (list.getD j 0) (list.getD i 0) = list.getD j 0 - list.getD i 0 := by
  rw [List.getD_eq_getElem _ _ hj, List.getD_eq_getElem _ _ (by omega)]
  apply sub32_of_le _ (hlt _ (List.getElem_mem hj))
  rcases Nat.eq_or_lt_of_le hij with rfl | hless
  · exact Nat.le_refl _
  · exact Nat.le_of_lt (List.pairwise_iff_getElem.mp hsorted _ _ _ _ hless)

omit hsorted hlt in
/-- A block of two elements or more that ends before the upper bound and fits in the record. -/
structure Good (c : Config) (list : List Nat) (shift : Nat) (best : Best) : Prop where
  two_le : 2 ≤ best.bestBlock
  lt_length : best.idx + best.bestBlock < list.length
  fits : VbyteComp.fullBits (blockValues list best.idx best.bestBlock) + shift ≤
    c.perEncodeBitSize

/-- The inner loop keeps the cost of the block up to `j - 1`. -/
theorem innerLoop_good {i j m : Nat} (hj : i + 2 ≤ j) (hend : j + m < list.length)
    (hper : c.perEncodeBitSize ≤ 2048) {bitsNum : Nat}
    (hbits : bitsNum = VbyteComp.fullBits (blockValues list i (j - i)))
    (hfit : bitsNum + shift ≤ c.perEncodeBitSize) {best : Best} (hbest : Good c list shift best) :
    Good c list shift (innerLoop c list shift i (List.range' j m) bitsNum best) := by
  induction m generalizing j bitsNum best with
  | zero => exact hbest
  | succ m ih =>
    have hall := getD_getAllBits list (i := j) (by omega)
    have hold := getD_getAllBits list (i := j - 1) (by omega)
    have hdelta := getD_getDeltaBits list (i := j - 2) (by omega)
    rw [show j - 2 + 1 = j - 1 by omega, sub32_getD hsorted hlt (by omega) (by omega)] at hdelta
    have hsucc := fullBits_succ list i (show 2 ≤ j - i by omega)
    have hle := integerBits_le_fullBits list i (j - i)
    rw [show i + (j - i) - 1 = j - 1 by omega] at hsucc hle
    rw [show i + (j - i) = j by omega] at hsucc
    have h₁ := VbyteComp.integerBits_le (list.getD j 0)
    have h₂ := VbyteComp.integerBits_le (list.getD (j - 1) 0)
    have h₃ := VbyteComp.integerBits_le (list.getD (j - 1) 0 - list.getD (j - 2) 0)
    -- the sum of the loop may pass through a negative number, but it ends at the cost
    have hsum : (bitsNum + sub32 ((getAllBits list).getD j 0) ((getAllBits list).getD (j - 1) 0)
        + (getDeltaBits list).getD (j - 2) 0) % 2 ^ 32 =
        VbyteComp.fullBits (blockValues list i (j - i + 1)) := by
      rw [hall, hold, hdelta]
      unfold sub32
      omega
    rw [List.range'_succ]
    simp only [innerLoop, hsum]
    split
    · exact hbest
    next hroom =>
      apply ih (by omega) (by omega) (by rw [show j + 1 - i = j - i + 1 by omega]) (by omega)
      -- the new block fits, and so does the one that is kept
      split
      · exact ⟨by dsimp only; omega, by dsimp only; omega, by dsimp only; omega⟩
      · exact hbest

theorem searchStep_good {i : Nat} (hi : i + 3 < list.length) (hper : c.perEncodeBitSize ≤ 2048)
    {best : Best} (hbest : Good c list shift best ∨ best.bestScore = 0)
    (hroom : 64 + shift ≤ c.perEncodeBitSize) :
    Good c list shift (searchStep c list shift best i) := by
  have hfst := getD_getAllBits list (i := i) (by omega)
  have hsnd := getD_getAllBits list (i := i + 1) (by omega)
  have h₁ := VbyteComp.integerBits_le (list.getD i 0)
  have h₂ := VbyteComp.integerBits_le (list.getD (i + 1) 0)
  have htwo := fullBits_two list i
  -- two different ids have a score, so the first round takes its block
  have hscore : 0 < sub32 (list.getD (i + 1) 0) (list.getD i 0) := by
    have hless := List.pairwise_iff_getElem.mp hsorted i (i + 1) (by omega) (by omega) (by omega)
    rw [sub32_getD hsorted hlt (by omega) (by omega), List.getD_eq_getElem _ _ (by omega),
      List.getD_eq_getElem _ _ (by omega)]
    omega
  simp only [searchStep, hfst, hsnd]
  rw [if_neg (by omega)]
  apply innerLoop_good hsorted hlt (by omega) (by omega) hper
    (by rw [show i + 2 - i = 2 by omega, htwo]) (by omega)
  split
  · exact ⟨Nat.le_refl 2, by dsimp only; omega, by dsimp only; omega⟩
  next hnot =>
    -- a score of 0 would have been beaten
    rcases hbest with hgood | hzero
    · exact hgood
    · omega

/-- The search ends with a block: the first round finds one. -/
theorem search_good (hlen : 4 ≤ list.length) (hper : c.perEncodeBitSize ≤ 2048)
    (hroom : 64 + shift ≤ c.perEncodeBitSize) : Good c list shift (search c list shift) := by
  -- on the rounds: from the first one on there is a block
  have hrun : ∀ n, n + 3 < list.length + 1 → 0 < n →
      Good c list shift ((List.range n).foldl (searchStep c list shift) ⟨0, 2 ^ 32 - 1, 0⟩) := by
    intro n hn hpos
    induction n with
    | zero => omega
    | succ n ih =>
      rw [List.range_succ, List.foldl_append, List.foldl_cons, List.foldl_nil]
      apply searchStep_good hsorted hlt (by omega) hper _ hroom
      rcases Nat.eq_zero_or_pos n with rfl | hpos'
      · exact Or.inr rfl
      · exact Or.inl (ih (by omega) hpos')
  exact hrun _ (by omega) (by omega)

/-! ## Section 4: What a block answers -/

/-- The block that the search ends with is written as it is counted. -/
theorem dynamicEncode_eq (hgood : Good c list shift (search c list shift)) (bs : BitSetSIMD) :
    dynamicEncode c list bs shift = VbyteComp.encode
      (blockValues list (search c list shift).idx (search c list shift).bestBlock) bs shift := by
  have hend := hgood.lt_length
  have htwo := hgood.two_le
  rw [dynamicEncode]
  generalize search c list shift = best at hend htwo
  rw [if_pos htwo, getD_getAllBits list (by omega), getD_getAllBits list (by omega),
    VbyteComp.encode]
  simp only [blockValues, getAllBits, List.map_cons, List.zip_cons_cons, List.map_map,
    List.zip_map', integerBits, Nat.mul_comm 8]
  congr 3
  apply List.map_congr_left
  intro i hi
  have hi := List.mem_range'_1.mp hi
  rw [getD_getDeltaBits list (by omega), show best.idx + i - 1 + 1 = best.idx + i by omega,
    Nat.add_comm i, sub32_getD hsorted hlt (by omega) (by omega), integerBits, Nat.mul_comm]
  rfl

omit hlt in
/-- The ids strictly inside a block are those between its ends. -/
theorem mem_inner_iff {idx n t : Nat} (hn : 2 ≤ n) (hend : idx + n ≤ list.length)
    (ht : t < list.length) :
    list.getD t 0 ∈ (List.range' (idx + 1) (n - 2)).map (list.getD · 0) ↔
      list.getD idx 0 < list.getD t 0 ∧ list.getD t 0 < list.getD (idx + n - 1) 0 := by
  -- the elements are ordered as their places are
  have hless : ∀ {i j : Nat}, i < list.length → j < list.length →
      (list.getD i 0 < list.getD j 0 ↔ i < j) := by
    intro i j hi hj
    rw [List.getD_eq_getElem _ _ hi, List.getD_eq_getElem _ _ hj]
    have hmono := List.pairwise_iff_getElem.mp hsorted
    constructor
    · intro h
      by_contra hge
      rcases Nat.eq_or_lt_of_le (Nat.not_lt.mp hge) with rfl | hgt
      · exact Nat.lt_irrefl _ h
      · exact Nat.lt_asymm h (hmono _ _ hj hi hgt)
    · exact hmono _ _ hi hj
  rw [hless (by omega) ht, hless ht (by omega), List.mem_map]
  constructor
  · rintro ⟨i, hi, heq⟩
    have hi := List.mem_range'_1.mp hi
    -- equal elements stand at equal places
    have hit : i = t := by
      rcases Nat.lt_trichotomy i t with h | h | h
      · exact absurd heq (Nat.ne_of_lt ((hless (by omega) ht).mpr h))
      · exact h
      · exact absurd heq.symm (Nat.ne_of_lt ((hless ht (by omega)).mpr h))
    omega
  · intro h
    exact ⟨t, List.mem_range'_1.mpr (by omega), rfl⟩

omit hlt in
/-- The minimum of a block and the ids inside it ascend. -/
theorem pairwise_inner {idx n : Nat} (hn : 2 ≤ n) (hend : idx + n ≤ list.length) :
    (list.getD idx 0 :: (List.range' (idx + 1) (n - 2)).map (list.getD · 0)).Pairwise
      (· ≤ ·) := by
  have hcons : list.getD idx 0 :: (List.range' (idx + 1) (n - 2)).map (list.getD · 0) =
      (List.range' idx (n - 2 + 1)).map (list.getD · 0) := by
    rw [List.range'_succ, List.map_cons]
  rw [hcons, List.pairwise_map]
  apply List.Pairwise.imp_of_mem _ List.pairwise_lt_range'
  intro a b ha hb hab
  have hb := List.mem_range'_1.mp hb
  rw [List.getD_eq_getElem _ _ (by omega), List.getD_eq_getElem _ _ (by omega)]
  exact Nat.le_of_lt (List.pairwise_iff_getElem.mp hsorted a b (by omega) (by omega) hab)

end

/-- The differences of a block are the gaps of what stands inside it. -/
theorem blockValues_eq (list : List Nat) (idx n : Nat) :
    blockValues list idx n = list.getD idx 0 :: list.getD (idx + n - 1) 0 ::
      GapCost.gaps (list.getD idx 0)
        ((List.range' (idx + 1) (n - 2)).map (list.getD · 0)) := by
  rw [blockValues, GapCost.gaps_map_range' (list.getD · 0), ← List.map_add_range', List.map_map]
  rfl

/-! ## Section 5: One vertex -/

section

variable {c : Config} (hc : RangeEncode.Worded c) (hsize : c.vertexSize + 1 < 2 ^ 28)
  {ids : List Nat} (hids : IdList c ids) (hdistinct : ids.Pairwise (· < ·))
include hc hsize hids hdistinct

omit hc hsize hids hdistinct in
theorem exists_getD_extended {x : Nat} (hx : x ∈ ids) :
    ∃ t < ids.length + 2, (0 :: ids ++ [c.vertexSize + 1]).getD t 0 = x := by
  obtain ⟨t, ht, heq⟩ := List.getElem_of_mem hx
  refine ⟨t + 1, by omega, ?_⟩
  rw [List.cons_append, List.getD_cons_succ, List.getD_append _ _ _ _ ht,
    List.getD_eq_getElem _ _ ht, heq]

omit hc hsize in
/-- The ids between their bounds. -/
theorem extended_spec : (0 :: ids ++ [c.vertexSize + 1]).Pairwise (· < ·) ∧
    (∀ x ∈ 0 :: ids ++ [c.vertexSize + 1], x ≤ c.vertexSize + 1) ∧
    ∀ t, (0 < t ∧ t ≤ ids.length) →
      (0 :: ids ++ [c.vertexSize + 1]).getD t 0 ∈ ids :=
  ⟨RangeCompEncode.extended_pairwise hids hdistinct id, RangeCompEncode.extended_le hids,
    fun _ ht => RangeCompEncode.extended_getD_mem ht.1 ht.2⟩

omit hc in
/-- The `uint32_t` sum of the bits does not wrap around. -/
theorem getRequiredBits_distinct : getRequiredBits ids = fullBits ids := by
  have hsub := GapCost.sublist_range' hdistinct hids
  have hle := fullBits_sublist hsub (List.pairwise_le_range' 1)
  rw [fullBits_range'] at hle
  rw [getRequiredBits_eq (hdistinct.imp Nat.le_of_lt)
    fun x hx => by have := (hids x hx).2; omega]
  exact Nat.mod_eq_of_lt (by omega)

omit hsize hids hdistinct in
/-- A list that does not fit has three ids or more. -/
theorem two_lt_length (hlong : RangeCompEncode.maxBits c < fullBits ids) : 2 < ids.length := by
  have hge := RangeCompEncode.maxBits_ge hc
  have hle : ∀ (ids : List Nat) (pre : Nat),
      GapCost.cost integerBits pre ids ≤ 32 * ids.length := by
    intro ids
    induction ids with
    | nil => exact fun pre => Nat.le_refl _
    | cons id ids ih =>
      intro pre
      have h₁ := ih id
      have h₂ := VbyteComp.integerBits_le (id - pre)
      rw [GapCost.cost_cons, List.length_cons]
      omega
  have hbound := hle ids 0
  unfold fullBits at hlong
  omega

/-- The search of a list that does not fit ends with a block. -/
theorem good_extended (hlong : RangeCompEncode.maxBits c < fullBits ids) :
    Good c (0 :: ids ++ [c.vertexSize + 1]) RangeCompEncode.shift
      (search c (0 :: ids ++ [c.vertexSize + 1]) RangeCompEncode.shift) := by
  have hlen := two_lt_length hc hlong
  have hge := RangeCompEncode.maxBits_ge hc
  have hper := RangeCompEncode.perEncodeBitSize_eq hc
  obtain ⟨hsorted, hle, -⟩ := extended_spec hids hdistinct
  apply search_good hsorted (fun x hx => by have := hle x hx; omega)
    (by simp; omega) (RangeCompEncode.perEncodeBitSize_le hc)
  unfold RangeCompEncode.shift
  omega

/-- The record of a list that fits. -/
theorem exists_encodeBitsAt_full (hfit : fullBits ids ≤ RangeCompEncode.maxBits c)
    {bs : BitSetSIMD} (hrec : IsRecord c bs) :
    ∃ bs', RangeCompEncode.encodeBitsAt c (codec c) ids bs = some bs' ∧
      Stores c true (GapCost.gaps 0 ids) bs' := by
  have hbits := getRequiredBits_distinct hsize hids hdistinct
  obtain ⟨bs', hbs, hstores⟩ := VbyteComp.exists_stores hc true (GapCost.gaps 0 ids) hfit
  refine ⟨bs', ?_, hstores⟩
  have hreq : (codec c).getRequiredBits ids ≤ RangeCompEncode.maxBits c := by
    change getRequiredBits ids ≤ _
    omega
  rw [RangeCompEncode.encodeBitsAt_eq hc _ _ hrec, if_pos hreq]
  change VbyteComp.encode (getDeltas ids) _ _ = _
  rw [getDeltas_eq (hdistinct.imp Nat.le_of_lt) fun x hx => by
    have := (hids x hx).2
    omega]
  exact hbs

/-- The record of a list that does not fit: a block between the bounds. -/
theorem exists_encodeBitsAt_block (hlong : RangeCompEncode.maxBits c < fullBits ids)
    {bs : BitSetSIMD} (hrec : IsRecord c bs) :
    ∃ bs' idx n, RangeCompEncode.encodeBitsAt c (codec c) ids bs = some bs' ∧
      2 ≤ n ∧ idx + n < ids.length + 2 ∧
      Stores c false (blockValues (0 :: ids ++ [c.vertexSize + 1]) idx n) bs' := by
  have hbits := getRequiredBits_distinct hsize hids hdistinct
  have hgood := good_extended hc hsize hids hdistinct hlong
  obtain ⟨hsorted, hle, -⟩ := extended_spec hids hdistinct
  have hper := RangeCompEncode.perEncodeBitSize_eq hc
  have hfits := hgood.fits
  have hend := hgood.lt_length
  rw [show (0 :: ids ++ [c.vertexSize + 1]).length = ids.length + 2 by simp] at hend
  unfold RangeCompEncode.shift at hfits
  obtain ⟨bs', hbs, hstores⟩ := VbyteComp.exists_stores hc false (blockValues
    (0 :: ids ++ [c.vertexSize + 1])
    (search c (0 :: ids ++ [c.vertexSize + 1]) RangeCompEncode.shift).idx
    (search c (0 :: ids ++ [c.vertexSize + 1]) RangeCompEncode.shift).bestBlock)
    (by unfold RangeCompEncode.shift; omega)
  refine ⟨bs', _, _, ?_, hgood.two_le, hend, hstores⟩
  have hreq : ¬ (codec c).getRequiredBits ids ≤ RangeCompEncode.maxBits c := by
    change ¬ getRequiredBits ids ≤ _
    omega
  rw [RangeCompEncode.encodeBitsAt_eq hc _ _ hrec, if_neg hreq, RangeEncode.vertexIdUpper_eq hc]
  change dynamicEncode c _ _ _ = _
  rw [dynamicEncode_eq hsorted (fun x hx => by have := hle x hx; omega) hgood]
  exact hbs

/-- What the record of a list that fits answers. -/
theorem testBitsAt_full {bs : BitSetSIMD} (h : Stores c true (GapCost.gaps 0 ids) bs) {w : Nat}
    (hw : 1 ≤ w) :
    RangeCompEncode.testBitsAt (codec c) bs w = some (verdict (decide (w ∈ ids))) := by
  have hlt : ∀ x ∈ 0 :: ids, x < 2 ^ 28 := by
    intro x hx
    rcases List.mem_cons.mp hx with rfl | hx
    · decide
    · have := (hids x hx).2
      omega
  have hsorted : (0 :: ids).Pairwise (· ≤ ·) :=
    List.pairwise_cons.mpr ⟨fun _ _ => Nat.zero_le _, hdistinct.imp Nat.le_of_lt⟩
  have hgaps := gaps_lt hlt
  rw [RangeCompEncode.testBitsAt, h.flag]
  obtain ⟨k, hfind⟩ := h.findWith_true hgaps next w hc
  refine hfind.trans ?_
  rw [found_readings hsorted (fun x hx => Nat.lt_trans (hlt x hx) (by decide)) hw]

/-- What the record of a block answers. -/
theorem testBitsAt_block {idx n : Nat} (htwo : 2 ≤ n) (hend : idx + n < ids.length + 2)
    {bs : BitSetSIMD}
    (h : Stores c false (blockValues (0 :: ids ++ [c.vertexSize + 1]) idx n) bs) {w : Nat}
    (hw : 1 ≤ w) :
    ∃ type, RangeCompEncode.testBitsAt (codec c) bs w = some type ∧
      (type = .neighbor → w ∈ ids) ∧ (type = .nonNeighbor → w ∉ ids) := by
  obtain ⟨hsorted, hle, hget⟩ := extended_spec hids hdistinct
  have hmem : ∀ x ∈ ids, ∃ t < ids.length + 2,
      (0 :: ids ++ [c.vertexSize + 1]).getD t 0 = x :=
    fun x hx => exists_getD_extended hx
  have hzero : (0 :: ids ++ [c.vertexSize + 1]).getD 0 0 = 0 := rfl
  have hlen : (0 :: ids ++ [c.vertexSize + 1]).length = ids.length + 2 := by simp
  rw [blockValues_eq] at h
  generalize 0 :: ids ++ [c.vertexSize + 1] = list at h hsorted hle hget hmem hzero hlen
  have hbound : ∀ t < ids.length + 2, list.getD t 0 < 2 ^ 28 := by
    intro t ht
    rw [List.getD_eq_getElem _ _ (by omega)]
    have := hle _ (List.getElem_mem (show t < list.length by omega))
    omega
  -- the ids inside the block, ascending from the minimum
  have hinner : ∀ x ∈ (List.range' (idx + 1) (n - 2)).map (list.getD · 0),
      ∃ t, idx < t ∧ t ≤ ids.length ∧ list.getD t 0 = x := by
    intro x hx
    obtain ⟨t, ht, rfl⟩ := List.mem_map.mp hx
    have ht := List.mem_range'_1.mp ht
    exact ⟨t, by omega, by omega, rfl⟩
  have hascending := pairwise_inner hsorted htwo (show idx + n ≤ list.length by omega)
  have hlt : ∀ x ∈ list.getD idx 0 :: (List.range' (idx + 1) (n - 2)).map (list.getD · 0),
      x < 2 ^ 28 := by
    intro x hx
    rcases List.mem_cons.mp hx with rfl | hx
    · exact hbound idx (by omega)
    · obtain ⟨t, -, ht, rfl⟩ := hinner x hx
      exact hbound t (by omega)
  obtain ⟨k, hfind⟩ := h.findWith_false hc
    (by
      intro x hx
      rcases List.mem_cons.mp hx with rfl | hx
      · exact hbound idx (by omega)
      · rcases List.mem_cons.mp hx with rfl | hx
        · exact hbound _ (by omega)
        · exact gaps_lt hlt x hx) next w
  refine ⟨_, by rw [RangeCompEncode.testBitsAt, h.flag]; exact hfind, ?_⟩
  by_cases hends : w = list.getD idx 0 ∨ w = list.getD (idx + n - 1) 0
  · -- an end of the block is not the lower bound
    rw [if_pos hends]
    refine ⟨fun _ => ?_, fun hnot => (by cases hnot)⟩
    rcases hends with rfl | rfl
    · rcases Nat.eq_zero_or_pos idx with rfl | hpos
      · omega
      · exact hget idx (by omega)
    · exact hget _ (by omega)
  · rw [if_neg hends]
    by_cases hout : w < list.getD idx 0 ∨ list.getD (idx + n - 1) 0 < w
    · rw [if_pos hout]
      exact ⟨fun hnot => (by cases hnot), fun hnot => (by cases hnot)⟩
    · rw [if_neg hout, found_readings hascending
        (fun x hx => Nat.lt_trans (hlt x hx) (by decide)) (by omega)]
      refine ⟨fun hneighbor => ?_, fun hnot hstored => ?_⟩
      · obtain ⟨t, ht, ht', rfl⟩ := hinner w
          (of_decide_eq_true (RangeCompEncode.verdict_eq_neighbor.mp hneighbor))
        exact hget t (by omega)
      · obtain ⟨t, ht, rfl⟩ := hmem w hstored
        have hin := (@mem_inner_iff list hsorted idx n t htwo (by omega) (by omega)).mpr
          ⟨by omega, by omega⟩
        rw [decide_eq_true hin] at hnot
        cases hnot

end

/-- Whatever the records held before, the vertex is encoded with all accesses inside the list
    and the record, the assertion behind the search holds, and the record is exact up to
    `Uncertain`. -/
def DeltaExact (c : Config) (v : Nat) (ids : List Nat) : Prop :=
  ∀ encodes : Records, encodes.Built c →
    ∃ encodes', RangeCompEncode.encodeVertexAt c (codec c) v ids encodes = some encodes' ∧
      (RangeCompEncode.maxBits c < getRequiredBits ids →
        2 ≤ (search c (0 :: ids ++ [c.vertexIdUpper]) RangeCompEncode.shift).bestBlock) ∧
      ∀ w, 1 ≤ w → w ≤ c.vertexSize → ∃ type,
        RangeCompEncode.nonNeighborTestAt (codec c) encodes' v w = some type ∧
        (type = .neighbor → w ∈ ids) ∧ (type = .nonNeighbor → w ∉ ids) ∧
        (type = .uncertain → RangeCompEncode.maxBits c < fullBits ids)

theorem deltaExact_of_distinct {c : Config} (hk : 3 ≤ c.kSize) (hk' : c.kSize ≤ 64)
    (hsize : c.vertexSize + 1 < 2 ^ 28) {v : Nat} (hv : v ≤ c.vertexSize) {ids : List Nat}
    (hids : IdList c ids) (hdistinct : ids.Pairwise (· < ·)) : DeltaExact c v ids := by
  have hc : RangeEncode.Worded c := ⟨hk, hk', by omega⟩
  have hupper := RangeEncode.vertexIdUpper_eq hc
  have hbits := getRequiredBits_distinct hsize hids hdistinct
  intro encodes hbuilt
  have hlt := hbuilt.lt_length hc.vertexSize_lt hv
  have hrec := hbuilt.record hlt
  rw [hupper, hbits]
  by_cases hfit : fullBits ids ≤ RangeCompEncode.maxBits c
  · obtain ⟨bs, hencode, hstores⟩ := exists_encodeBitsAt_full hc hsize hids hdistinct hfit hrec
    obtain ⟨encodes', heq, hrecord⟩ := RangeCompEncode.encodeVertexAt_eq_some hlt hencode
    refine ⟨encodes', heq, fun hlong => absurd hlong (by omega), fun w hw hw' => ?_⟩
    refine ⟨verdict (decide (w ∈ ids)), ?_, ?_, ?_, ?_⟩
    · rw [RangeCompEncode.nonNeighborTestAt, hrecord]
      exact testBitsAt_full hc hsize hids hdistinct hstores hw
    · intro hneighbor
      exact of_decide_eq_true (RangeCompEncode.verdict_eq_neighbor.mp hneighbor)
    · intro hnot hmem
      rw [decide_eq_true hmem] at hnot
      cases hnot
    · exact fun huncertain => absurd huncertain (RangeCompEncode.verdict_ne_uncertain _)
  · have hlong : RangeCompEncode.maxBits c < fullBits ids := by omega
    obtain ⟨bs, idx, n, hencode, htwo, hend, hstores⟩ :=
      exists_encodeBitsAt_block hc hsize hids hdistinct hlong hrec
    obtain ⟨encodes', heq, hrecord⟩ := RangeCompEncode.encodeVertexAt_eq_some hlt hencode
    have hgood := good_extended hc hsize hids hdistinct hlong
    refine ⟨encodes', heq, fun _ => hgood.two_le, fun w hw hw' => ?_⟩
    rw [RangeCompEncode.nonNeighborTestAt, hrecord]
    obtain ⟨type, htest, hneighbor, hnot⟩ :=
      testBitsAt_block hc hsize hids hdistinct htwo hend hstores hw
    exact ⟨type, htest, hneighbor, hnot, fun _ => hlong⟩

/-- Ten bytes of differences on eight bytes. -/
theorem deltaExact_nine : RangeCompEncode.maxBits VbyteComp.eightBytes <
      fullBits [1, 2, 3, 4, 5, 6, 7, 8, 300] ∧
    DeltaExact VbyteComp.eightBytes 10 [1, 2, 3, 4, 5, 6, 7, 8, 300] := by
  have hids : IdList VbyteComp.eightBytes [1, 2, 3, 4, 5, 6, 7, 8, 300] := by
    unfold IdList
    decide
  exact ⟨by decide, @deltaExact_of_distinct VbyteComp.eightBytes (by decide) (by decide) (by decide)
    10 (by decide) _ hids (by decide)⟩

end VbyteDeltaComp

end Vend
