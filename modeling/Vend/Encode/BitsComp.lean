import Vend.Encode.Compression
import Vend.Encode.RangeCompEncode
import Vend.Lib.BestSearch
import Vend.Lib.OrderedSearch
import Vend.Lib.WidestRun

/-! # `BitsComp`

    `encode/single/compression.h`: ids in fields of `VERTEX_BIT_SIZE` bits.

    `Find` stops before a field that ends at the end of the record, so the last id of a list
    that fills the record is not found. `DynamicEncode` does not move on after the minimum
    and writes over it twice; what it leaves are the inner ids of its window, and their first
    two are read as minimum and maximum. Between these two there is no id, so the record
    still says nothing false. `bitsExact_iff` has the exact condition.
-/

namespace Vend

namespace BitsComp

open BitField BitSetSIMD
open RangeCompEncode (verdict verdict_eq_neighbor verdict_ne_uncertain)

/-! ## Section 1: Model -/

/-- `max_nums_`. -/
def maxNums (c : Config) : Nat := RangeCompEncode.maxBits c / c.vertexBitSize

/-- `Encode(list, encode, shift)`. -/
def encode (c : Config) (list : List Nat) (bs : BitSetSIMD) (shift : Nat) : Option BitSetSIMD :=
  bs.blockSetFields shift (list.map fun v => (c.vertexBitSize, v))

/-- `size - max_nums_ + 1`, where `int size` is converted to a `uint32_t`. -/
def searchBound (c : Config) (list : List Nat) : Nat :=
  (list.length % 2 ^ 32 + (2 ^ 32 - maxNums c) + 1) % 2 ^ 32

/-- The score of the window at `i`. -/
def score (c : Config) (list : List Nat) (i : Nat) : Nat :=
  sub32 (list.getD (i + maxNums c - 1) 0) (list.getD i 0)

/-- The search of `DynamicEncode`; `none` is the index -1. -/
def search (c : Config) (list : List Nat) : Option Nat :=
  ((List.range (searchBound c list)).foldl (BestSearch.keepFirst (score c list)) (none, 0)).1

/-- `DynamicEncode(list, encode, shift)`. The loops over `int i` and the sum `i + idx` must
    not pass the largest `int`, and `list[-1]` is no element. -/
def dynamicEncode (c : Config) (list : List Nat) (bs : BitSetSIMD) (shift : Nat) :
    Option BitSetSIMD :=
  if 2 ^ 31 ≤ searchBound c list then none
  else
    (search c list).bind fun idx =>
      -- the loop over the inner ids counts up to `max_nums_ - 2`, and `i + idx` is an `int`
      if maxNums c ≤ 2 ∨ 2 ^ 31 ≤ idx + (maxNums c - 2) then none
      else
        -- the minimum and the maximum are written to one place, and the others from there on
        (bs.blockSetAt shift c.vertexBitSize (list.getD idx 0)).bind fun bs =>
          (bs.blockSetAt shift c.vertexBitSize (list.getD (idx + maxNums c - 1) 0)).bind fun bs =>
            bs.blockSetFields shift ((List.range' 1 (maxNums c - 2)).map fun i =>
              (c.vertexBitSize, list.getD (i + idx) 0))

/-- The loops of `Find`. -/
def findLoop (c : Config) (bs : BitSetSIMD) (value : Nat) : Nat → Nat → Option PairType
  | 0, _ => none
  | rounds + 1, shift =>
    -- a field that ends at the end of the record is not looked at
    if shift + c.vertexBitSize < c.perEncodeBitSize then
      let compare := bs.blockGet shift c.vertexBitSize
      if value = compare then some .neighbor
      else if value < compare then some .nonNeighbor
      else findLoop c bs value rounds (shift + c.vertexBitSize)
    else some .nonNeighbor

/-- `Find(value, encode, shift, not_partial)`. -/
def find (c : Config) (value : Nat) (bs : BitSetSIMD) (shift : Nat) (notPartial : Bool) :
    Option PairType :=
  if notPartial then findLoop c bs value (c.perEncodeBitSize + 1) shift
  else
    -- the first two fields are taken for the minimum and the maximum
    let min := bs.blockGet shift c.vertexBitSize
    let max := bs.blockGet (shift + c.vertexBitSize) c.vertexBitSize
    if value = min ∨ value = max then some .neighbor
    else if value < min ∨ max < value then some .uncertain
    else findLoop c bs value (c.perEncodeBitSize + 1) (shift + c.vertexBitSize + c.vertexBitSize)

/-- `BitsComp` behind the pointer to `Compression`. -/
def codec (c : Config) : CompressionAt where
  getRequiredBits := getRequiredBits c
  encode := encode c
  dynamicEncode := dynamicEncode c
  find := find c

/-! ## Section 2: Slots -/

/-- Both bounds of the ids fit in a field. -/
structure Fielded (c : Config) : Prop where
  kSize_ge : 3 ≤ c.kSize
  kSize_le : c.kSize ≤ 64
  vertexSize_lt : c.vertexSize + 1 < 2 ^ c.vertexBitSize

/-- There are three fields behind the flag. -/
structure Packed (c : Config) : Prop extends Fielded c where
  maxNums_ge : 3 ≤ maxNums c

/-- Field `k` behind the flag. -/
def slot (c : Config) (bs : BitSetSIMD) (k : Nat) : Nat :=
  bs.blockGet (RangeCompEncode.shift + k * c.vertexBitSize) c.vertexBitSize

/-- The number of fields that end before the end of the record. -/
def readable (c : Config) : Nat := (RangeCompEncode.maxBits c - 1) / c.vertexBitSize

section

variable {c : Config} (hc : Fielded c)
include hc

theorem Fielded.worded : RangeEncode.Worded c := by
  refine ⟨hc.kSize_ge, hc.kSize_le, Nat.lt_of_lt_of_le hc.vertexSize_lt ?_⟩
  exact Nat.pow_le_pow_right (by decide) c.vertexBitSize_le

theorem vertexBitSize_pos : 0 < c.vertexBitSize := by
  rcases Nat.eq_zero_or_pos c.vertexBitSize with hzero | hpos
  · have hlt := hc.vertexSize_lt
    rw [hzero] at hlt
    omega
  · exact hpos

/-- The fields that `Find` looks at from field `j` on. -/
theorem findLoop_eq (bs : BitSetSIMD) (value : Nat) {rounds j : Nat}
    (hrounds : readable c - j < rounds) :
    findLoop c bs value rounds (RangeCompEncode.shift + j * c.vertexBitSize) =
      some (verdict
        (OrderedSearch.found value ((List.range' j (readable c - j)).map (slot c bs)))) := by
  have hpos := vertexBitSize_pos hc
  have hge := RangeCompEncode.maxBits_ge hc.worded
  have hper := RangeCompEncode.perEncodeBitSize_eq hc.worded
  -- the condition of the loop, counted in fields
  have hinside : ∀ j, RangeCompEncode.shift + j * c.vertexBitSize + c.vertexBitSize <
      c.perEncodeBitSize ↔ j < readable c := by
    intro j
    have hiff := Nat.le_div_iff_mul_le hpos (x := j + 1) (y := RangeCompEncode.maxBits c - 1)
    rw [Nat.add_mul, Nat.one_mul] at hiff
    unfold readable RangeCompEncode.shift
    omega
  induction rounds generalizing j with
  | zero => omega
  | succ rounds ih =>
    rw [findLoop]
    by_cases hj : j < readable c
    · -- one field more; the rest of the list is searched from the next field on
      have hnext : RangeCompEncode.shift + j * c.vertexBitSize + c.vertexBitSize =
          RangeCompEncode.shift + (j + 1) * c.vertexBitSize := by ring
      rw [if_pos ((hinside j).mpr hj), show readable c - j = readable c - (j + 1) + 1 by omega,
        List.range'_succ, List.map_cons, OrderedSearch.found, hnext, ih (by omega)]
      change (if value = slot c bs j then _ else if value < slot c bs j then _ else _) = _
      split
      · rfl
      · split <;> rfl
    · rw [if_neg (mt (hinside j).mp hj), show readable c - j = 0 by omega]
      rfl

/-! ## Section 3: Records -/

omit hc in
/-- A record with its flag, numbers in the fields behind it and zeros behind these. -/
structure Holds (c : Config) (flag : Bool) (values : List Nat) (bs : BitSetSIMD) : Prop where
  getFlag_eq : RangeCompEncode.getFlag bs = flag
  slot_eq : ∀ k, (k + 1) * c.vertexBitSize ≤ RangeCompEncode.maxBits c →
    slot c bs k = values.getD k 0

/-- The fields are written behind the flag on bits that are cleared behind them. -/
theorem exists_holds {flag : Bool} {values : List Nat} {bs : BitSetSIMD}
    (hlen : bs.bitLength = c.perEncodeBitSize)
    (hroom : values.length * c.vertexBitSize ≤ RangeCompEncode.maxBits c)
    (hvalues : ∀ v ∈ values, v < 2 ^ c.vertexBitSize)
    (hflag : ∀ p < 32, bs.bit p = (RangeCompEncode.flagged c flag).bit p)
    (hzero : ∀ p, 32 + values.length * c.vertexBitSize ≤ p → bs.bit p = false) :
    ∃ bs', bs.blockSetFields RangeCompEncode.shift
        (values.map fun v => (c.vertexBitSize, v)) = some bs' ∧ Holds c flag values bs' := by
  have hpos := vertexBitSize_pos hc
  have hle := c.vertexBitSize_le
  have hper := RangeCompEncode.perEncodeBitSize_eq hc.worded
  have hper' := RangeCompEncode.perEncodeBitSize_le hc.worded
  obtain ⟨hread, hrest⟩ := bit_blockSetList hpos (by omega) bs 32 hvalues (by omega) (by omega)
  refine ⟨_, blockSetFields_const bs (by unfold RangeCompEncode.shift; omega), ?_, ?_⟩
  · apply RangeCompEncode.getFlag_of_bit hc.worded
    intro p hp
    rw [← hflag p hp]
    exact hrest p (Or.inl hp)
  · intro k hk
    rw [slot, blockGet_eq _ hpos hle]
    by_cases hlt : k < values.length
    · rw [List.getD_eq_getElem _ _ hlt]
      exact hread k hlt
    · -- behind the values the record is still cleared
      rw [List.getD_eq_default _ _ (by omega)]
      have hmul := Nat.mul_le_mul_right c.vertexBitSize (Nat.not_lt.mp hlt)
      apply field_eq_zero
      intro p hp _
      unfold RangeCompEncode.shift at hp
      rw [← hzero p (by omega)]
      exact hrest p (Or.inr (by omega))

/-- The readable fields of a record: its numbers up to there, and zeros. -/
theorem Holds.map_slot {flag : Bool} {values : List Nat} {bs : BitSetSIMD}
    (h : Holds c flag values bs) (j : Nat) :
    (List.range' j (readable c - j)).map (slot c bs) =
      (values.take (readable c)).drop j ++
        List.replicate (readable c - max j values.length) 0 := by
  have hpos := vertexBitSize_pos hc
  apply List.ext_getElem
  · simp
    omega
  · intro i h₁ h₂
    rw [List.length_map, List.length_range'] at h₁
    have hk : (j + i + 1) * c.vertexBitSize ≤ RangeCompEncode.maxBits c := by
      have hmul := (Nat.le_div_iff_mul_le hpos (x := j + i + 1)
        (y := RangeCompEncode.maxBits c - 1)).mp (by unfold readable at h₁; omega)
      omega
    rw [List.getElem_map, List.getElem_range', Nat.one_mul, h.slot_eq _ hk]
    by_cases hin : j + i < values.length
    · rw [List.getElem_append_left (by simp; omega), List.getElem_drop, List.getElem_take,
        List.getD_eq_getElem _ _ hin]
    · rw [List.getElem_append_right (by simp; omega), List.getElem_replicate,
        List.getD_eq_default _ _ (by omega)]

/-- The search from field `j` on: the zeros behind the numbers are passed over. -/
theorem Holds.findLoop_eq {flag : Bool} {values : List Nat} {bs : BitSetSIMD}
    (h : Holds c flag values bs) {w : Nat} (hw : 1 ≤ w) (j : Nat) {rounds : Nat}
    (hrounds : readable c < rounds) :
    findLoop c bs w rounds (RangeCompEncode.shift + j * c.vertexBitSize) =
      some (verdict (OrderedSearch.found w ((values.take (readable c)).drop j))) := by
  -- the fields behind the numbers are zero, and ids begin with 1
  have hpad : ∀ y ∈ List.replicate (readable c - max j values.length) 0,
      y < w ∨ ∃ x ∈ (values.take (readable c)).drop j, y ≤ x := by
    intro y hy
    rw [List.eq_of_mem_replicate hy]
    exact Or.inl hw
  rw [BitsComp.findLoop_eq hc _ _ (by omega), h.map_slot hc, OrderedSearch.found_append hpad]

theorem readable_lt : readable c < c.perEncodeBitSize + 1 := by
  have hper := RangeCompEncode.perEncodeBitSize_eq hc.worded
  have hle : readable c ≤ RangeCompEncode.maxBits c - 1 := Nat.div_le_self _ _
  omega

/-! ## Section 4: Lists that fit -/

/-- The record of a list that fits. -/
theorem exists_encode {ids : List Nat} (hids : IdList c ids)
    (hfit : ids.length * c.vertexBitSize ≤ RangeCompEncode.maxBits c) :
    ∃ bs, encode c ids (RangeCompEncode.flagged c true) RangeCompEncode.shift = some bs ∧
      Holds c true ids bs := by
  refine exists_holds hc (RangeCompEncode.bitLength_flagged hc.worded true) hfit (fun v hv => ?_)
    (fun p _ => rfl) fun p hp => RangeCompEncode.bit_flagged_of_ge hc.worded true (by omega)
  have hlt := hc.vertexSize_lt
  have hle := (hids v hv).2
  omega

/-- `EncodeVertex` of a list that fits. -/
theorem encodeBitsAt_of_fits {ids : List Nat} (hids : IdList c ids) {bs : BitSetSIMD}
    (hrec : IsRecord c bs) (hfit : ids.length * c.vertexBitSize ≤ RangeCompEncode.maxBits c) :
    ∃ bs', RangeCompEncode.encodeBitsAt c (codec c) ids bs = some bs' ∧ Holds c true ids bs' := by
  have hper := RangeCompEncode.perEncodeBitSize_eq hc.worded
  have hper' := RangeCompEncode.perEncodeBitSize_le hc.worded
  have hreq : (codec c).getRequiredBits ids ≤ RangeCompEncode.maxBits c := by
    change getRequiredBits c ids ≤ _
    -- the product is below the size of a record, so it does not wrap around
    rw [getRequiredBits, Nat.mod_eq_of_lt (by omega)]
    exact hfit
  rw [RangeCompEncode.encodeBitsAt_eq hc.worded _ _ hrec, if_pos hreq]
  exact exists_encode hc hids hfit

/-- A list that fits is answered by its readable part. -/
theorem Holds.testBitsAt_true {ids : List Nat} (hsorted : ids.Pairwise (· ≤ ·))
    {bs : BitSetSIMD} (h : Holds c true ids bs) {w : Nat} (hw : 1 ≤ w) :
    RangeCompEncode.testBitsAt (codec c) bs w =
      some (verdict (decide (w ∈ ids.take (readable c)))) := by
  have hfind := h.findLoop_eq hc hw 0 (readable_lt hc)
  simp only [Nat.zero_mul, Nat.add_zero, List.drop_zero] at hfind
  rw [RangeCompEncode.testBitsAt, h.getFlag_eq]
  change find c w bs RangeCompEncode.shift true = _
  rw [find, if_pos rfl, hfind]
  congr 2
  rw [Bool.eq_iff_iff, OrderedSearch.found_iff (hsorted.sublist (List.take_sublist _ _)),
    decide_eq_true_eq]

/-- A list that leaves a bit of the record unused is readable to its end. -/
theorem length_le_readable_iff (n : Nat) :
    n ≤ readable c ↔ n * c.vertexBitSize < RangeCompEncode.maxBits c := by
  have hge := RangeCompEncode.maxBits_ge hc.worded
  rw [readable, Nat.le_div_iff_mul_le (vertexBitSize_pos hc)]
  omega

/-- A list that fills the record is readable up to its last id. -/
theorem readable_of_eq {n : Nat} (hn : n * c.vertexBitSize = RangeCompEncode.maxBits c) :
    readable c = n - 1 := by
  have hpos := vertexBitSize_pos hc
  have hge := RangeCompEncode.maxBits_ge hc.worded
  have hiff := length_le_readable_iff hc
  have hnot := mt (hiff n).mp (by omega)
  obtain ⟨m, rfl⟩ : ∃ m, n = m + 1 :=
    Nat.exists_eq_add_one.mpr (Nat.pos_of_ne_zero fun hz => by rw [hz] at hn; omega)
  rw [Nat.add_mul, Nat.one_mul] at hn
  have hm := (hiff m).mpr (by omega)
  omega

omit hc in
/-- The last id of an ascending list stands before it once more exactly when the last two are
    equal. -/
theorem subset_take_iff {ids : List Nat} (hsorted : ids.Pairwise (· ≤ ·)) (hlen : 2 ≤ ids.length) :
    (∀ w ∈ ids, w ∈ ids.take (ids.length - 1)) ↔
      ids.getD (ids.length - 2) 0 = ids.getD (ids.length - 1) 0 := by
  have hle := List.pairwise_iff_getElem.mp hsorted
  rw [List.getD_eq_getElem _ _ (by omega), List.getD_eq_getElem _ _ (by omega)]
  constructor
  · intro h
    obtain ⟨j, hj, heq⟩ := List.mem_iff_getElem.mp (h ids[ids.length - 1] (List.getElem_mem _))
    rw [List.length_take] at hj
    rw [List.getElem_take] at heq
    have hlast := hle (ids.length - 2) (ids.length - 1) (by omega) (by omega) (by omega)
    -- the other place of the last id is at or before the last but one
    rcases Nat.lt_or_ge j (ids.length - 2) with hlt | hge
    · have hfront := hle j (ids.length - 2) (by omega) (by omega) hlt
      omega
    · rw [← heq]
      congr 1
      omega
  · intro heq w hw
    obtain ⟨j, hj, rfl⟩ := List.mem_iff_getElem.mp hw
    rcases Nat.lt_or_ge j (ids.length - 1) with hlt | hge
    · exact List.mem_take_iff_getElem.mpr ⟨j, lt_min hlt hj, rfl⟩
    · have hend : ids[j] = ids[ids.length - 2] := by
        rw [heq]
        congr 1
        omega
      rw [hend]
      exact List.mem_take_iff_getElem.mpr ⟨ids.length - 2, lt_min (by omega) (by omega), rfl⟩

end

/-! ## Section 5: Lists that do not fit -/

section

variable {c : Config} (hc : Packed c)
include hc

omit hc in
/-- The search sees less than `2^31` windows, and some widest one of them takes its inner ids
    from the first `2^31` elements. -/
def SearchFits (c : Config) (list : List Nat) : Prop :=
  searchBound c list < 2 ^ 31 ∧
    ∃ p < searchBound c list,
      (∀ q < searchBound c list,
        WidestRun.width (maxNums c) list q ≤ WidestRun.width (maxNums c) list p) ∧
      p + (maxNums c - 2) < 2 ^ 31

omit hc in
/-- The inner ids of the window at `idx`. -/
def inner (c : Config) (list : List Nat) (idx : Nat) : List Nat :=
  (List.range' 1 (maxNums c - 2)).map fun i => list.getD (i + idx) 0

theorem maxNums_le : maxNums c ≤ 2016 := by
  have hper := RangeCompEncode.perEncodeBitSize_eq hc.worded
  have hper' := RangeCompEncode.perEncodeBitSize_le hc.worded
  have hle : maxNums c ≤ RangeCompEncode.maxBits c := Nat.div_le_self _ _
  omega

/-- The windows of a search that counts with an `int` end inside the list. -/
theorem searchBound_add_le {list : List Nat} (hlt : searchBound c list < 2 ^ 31) :
    searchBound c list + maxNums c ≤ list.length + 1 := by
  have hmax := maxNums_le hc
  have hge := hc.maxNums_ge
  unfold searchBound at hlt ⊢
  omega

section

variable {list : List Nat} (hsorted : list.Pairwise (· ≤ ·)) (hlt : ∀ x ∈ list, x < 2 ^ 32)
include hsorted hlt

/-- The score of a window is its width. -/
theorem score_eq (hint : searchBound c list < 2 ^ 31) {i : Nat} (hi : i < searchBound c list) :
    score c list i = WidestRun.width (maxNums c) list i := by
  have hend := searchBound_add_le hc hint
  have hge := hc.maxNums_ge
  have hle : list.getD i 0 ≤ list.getD (i + maxNums c - 1) 0 := by
    rw [List.getD_eq_getElem _ _ (by omega), List.getD_eq_getElem _ _ (by omega)]
    exact List.pairwise_iff_getElem.mp hsorted _ _ _ _ (by omega)
  exact sub32_of_le hle (getD_lt_of_forall (by decide) hlt _)

/-- A search that fits ends at a window, and no sum passes the largest `int`. -/
theorem exists_search (hfits : SearchFits c list)
    (hpos : 0 < WidestRun.width (maxNums c) list 0) :
    ∃ k, search c list = some k ∧ k < searchBound c list ∧ k + (maxNums c - 2) < 2 ^ 31 := by
  obtain ⟨hint, p, hp, hwidest, hnear⟩ := hfits
  have hscore := fun i => score_eq hc hsorted hlt hint (i := i)
  have hbest := BestSearch.firstBest_foldl (score c list) 0 (searchBound c list)
  -- the window at 0 is wider than the score that the search begins with
  have hzero := hwidest 0 (by omega)
  rw [search]
  generalize (List.range (searchBound c list)).foldl _ _ = best at hbest ⊢
  cases hbest with
  | none hle =>
    -- the window at the lower bound is not empty
    have hp' := hle p hp
    rw [hscore p hp] at hp'
    omega
  | @some k hk hbase hle hfirst =>
    refine ⟨k, rfl, hk, ?_⟩
    -- the search has not gone further than the window at `p`
    have hkp : k ≤ p := by
      by_contra hfar
      have hless := hfirst p (by omega)
      have hmost := hwidest k hk
      rw [hscore p hp, hscore k hk] at hless
      omega
    omega

/-- A search with a result fits. -/
theorem searchFits_of_dynamicEncode {bs bs' : BitSetSIMD} {shift : Nat}
    (h : dynamicEncode c list bs shift = some bs') : SearchFits c list := by
  have hge := hc.maxNums_ge
  unfold dynamicEncode at h
  split at h
  · cases h
  next hint =>
    have hint : searchBound c list < 2 ^ 31 := Nat.not_le.mp hint
    have hscore := fun i => score_eq hc hsorted hlt hint (i := i)
    have hbest := BestSearch.firstBest_foldl (score c list) 0 (searchBound c list)
    obtain ⟨k, hk, h⟩ := Option.bind_eq_some_iff.mp h
    rw [search] at hk
    generalize (List.range (searchBound c list)).foldl _ _ = best at hbest hk
    cases hbest with
    | none => cases hk
    | some hlt' hbase hle hfirst =>
      cases hk
      split at h
      · cases h
      next hnear =>
        -- the window where the search ended is a widest one
        refine ⟨hint, k, hlt', fun q hq => ?_, by omega⟩
        rw [← hscore q hq, ← hscore k hlt']
        exact hle q hq

end

/-- Less than `2^31` elements are no trouble for the search. -/
theorem searchFits_of_lt {list : List Nat} (hge : maxNums c ≤ list.length)
    (hlt : list.length < 2 ^ 31) : SearchFits c list := by
  have hmax := maxNums_le hc
  have hthree := hc.maxNums_ge
  have hbound : searchBound c list = list.length - maxNums c + 1 := by
    unfold searchBound
    omega
  have hbest := BestSearch.firstBest_foldl (WidestRun.width (maxNums c) list) 0
    (searchBound c list)
  refine ⟨by omega, ?_⟩
  generalize (List.range (searchBound c list)).foldl _ _ = best at hbest
  cases hbest with
  | none hle =>
    exact ⟨0, by omega, fun q hq => Nat.le_trans (hle q hq) (Nat.zero_le _), by omega⟩
  | @some k hk hbase hle hfirst => exact ⟨k, hk, hle, by omega⟩

/-- The record of a list that does not fit: the inner ids of a window. -/
theorem exists_dynamicEncode {list : List Nat} (hsorted : list.Pairwise (· ≤ ·))
    (hvalues : ∀ x ∈ list, x < 2 ^ c.vertexBitSize) (hfits : SearchFits c list)
    (hpos : 0 < WidestRun.width (maxNums c) list 0) :
    ∃ k bs, dynamicEncode c list (RangeCompEncode.flagged c false) RangeCompEncode.shift = some bs ∧
      k + maxNums c ≤ list.length ∧ Holds c false (inner c list k) bs := by
  have hvb := vertexBitSize_pos hc.toFielded
  have hle := c.vertexBitSize_le
  have hper := RangeCompEncode.perEncodeBitSize_eq hc.worded
  have hper' := RangeCompEncode.perEncodeBitSize_le hc.worded
  have hthree := hc.maxNums_ge
  have hlt : ∀ x ∈ list, x < 2 ^ 32 := fun x hx => Nat.lt_of_lt_of_le (hvalues x hx)
    (Nat.pow_le_pow_right (by decide) hle)
  have hroom : maxNums c * c.vertexBitSize ≤ RangeCompEncode.maxBits c := Nat.div_mul_le_self _ _
  have hmul : (maxNums c - 2) * c.vertexBitSize + 2 * c.vertexBitSize =
      maxNums c * c.vertexBitSize := by
    rw [← Nat.add_mul, Nat.sub_add_cancel (by omega)]
  have hfield : 1 * c.vertexBitSize ≤ (maxNums c - 2) * c.vertexBitSize :=
    Nat.mul_le_mul_right _ (by omega)
  obtain ⟨k, hsearch, hk, hnear⟩ := exists_search hc hsorted hlt hfits hpos
  have hend := searchBound_add_le hc hfits.1
  have hget : ∀ i, list.getD i 0 < 2 ^ c.vertexBitSize :=
    getD_lt_of_forall (Nat.two_pow_pos _) hvalues
  have hlen := RangeCompEncode.bitLength_flagged hc.worded false
  -- minimum and maximum go to the first field, which is written over afterwards
  have hset : ∀ (bs : BitSetSIMD) (i : Nat), bs.bitLength = c.perEncodeBitSize →
      bs.blockSetAt RangeCompEncode.shift c.vertexBitSize (list.getD i 0) =
        some (bs.blockSet RangeCompEncode.shift c.vertexBitSize (list.getD i 0)) ∧
      (bs.blockSet RangeCompEncode.shift c.vertexBitSize (list.getD i 0)).bit =
        store bs.bit 32 c.vertexBitSize (list.getD i 0) := by
    intro bs i hbs
    unfold RangeCompEncode.shift
    refine ⟨by rw [blockSetAt, if_pos (by omega)], ?_⟩
    exact bit_blockSet bs (by omega) hvb (by omega) (by omega) (hget i)
  obtain ⟨hmin, hminBit⟩ := hset _ k hlen
  obtain ⟨hmax, hmaxBit⟩ := hset _ (k + maxNums c - 1) ((bitLength_blockSet _ _ _ _).trans hlen)
  have hvals : (inner c list k).length = maxNums c - 2 := by
    rw [inner, List.length_map, List.length_range']
  obtain ⟨bs, hbs, hholds⟩ := @exists_holds c hc.toFielded false (inner c list k) _
    (((bitLength_blockSet _ _ _ _).trans (bitLength_blockSet _ _ _ _)).trans hlen)
    (by rw [hvals]; omega)
    (fun x hx => by
      obtain ⟨i, -, rfl⟩ := List.mem_map.mp hx
      exact hget _)
    (fun p hp => by
      rw [hmaxBit, store_outside _ (Or.inl hp), hminBit, store_outside _ (Or.inl hp)])
    (fun p hp => by
      rw [hvals] at hp
      rw [hmaxBit, store_outside _ (by omega), hminBit, store_outside _ (by omega)]
      exact RangeCompEncode.bit_flagged_of_ge hc.worded false (by omega))
  refine ⟨k, bs, ?_, by omega, hholds⟩
  have hint := hfits.1
  rw [dynamicEncode, if_neg (by omega), hsearch, Option.bind_some, if_neg (by omega), hmin,
    Option.bind_some, hmax, Option.bind_some, ← hbs, inner, List.map_map]
  rfl

omit hc in
/-- Nothing stands between neighbouring elements of an ascending list. -/
theorem not_mem_of_between {list : List Nat} (hsorted : list.Pairwise (· ≤ ·)) {k w : Nat}
    (hlow : list.getD k 0 < w) (hhigh : w < list.getD (k + 1) 0) : w ∉ list := by
  have hle := List.pairwise_iff_getElem.mp hsorted
  rcases Nat.lt_or_ge (k + 1) list.length with hin | hout
  · intro hmem
    obtain ⟨j, hj, rfl⟩ := List.mem_iff_getElem.mp hmem
    rw [List.getD_eq_getElem _ _ (by omega)] at hlow
    -- an element before, at or behind position `k`
    rcases Nat.lt_trichotomy j k with hlt | rfl | hgt
    · have hfront := hle j k hj (by omega) hlt
      omega
    · omega
    · rw [List.getD_eq_getElem _ _ hin] at hhigh
      rcases Nat.eq_or_lt_of_le (Nat.succ_le_of_lt hgt) with rfl | hlt
      · exact Nat.lt_irrefl _ hhigh
      · have hback := hle (k + 1) j hin hj hlt
        omega
  · rw [List.getD_eq_default _ _ hout] at hhigh
    omega

omit hc in
/-- The fields behind the flag are the inner ids, and the last two of them are empty. -/
theorem Holds.slot_inner {list : List Nat} {k : Nat} {bs : BitSetSIMD}
    (h : Holds c false (inner c list k) bs) {j : Nat} (hj : j < maxNums c) :
    slot c bs j = if j < maxNums c - 2 then list.getD (k + 1 + j) 0 else 0 := by
  have hroom : maxNums c * c.vertexBitSize ≤ RangeCompEncode.maxBits c := Nat.div_mul_le_self _ _
  have hmul := Nat.mul_le_mul_right c.vertexBitSize (Nat.succ_le_of_lt hj)
  rw [h.slot_eq j (Nat.le_trans hmul hroom), inner]
  split
  next hlt =>
    rw [List.getD_eq_getElem _ _ (by simpa using hlt), List.getElem_map, List.getElem_range']
    congr 1
    omega
  next hge => exact List.getD_eq_default _ _ (by simpa using hge)

/-- The search in a record whose first two fields are read as minimum and maximum. -/
theorem Holds.testBitsAt_false {values : List Nat} {bs : BitSetSIMD}
    (h : Holds c false values bs) {w : Nat} (hw : 1 ≤ w) :
    RangeCompEncode.testBitsAt (codec c) bs w = some (
      if w = slot c bs 0 ∨ w = slot c bs 1 then .neighbor
      else if w < slot c bs 0 ∨ slot c bs 1 < w then .uncertain
      else verdict (OrderedSearch.found w ((values.take (readable c)).drop 2))) := by
  have hfind := h.findLoop_eq hc.toFielded hw 2 (readable_lt hc.toFielded)
  rw [Nat.two_mul, ← Nat.add_assoc] at hfind
  have hmin : bs.blockGet RangeCompEncode.shift c.vertexBitSize = slot c bs 0 := by
    rw [slot, Nat.zero_mul]
    rfl
  have hmax : bs.blockGet (RangeCompEncode.shift + c.vertexBitSize) c.vertexBitSize =
      slot c bs 1 := by
    rw [slot, Nat.one_mul]
  rw [RangeCompEncode.testBitsAt, h.getFlag_eq]
  change find c w bs RangeCompEncode.shift false = _
  rw [find, if_neg Bool.false_ne_true, hmin, hmax, hfind]
  dsimp only
  split
  · rfl
  · split <;> rfl

/-- What the record of a window answers is true: between the first two of the inner ids there
    is no id. -/
theorem testBitsAt_inner {ids : List Nat} (hids : IdList c ids) (hsorted : ids.Pairwise (· ≤ ·))
    {k : Nat} {bs : BitSetSIMD} (hend : k + maxNums c ≤ ids.length + 2)
    (h : Holds c false (inner c (0 :: ids ++ [c.vertexSize + 1]) k) bs) {w : Nat} (hw : 1 ≤ w) :
    ∃ type, RangeCompEncode.testBitsAt (codec c) bs w = some type ∧
      (type = .neighbor → w ∈ ids) ∧ (type = .nonNeighbor → w ∉ ids) := by
  have hthree := hc.maxNums_ge
  have hsorted' := RangeCompEncode.extended_pairwise (c := c) hids hsorted Nat.le_of_lt
  have hmem : ∀ t, 0 < t → t ≤ ids.length → (0 :: ids ++ [c.vertexSize + 1]).getD t 0 ∈ ids :=
    fun t => RangeCompEncode.extended_getD_mem
  have hmin := h.slot_inner (j := 0) (by omega)
  have hmax := h.slot_inner (j := 1) (by omega)
  rw [if_pos (by omega)] at hmin
  simp only [Nat.add_zero] at hmin
  refine ⟨_, h.testBitsAt_false hc hw, ?_⟩
  rw [hmin]
  generalize slot c bs 1 = max at hmax
  split_ifs with hbound hout
  · refine ⟨fun _ => ?_, fun hnot => by cases hnot⟩
    rcases hbound with rfl | rfl
    · exact hmem _ (by omega) (by omega)
    · -- with three fields the maximum is 0, and no id
      split_ifs at hmax
      · rw [hmax]
        exact hmem _ (by omega) (by omega)
      · omega
  · exact ⟨fun hneighbor => (by cases hneighbor), fun hnot => (by cases hnot)⟩
  · refine ⟨fun hneighbor => ?_, fun _ hw' => ?_⟩
    · -- what is found in the other fields is one of the inner ids
      have hfound := OrderedSearch.mem_of_found (verdict_eq_neighbor.mp hneighbor)
      obtain ⟨i, hi, rfl⟩ := List.mem_map.mp (List.mem_of_mem_take (List.mem_of_mem_drop hfound))
      have hi' := List.mem_range'_1.mp hi
      exact hmem _ (by omega) (by omega)
    · refine not_mem_of_between hsorted' (k := k + 1) (w := w) (by omega) ?_ (by simp [hw'])
      split_ifs at hmax <;> omega

/-! ## Section 6: One vertex -/

/-- The window at the lower bound is not empty. -/
theorem width_zero_pos {ids : List Nat} (hids : IdList c ids) (hlong : maxNums c ≤ ids.length) :
    0 < WidestRun.width (maxNums c) (0 :: ids ++ [c.vertexSize + 1]) 0 := by
  have hthree := hc.maxNums_ge
  exact (hids _ (RangeCompEncode.extended_getD_mem (t := 0 + maxNums c - 1) (by omega)
    (by omega))).1

section

variable {ids : List Nat} (hids : IdList c ids) {bs : BitSetSIMD} (hrec : IsRecord c bs)
  (hsorted : ids.Pairwise (· ≤ ·))
include hids hrec hsorted

/-- `EncodeVertex` of a list that does not fit and whose size shows it. -/
theorem encodeBitsAt_of_searchFits
    (hlong : RangeCompEncode.maxBits c < ids.length * c.vertexBitSize % 2 ^ 32)
    (hfits : SearchFits c (0 :: ids ++ [c.vertexSize + 1])) :
    ∃ k bs', RangeCompEncode.encodeBitsAt c (codec c) ids bs = some bs' ∧
      k + maxNums c ≤ ids.length + 2 ∧
      Holds c false (inner c (0 :: ids ++ [c.vertexSize + 1]) k) bs' := by
  have hlt := hc.vertexSize_lt
  have hreq : ¬ (codec c).getRequiredBits ids ≤ RangeCompEncode.maxBits c := Nat.not_le.mpr hlong
  have hmany : maxNums c ≤ ids.length := by
    have hmod := Nat.mod_le (ids.length * c.vertexBitSize) (2 ^ 32)
    exact Nat.div_le_of_le_mul (by rw [Nat.mul_comm]; omega)
  obtain ⟨k, bs', hbs, hend, hholds⟩ := exists_dynamicEncode hc
    (RangeCompEncode.extended_pairwise hids hsorted Nat.le_of_lt)
    (fun x hx => by have := RangeCompEncode.extended_le hids x hx; omega) hfits
    (width_zero_pos hc hids hmany)
  refine ⟨k, bs', ?_, by simpa using hend, hholds⟩
  rw [RangeCompEncode.encodeBitsAt_eq hc.worded _ _ hrec, if_neg hreq,
    RangeEncode.vertexIdUpper_eq hc.worded]
  exact hbs

/-- A list that does not fit has a result only when its size shows that and the search goes
    through. -/
theorem searchFits_of_encodeBitsAt
    (hlong : RangeCompEncode.maxBits c < ids.length * c.vertexBitSize) {bs' : BitSetSIMD}
    (h : RangeCompEncode.encodeBitsAt c (codec c) ids bs = some bs') :
    RangeCompEncode.maxBits c < ids.length * c.vertexBitSize % 2 ^ 32 ∧
      SearchFits c (0 :: ids ++ [c.vertexSize + 1]) := by
  have hper := RangeCompEncode.perEncodeBitSize_eq hc.worded
  have hbits := RangeCompEncode.bitLength_flagged hc.worded true
  have hsize := hc.worded.vertexSize_lt
  rw [RangeCompEncode.encodeBitsAt_eq hc.worded _ _ hrec] at h
  split at h
  · -- the size has wrapped around, and the list runs over the end of the record
    exfalso
    have hnone : encode c ids (RangeCompEncode.flagged c true) RangeCompEncode.shift = none := by
      apply blockSetFields_eq_none
      · rw [hbits, List.map_map]
        change _ < _ + (ids.map fun _ => c.vertexBitSize).sum
        rw [List.map_const', List.sum_replicate_nat]
        unfold RangeCompEncode.shift
        omega
      · rw [hbits]
        unfold RangeCompEncode.shift
        omega
    rw [show (codec c).encode = encode c from rfl, hnone] at h
    cases h
  next hreq =>
    refine ⟨Nat.not_le.mp hreq, ?_⟩
    rw [RangeEncode.vertexIdUpper_eq hc.worded] at h
    exact searchFits_of_dynamicEncode hc
      (RangeCompEncode.extended_pairwise hids hsorted Nat.le_of_lt)
      (fun x hx => by have := RangeCompEncode.extended_le hids x hx; omega) h

end

end

/-- A record whose verdicts about the ids of the graph are exact up to `Uncertain`. -/
def Answers (c : Config) (ids : List Nat) (bs : BitSetSIMD) : Prop :=
  ∀ w, 1 ≤ w → w ≤ c.vertexSize → ∃ type, RangeCompEncode.testBitsAt (codec c) bs w = some type ∧
    (type = .neighbor → w ∈ ids) ∧ (type = .nonNeighbor → w ∉ ids) ∧
    (type = .uncertain → RangeCompEncode.maxBits c < ids.length * c.vertexBitSize)

/-- Whatever the records held before, the vertex is encoded with all accesses inside the list
    and the record, and its record is exact up to `Uncertain`. -/
def BitsExact (c : Config) (v : Nat) (ids : List Nat) : Prop :=
  ∀ encodes : Records, encodes.Built c →
    ∃ encodes', RangeCompEncode.encodeVertexAt c (codec c) v ids encodes = some encodes' ∧
      ∀ w, 1 ≤ w → w ≤ c.vertexSize → ∃ type,
        RangeCompEncode.nonNeighborTestAt (codec c) encodes' v w = some type ∧
        (type = .neighbor → w ∈ ids) ∧ (type = .nonNeighbor → w ∉ ids) ∧
        (type = .uncertain → RangeCompEncode.maxBits c < ids.length * c.vertexBitSize)

section

variable {c : Config} (hc : Packed c) {ids : List Nat} (hids : IdList c ids)
  (hsorted : ids.Pairwise (· ≤ ·))
include hc hids hsorted

omit hids in
/-- A record that holds a list answers as it must exactly when all ids stand in its readable
    fields. -/
theorem Holds.answers_iff {bs : BitSetSIMD} (h : Holds c true ids bs) (hids : IdList c ids) :
    Answers c ids bs ↔ ∀ w ∈ ids, w ∈ ids.take (readable c) := by
  constructor
  · intro hanswers w hw
    obtain ⟨type, htype, -, hnot, -⟩ := hanswers w (hids w hw).1 (hids w hw).2
    rw [h.testBitsAt_true hc.toFielded hsorted (hids w hw).1] at htype
    by_contra hout
    rw [decide_eq_false hout] at htype
    exact hnot (Option.some_inj.mp htype).symm hw
  · intro hall w hw _
    refine ⟨_, h.testBitsAt_true hc.toFielded hsorted hw, ?_, ?_, ?_⟩
    · intro hneighbor
      exact List.mem_of_mem_take (of_decide_eq_true (verdict_eq_neighbor.mp hneighbor))
    · intro hnot hmem
      rw [decide_eq_true (hall w hmem)] at hnot
      cases hnot
    · exact fun huncertain => absurd huncertain (verdict_ne_uncertain _)

/-- When the list that fits answers as it must. -/
theorem answers_iff_of_fits {bs bs' : BitSetSIMD} (hrec : IsRecord c bs)
    (hfit : ids.length * c.vertexBitSize ≤ RangeCompEncode.maxBits c)
    (h : RangeCompEncode.encodeBitsAt c (codec c) ids bs = some bs') :
    Answers c ids bs' ↔ ids.length * c.vertexBitSize < RangeCompEncode.maxBits c ∨
      (ids.length * c.vertexBitSize = RangeCompEncode.maxBits c ∧
        ids.getD (ids.length - 2) 0 = ids.getD (ids.length - 1) 0) := by
  obtain ⟨bs'', hbs, hholds⟩ := encodeBitsAt_of_fits hc.toFielded hids hrec hfit
  obtain rfl : bs' = bs'' := Option.some_inj.mp (h.symm.trans hbs)
  rw [hholds.answers_iff hc hsorted hids]
  -- only a full record has an id that is not looked at
  rcases Nat.eq_or_lt_of_le hfit with hfull | hless
  · -- a full record has the three fields of the configuration
    have htwo : 2 ≤ ids.length := by
      have hmul := Nat.le_trans (Nat.mul_le_mul_right c.vertexBitSize hc.maxNums_ge)
        (Nat.div_mul_le_self _ _)
      rw [← hfull] at hmul
      have hthree := Nat.le_of_mul_le_mul_right hmul (vertexBitSize_pos hc.toFielded)
      omega
    rw [readable_of_eq hc.toFielded hfull, subset_take_iff hsorted htwo]
    exact ⟨fun hsame => Or.inr ⟨hfull, hsame⟩, fun h => h.elim (fun hless => by omega) And.right⟩
  · rw [List.take_of_length_le ((length_le_readable_iff hc.toFielded _).mpr hless)]
    exact iff_of_true (fun w hw => hw) (Or.inl hless)

/-- The record of a window answers as it must. -/
theorem answers_inner (hlong : RangeCompEncode.maxBits c < ids.length * c.vertexBitSize) {k : Nat}
    {bs : BitSetSIMD} (hend : k + maxNums c ≤ ids.length + 2)
    (h : Holds c false (inner c (0 :: ids ++ [c.vertexSize + 1]) k) bs) : Answers c ids bs := by
  intro w hw _
  obtain ⟨type, htest, hneighbor, hnot⟩ := testBitsAt_inner hc hids hsorted hend h hw
  exact ⟨type, htest, hneighbor, hnot, fun _ => hlong⟩

theorem bitsExact_iff {v : Nat} (hv : v ≤ c.vertexSize) : BitsExact c v ids ↔
    ids.length * c.vertexBitSize < RangeCompEncode.maxBits c ∨
    (ids.length * c.vertexBitSize = RangeCompEncode.maxBits c ∧
      ids.getD (ids.length - 2) 0 = ids.getD (ids.length - 1) 0) ∨
    (RangeCompEncode.maxBits c < ids.length * c.vertexBitSize % 2 ^ 32 ∧
      SearchFits c (0 :: ids ++ [c.vertexSize + 1])) := by
  constructor
  · intro hexact
    obtain ⟨encodes', heq, htest⟩ := hexact _ (Records.built_constructed c)
    obtain ⟨hlt, hbits⟩ := RangeCompEncode.exists_record_of_encodeVertexAt heq
    have hrec := (Records.built_constructed c).record hlt
    -- the record is one of a window or one of a whole list
    rcases Nat.lt_or_ge (RangeCompEncode.maxBits c) (ids.length * c.vertexBitSize) with hlong | hfit
    · exact Or.inr (Or.inr (searchFits_of_encodeBitsAt hc hids hrec hsorted hlong hbits))
    · have hshort := (answers_iff_of_fits hc hids hsorted hrec hfit hbits).mp htest
      exact hshort.imp_right Or.inl
  · intro hcases encodes hbuilt
    have hlt := hbuilt.lt_length hc.worded.vertexSize_lt hv
    have hrec := hbuilt.record hlt
    have hrecord : ∃ bs, RangeCompEncode.encodeBitsAt c (codec c) ids (encodes.record v) = some bs ∧
        Answers c ids bs := by
      rcases or_assoc.mpr hcases with hshort | ⟨hlong, hsearch⟩
      · have hfit : ids.length * c.vertexBitSize ≤ RangeCompEncode.maxBits c :=
          hshort.elim Nat.le_of_lt fun hfull => Nat.le_of_eq hfull.1
        obtain ⟨bs, hbs, -⟩ := encodeBitsAt_of_fits hc.toFielded hids hrec hfit
        exact ⟨bs, hbs, (answers_iff_of_fits hc hids hsorted hrec hfit hbs).mpr hshort⟩
      · obtain ⟨k, bs, hbs, hend, hholds⟩ :=
          encodeBitsAt_of_searchFits hc hids hrec hsorted hlong hsearch
        exact ⟨bs, hbs, answers_inner hc hids hsorted
          (Nat.lt_of_lt_of_le hlong (Nat.mod_le _ _)) hend hholds⟩
    obtain ⟨bs, hbs, hanswers⟩ := hrecord
    obtain ⟨encodes', heq, rfl⟩ := RangeCompEncode.encodeVertexAt_eq_some hlt hbs
    exact ⟨encodes', heq, hanswers⟩

end

/-- Three words to a record, eight fields of eight bits behind the flag. -/
def eightFields : Config := .ofSizes 3 200 4 (by decide)

theorem eightFields_packed : Packed eightFields :=
  ⟨⟨by decide, by decide, by decide⟩, by decide⟩

/-- Nine ids do not fit in eight fields. -/
theorem bitsExact_nine :
    RangeCompEncode.maxBits eightFields < (List.range' 10 9).length * eightFields.vertexBitSize ∧
    BitsExact eightFields 1 (List.range' 10 9) := by
  have hids : IdList eightFields (List.range' 10 9) := by
    unfold IdList
    decide
  refine ⟨by decide, (@bitsExact_iff eightFields eightFields_packed _ hids (by decide) 1
    (by decide)).mpr (Or.inr (Or.inr ⟨by decide, ?_⟩))⟩
  exact searchFits_of_lt eightFields_packed (by decide) (by decide)

/-- Eight ids fill the fields, and the last one is denied. -/
theorem not_bitsExact_eight : IdList eightFields (List.range' 10 8) ∧
    (List.range' 10 8).Pairwise (· ≤ ·) ∧ ¬ BitsExact eightFields 1 (List.range' 10 8) := by
  have hids : IdList eightFields (List.range' 10 8) := by
    unfold IdList
    decide
  refine ⟨hids, by decide, fun hexact => ?_⟩
  obtain ⟨encodes', heq, htest⟩ := hexact _ (Records.built_constructed eightFields)
  obtain ⟨hlt, hbits⟩ := RangeCompEncode.exists_record_of_encodeVertexAt heq
  have hshort := (answers_iff_of_fits eightFields_packed hids (by decide)
    ((Records.built_constructed eightFields).record hlt) (by decide) hbits).mp htest
  revert hshort
  decide

end BitsComp

end Vend
