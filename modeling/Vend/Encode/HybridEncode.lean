import Vend.Encode.HashCount
import Vend.Encode.Verdict
import Mathlib.Data.List.Sort

/-! # `HybridEncode`: one record

    `encode/single/hybrid_encode.{h,cpp}`. A record is either decodable (flag
    bit 1, then the neighbours in `MAX_K_CORE_SIZE` slots) or holds a block of
    consecutive neighbours behind a header and hashes the others into the
    remaining bits.

    This module models what `EncodeVertex` writes into one record and what
    `NonNeighborTest` reads from it. `HSIMD` is a parameter. The main result is
    that the verdict of a record is exact up to `Uncertain`: see
    `speaks_encodeBits_fresh`.
-/

namespace Vend

open BitField BitSetSIMD

namespace HybridEncode

/-! ## Section 1: Model -/

/-- `Hash(vertex_id, hash_begin)`. -/
def hash (c : Config) (vertexId hashBegin : Nat) : Nat :=
  vertexId % sub32 c.perEncodeBitSize hashBegin + hashBegin

/-- `SetBlockModel(bitset, type)`. -/
def setBlockModel (bitset : BitSetSIMD) : BlockType → BitSetSIMD
  | .leftMost => bitset.blockSet 1 2 0
  | .fullHash => bitset.blockSet 1 2 1
  | .middle => bitset.blockSet 1 2 1
  | .rightMost => bitset.blockSet 1 2 3

/-- `GetBlockModel`. -/
def getBlockModel (encode : BitSetSIMD) : BlockType :=
  if encode.isOne 1 then .rightMost
  else if !encode.isOne 2 then .leftMost
  else .middle

/-- The loops that store one id after the other in slots of `VERTEX_BIT_SIZE`. -/
def setSlots (c : Config) (bitset : BitSetSIMD) (index : Nat) (ids : List Nat) : BitSetSIMD :=
  blockSetList c.vertexBitSize bitset index ids

/-- `SetNonDecodable(neighbor_encode, neighbor_left, type, bitset)`. -/
def setNonDecodable (c : Config) (neighborEncode neighborLeft : List Nat) (type : BlockType)
    (bitset : BitSetSIMD) : BitSetSIMD :=
  let bitset := bitset.clear.setZero 0
  let bitset := setBlockModel bitset type
  let bitset := bitset.blockSet 3 c.logK neighborEncode.length
  let bitset := setSlots c bitset (3 + c.logK) neighborEncode
  let hashBegin := neighborEncode.length * c.vertexBitSize + c.logK + 3
  if hashBegin = c.perEncodeBitSize then bitset
  else neighborLeft.foldl (fun bs id => bs.setOne (hash c id hashBegin)) bitset

/-- `ChooseHighest`: keep the candidate when it beats `max_score`. -/
def chooseHighest (c : Config) (neighbors : List Nat) (best : Nat × BitSetSIMD)
    (hashCount : HashCount) (blockSize firstIdx : Nat) (type : BlockType) : Nat × BitSetSIMD :=
  let score := hashCount.getScore c neighbors blockSize firstIdx type
  if best.1 < score then
    let neighborEncode := (neighbors.drop firstIdx).take blockSize
    let neighborLeft :=
      (if 0 < firstIdx then neighbors.take firstIdx else []) ++
      (if sub32 (firstIdx + blockSize) 1 ≠ neighbors.length then
        neighbors.drop (firstIdx + blockSize) else [])
    (score, setNonDecodable c neighborEncode neighborLeft type best.2)
  else best

/-- The middle candidates of one block size: `n` windows from `firstIdx` on. -/
def chooseMiddle (c : Config) (neighbors : List Nat) (blockSize : Nat) :
    Nat → Nat → HashCount → Nat × BitSetSIMD → HashCount × (Nat × BitSetSIMD)
  | 0, _, hashCount, best => (hashCount, best)
  | n + 1, firstIdx, hashCount, best =>
    let hashCount := (hashCount.addHash (neighbors.getD (firstIdx - 1) 0)).removeHash
      (neighbors.getD (firstIdx + blockSize - 1) 0)
    chooseMiddle c neighbors blockSize n (firstIdx + 1) hashCount
      (chooseHighest c neighbors best hashCount blockSize firstIdx .middle)

/-- One round of the loop over `block_size`. -/
def chooseBlock (c : Config) (neighbors : List Nat) (best : Nat × BitSetSIMD) (blockSize : Nat) :
    Nat × BitSetSIMD :=
  let neighborSize := neighbors.length
  let hashCount := HashCount.reConstruct c neighbors blockSize false
  let best := chooseHighest c neighbors best hashCount blockSize 0 .leftMost
  if blockSize = 1 then
    let hashCount := HashCount.reConstruct c neighbors blockSize true
    chooseHighest c neighbors best hashCount blockSize (neighborSize - blockSize) .rightMost
  else
    let middles := neighborSize - blockSize - 1
    let swept := chooseMiddle c neighbors blockSize middles 1 hashCount best
    chooseHighest c neighbors swept.2 swept.1 blockSize (middles + 1) .rightMost

/-- `DynamicChoose(vertex, neighbors, count)`: the best score and its record. -/
def dynamicChoose (c : Config) (neighbors : List Nat) (bitset : BitSetSIMD) : Nat × BitSetSIMD :=
  let best := chooseHighest c neighbors (0, bitset) (HashCount.reConstruct c neighbors 0 false)
    0 0 .fullHash
  (List.range' 1 c.maxIntegerSize).foldl (chooseBlock c neighbors) best

/-- `EncodeVertex` on the record it rewrites. -/
def encodeBits (c : Config) (neighbors : List Nat) (bitset : BitSetSIMD) : BitSetSIMD :=
  if neighbors.length ≤ c.maxKCoreSize then
    setSlots c (bitset.setOne 0) 1 neighbors
  else (dynamicChoose c neighbors bitset).2

/-- `HSIMD == 0 ? BlockFind : BlockFindSIMD`. -/
def findBlock (hsimd : Bool) (encode : BitSetSIMD) (start blockSize blockNum value : Nat) :
    PairType :=
  if hsimd then encode.blockFindSIMD start blockSize blockNum value
  else encode.blockFind start blockSize blockNum value

/-- `GetBlockNum`, a `uint16_t`. -/
def getBlockNum (c : Config) (encode : BitSetSIMD) : Nat := encode.blockGet 3 c.logK % 2 ^ 16

/-- The range of ids that the block of an undecodable record answers for. -/
def blockRange (c : Config) (encode : BitSetSIMD) : Nat × Nat :=
  let blockNum := getBlockNum c encode
  let type := getBlockModel encode
  let min :=
    if type ≠ .leftMost then
      if blockNum = 0 then 0 else encode.blockGet (3 + c.logK) c.vertexBitSize
    else 0
  let max :=
    if type ≠ .rightMost then
      if blockNum = 0 then 0
      else encode.blockGet (3 + c.logK + (blockNum - 1) * c.vertexBitSize) c.vertexBitSize
    else c.vertexIdUpper
  (min, max)

/-- `NonNeighborTest(vertex1, vertex2)` on the record of `vertex1`. -/
def testBits (c : Config) (hsimd : Bool) (encode : BitSetSIMD) (vertex2 : Nat) : PairType :=
  if encode.isOne 0 then
    findBlock hsimd encode 1 c.vertexBitSize c.maxKCoreSize vertex2
  else
    let blockNum := getBlockNum c encode
    let range := blockRange c encode
    let hashBegin := blockNum * c.vertexBitSize + 3 + c.logK
    if vertex2 < range.1 ∨ vertex2 > range.2 then
      if hashBegin = c.perEncodeBitSize ∨ encode.isOne (hash c vertex2 hashBegin) then .uncertain
      else .nonNeighbor
    else findBlock hsimd encode c.blockBeginIndex c.vertexBitSize blockNum vertex2

/-! ## Section 2: Writing slots -/

@[simp] theorem length_setSlots (c : Config) (bitset : BitSetSIMD) (index : Nat) (ids : List Nat) :
    (setSlots c bitset index ids).data.length = bitset.data.length :=
  length_blockSetList _ _ _ _

section Packed

variable {c : Config} (hc : c.Packed)
include hc

theorem bit_blockSet_slot {bitset : BitSetSIMD} (hrec : IsRecord c bitset) (index : Nat)
    {size value : Nat}
    (hpos : 0 < size) (hle : index + size ≤ c.perEncodeBitSize) (hv : value < 2 ^ size) :
    (bitset.blockSet index size value).bit = store bitset.bit index size value := by
  have hper := hc.perEncodeBitSize_le
  unfold IsRecord at hrec
  exact bit_blockSet bitset (by omega) hpos (by omega) (by omega) hv

/-- The slots read back what was stored and nothing else changes. -/
theorem bit_setSlots (bitset : BitSetSIMD) (hrec : IsRecord c bitset) (index : Nat)
    {ids : List Nat} (hids : IdList c ids)
    (hle : index + ids.length * c.vertexBitSize ≤ c.perEncodeBitSize) :
    (∀ i (hi : i < ids.length), field (setSlots c bitset index ids).bit
        (index + i * c.vertexBitSize) c.vertexBitSize = ids[i]) ∧
    ∀ p, p < index ∨ index + ids.length * c.vertexBitSize ≤ p →
      (setSlots c bitset index ids).bit p = bitset.bit p := by
  have hper := hc.perEncodeBitSize_le
  have hle' := c.vertexBitSize_le
  unfold IsRecord at hrec
  refine bit_blockSetList hc.vertexBitSize_pos (by omega) bitset index ?_ (by omega) (by omega)
  intro id hid
  have h₁ := (hids id hid).2
  have h₂ := hc.vertexSize_lt
  omega

end Packed

/-! ## Section 3: Searching ascending slots -/

theorem findBlock_ne_uncertain (hsimd : Bool) (encode : BitSetSIMD) (start size n value : Nat) :
    findBlock hsimd encode start size n value ≠ .uncertain := by
  unfold findBlock
  split
  · exact blockFindSIMD_ne_uncertain _ _ _ _ _
  · exact blockFind_ne_uncertain _ _ _ _ _

/-- An element of an ascending list has a first occurrence, behind smaller elements. -/
theorem exists_first_occurrence {ids : List Nat} (hsorted : ids.Pairwise (· ≤ ·)) {w : Nat}
    (hmem : w ∈ ids) :
    ∃ i, ∃ hi : i < ids.length, ids[i] = w ∧ ∀ j (hj : j < i), ids[j] < w := by
  induction ids with
  | nil => simp at hmem
  | cons id ids ih =>
    rw [List.pairwise_cons] at hsorted
    by_cases hid : id = w
    · exact ⟨0, by simp, by simpa using hid, by intro j hj; omega⟩
    · have hmem' : w ∈ ids := by simpa [Ne.symm hid] using hmem
      obtain ⟨i, hi, heq, hbelow⟩ := ih hsorted.2 hmem'
      refine ⟨i + 1, by simpa using hi, by simpa using heq, ?_⟩
      intro j hj
      cases j with
      | zero =>
        have hle := hsorted.1 w hmem'
        simp only [List.getElem_cons_zero]
        omega
      | succ j => simpa using hbelow j (by omega)

/-- The searches find the ids at the front of the slots; the scalar one relies on
    their order. -/
theorem findBlock_of_mem {hsimd : Bool} {encode : BitSetSIMD} {start size n w : Nat}
    {ids : List Nat} (hsorted : hsimd = true ∨ ids.Pairwise (· ≤ ·)) (hlen : ids.length ≤ n) (hw : 1 ≤ w)
    (hslots : ∀ i (hi : i < ids.length), encode.blockGet (start + i * size) size = ids[i])
    (hmem : w ∈ ids) : findBlock hsimd encode start size n w = .neighbor := by
  unfold findBlock
  cases hsimd with
  | true =>
    obtain ⟨i, hi, heq⟩ := List.mem_iff_getElem.mp hmem
    simp only [if_true]
    rw [blockFindSIMD_eq_neighbor_iff _ _ _ _ hw]
    exact ⟨i, by omega, by rw [hslots i hi, heq]⟩
  | false =>
    have hsorted' : ids.Pairwise (· ≤ ·) := hsorted.resolve_left (by simp)
    obtain ⟨i, hi, heq, hbelow⟩ := exists_first_occurrence hsorted' hmem
    simp only [Bool.false_eq_true, if_false]
    rw [blockFind_eq_neighbor_iff]
    refine ⟨i, by omega, by rw [hslots i hi, heq], ?_⟩
    intro j hj
    rw [hslots j (by omega)]
    exact hbelow j hj

/-- What a search finds stands in some slot. -/
theorem exists_slot_of_findBlock {hsimd : Bool} {encode : BitSetSIMD} {start size n w : Nat}
    (hw : 1 ≤ w) (hfind : findBlock hsimd encode start size n w = .neighbor) :
    ∃ i < n, encode.blockGet (start + i * size) size = w := by
  unfold findBlock at hfind
  cases hsimd with
  | true =>
    simp only [if_true] at hfind
    exact (blockFindSIMD_eq_neighbor_iff _ _ _ _ hw).mp hfind
  | false =>
    simp only [Bool.false_eq_true, if_false] at hfind
    obtain ⟨i, hi, heq, -⟩ := (blockFind_eq_neighbor_iff _ _ _ _ _).mp hfind
    exact ⟨i, hi, heq⟩

/-! ## Section 4: Decodable records -/

/-- The slots of a decodable record. -/
def slot (c : Config) (encode : BitSetSIMD) (i : Nat) : Nat :=
  encode.blockGet (1 + i * c.vertexBitSize) c.vertexBitSize

/-- What `EncodeVertex` leaves in a decodable record: the ids at the front and
    whatever stood in the slots behind them. -/
structure FullRecord (c : Config) (ids : List Nat) (old encode : BitSetSIMD) : Prop where
  length_le : ids.length ≤ c.maxKCoreSize
  isRecord : IsRecord c encode
  flag : encode.isOne 0 = true
  slots : ∀ i (hi : i < ids.length), slot c encode i = ids[i]
  rest : ∀ i, ids.length ≤ i → i < c.maxKCoreSize → slot c encode i = slot c old i

theorem fullRecord_encodeBits {c : Config} (hc : c.Packed) {bitset : BitSetSIMD}
    (hrec : IsRecord c bitset) {ids : List Nat} (hids : IdList c ids)
    (hlen : ids.length ≤ c.maxKCoreSize) :
    FullRecord c ids bitset (encodeBits c ids bitset) := by
  have hpos := hc.vertexBitSize_pos
  have hle := c.vertexBitSize_le
  have hslots := c.slots_le
  have hmul : ids.length * c.vertexBitSize ≤ c.maxKCoreSize * c.vertexBitSize :=
    Nat.mul_le_mul_right _ hlen
  have hrec' : IsRecord c (bitset.setOne 0) := by simpa [IsRecord, bitLength] using hrec
  have hbit : 0 < bitset.bitLength := by
    have hper := c.perEncodeBitSize_ge
    unfold IsRecord at hrec
    omega
  obtain ⟨hread, hrest⟩ := bit_setSlots hc _ hrec' 1 hids (by omega)
  unfold encodeBits
  rw [if_pos hlen]
  refine ⟨hlen, by simpa [IsRecord, bitLength] using hrec, ?_, ?_, ?_⟩
  · rw [isOne_eq_bit, hrest 0 (by omega), bit_setOne _ hbit]
    simp
  · intro i hi
    rw [slot, blockGet_eq _ hpos hle]
    exact hread i hi
  · intro i hi _
    have hmul' : ids.length * c.vertexBitSize ≤ i * c.vertexBitSize := Nat.mul_le_mul_right _ hi
    rw [slot, slot, blockGet_eq _ hpos hle, blockGet_eq _ hpos hle]
    apply field_congr
    intro p h₁ h₂
    rw [hrest p (by omega), bit_setOne _ hbit]
    simp [show p ≠ 0 by omega]

theorem FullRecord.testBits_of_mem {c : Config} {ids : List Nat} {old encode : BitSetSIMD}
    (h : FullRecord c ids old encode) {hsimd : Bool}
    (hsorted : hsimd = true ∨ ids.Pairwise (· ≤ ·)) {w : Nat} (hw : 1 ≤ w) (hmem : w ∈ ids) :
    testBits c hsimd encode w = .neighbor := by
  unfold testBits
  rw [if_pos h.flag]
  exact findBlock_of_mem hsorted h.length_le hw h.slots hmem

/-- The search comes upon `w` in the slots that were left behind by `old`: the
    scalar search only gets there past smaller ids. -/
def StaleHit (c : Config) (hsimd : Bool) (ids : List Nat) (old : BitSetSIMD) (w : Nat) : Prop :=
  (hsimd = true ∨ ∀ id ∈ ids, id < w) ∧
    findBlock hsimd old (1 + ids.length * c.vertexBitSize) c.vertexBitSize
      (c.maxKCoreSize - ids.length) w = .neighbor

instance (c : Config) (hsimd : Bool) (ids : List Nat) (old : BitSetSIMD) (w : Nat) :
    Decidable (StaleHit c hsimd ids old w) :=
  inferInstanceAs (Decidable ((hsimd = true ∨ ∀ id ∈ ids, id < w) ∧
    findBlock hsimd old (1 + ids.length * c.vertexBitSize) c.vertexBitSize
      (c.maxKCoreSize - ids.length) w = .neighbor))

/-- A decodable record reports only ids that it stores or that were left behind
    in the unused slots. -/
theorem FullRecord.mem_or_staleHit {c : Config} {ids : List Nat} {old encode : BitSetSIMD}
    (h : FullRecord c ids old encode) {hsimd : Bool} {w : Nat} (hw : 1 ≤ w)
    (htest : testBits c hsimd encode w = .neighbor) :
    w ∈ ids ∨ StaleHit c hsimd ids old w := by
  have hle := h.length_le
  have hshift : ∀ i, 1 + ids.length * c.vertexBitSize + i * c.vertexBitSize =
      1 + (ids.length + i) * c.vertexBitSize := by intro i; ring
  unfold testBits at htest
  rw [if_pos h.flag] at htest
  unfold StaleHit
  unfold findBlock at htest ⊢
  cases hsimd with
  | true =>
    simp only [if_true] at htest ⊢
    obtain ⟨i, hi, heq⟩ := (blockFindSIMD_eq_neighbor_iff _ _ _ _ hw).mp htest
    change slot c encode i = w at heq
    by_cases hlt : i < ids.length
    · -- a slot of the list, or one of the old record behind it
      rw [h.slots i hlt] at heq
      exact Or.inl (heq ▸ List.getElem_mem hlt)
    · rw [h.rest i (by omega) hi] at heq
      refine Or.inr ⟨Or.inl trivial, (blockFindSIMD_eq_neighbor_iff _ _ _ _ hw).mpr ?_⟩
      refine ⟨i - ids.length, by omega, ?_⟩
      rw [hshift, show ids.length + (i - ids.length) = i by omega]
      exact heq
  | false =>
    simp only [Bool.false_eq_true, if_false, false_or] at htest ⊢
    obtain ⟨i, hi, heq, hbelow⟩ := (blockFind_eq_neighbor_iff _ _ _ _ _).mp htest
    change slot c encode i = w at heq
    by_cases hlt : i < ids.length
    · rw [h.slots i hlt] at heq
      exact Or.inl (heq ▸ List.getElem_mem hlt)
    · rw [h.rest i (by omega) hi] at heq
      refine Or.inr ⟨?_, (blockFind_eq_neighbor_iff _ _ _ _ _).mpr ?_⟩
      · -- the scan stops at an id above `w`, so all of the list is below it
        intro id hid
        obtain ⟨j, hj, rfl⟩ := List.mem_iff_getElem.mp hid
        rw [← h.slots j hj]
        exact hbelow j (by omega)
      · refine ⟨i - ids.length, by omega, ?_, ?_⟩
        · rw [hshift, show ids.length + (i - ids.length) = i by omega]
          exact heq
        · intro j hj
          rw [hshift]
          have hb := hbelow (ids.length + j) (by omega)
          change slot c encode (ids.length + j) < w at hb
          rw [h.rest _ (by omega) (by omega)] at hb
          exact hb

theorem FullRecord.testBits_ne_uncertain {c : Config} {ids : List Nat} {old encode : BitSetSIMD}
    (h : FullRecord c ids old encode) (hsimd : Bool) (w : Nat) :
    testBits c hsimd encode w ≠ .uncertain := by
  unfold testBits
  rw [if_pos h.flag]
  exact findBlock_ne_uncertain _ _ _ _ _ _

/-! ## Section 5: Undecodable records -/

/-- What `SetNonDecodable` leaves in a record. -/
structure BlockRecord (c : Config) (block left : List Nat) (type : BlockType)
    (encode : BitSetSIMD) : Prop where
  isRecord : IsRecord c encode
  flag : encode.isOne 0 = false
  model : getBlockModel encode = if type = .fullHash then .middle else type
  num : getBlockNum c encode = block.length
  slots : ∀ i (hi : i < block.length), encode.blockGet (c.blockBeginIndex + i * c.vertexBitSize)
    c.vertexBitSize = block[i]
  hashed : ∀ id ∈ left, block.length * c.vertexBitSize + 3 + c.logK ≠ c.perEncodeBitSize →
    encode.isOne (hash c id (block.length * c.vertexBitSize + 3 + c.logK)) = true

/-- The two bits of the block model. -/
def modelCode : BlockType → Nat
  | .leftMost => 0
  | .fullHash => 1
  | .middle => 1
  | .rightMost => 3

theorem setBlockModel_eq (bitset : BitSetSIMD) (type : BlockType) :
    setBlockModel bitset type = bitset.blockSet 1 2 (modelCode type) := by
  cases type <;> rfl

theorem getBlockModel_of_bits {encode : BitSetSIMD} {type : BlockType}
    (h₁ : encode.bit 1 = (modelCode type).testBit 1)
    (h₂ : encode.bit 2 = (modelCode type).testBit 0) :
    getBlockModel encode = if type = .fullHash then .middle else type := by
  unfold getBlockModel
  rw [isOne_eq_bit, isOne_eq_bit, h₁, h₂]
  cases type <;> rfl

theorem hash_mem {c : Config} (hper : c.perEncodeBitSize < 2 ^ 32) {b : Nat}
    (hlt : b < c.perEncodeBitSize) (id : Nat) :
    b ≤ hash c id b ∧ hash c id b < c.perEncodeBitSize := by
  unfold hash
  rw [sub32_of_le (by omega) (by omega)]
  have hmod := Nat.mod_lt id (show 0 < c.perEncodeBitSize - b by omega)
  omega

section Packed

variable {c : Config} (hc : c.Packed)
include hc

/-- The header and the slots of `SetNonDecodable`, before the hash loop. -/
theorem bit_header {bitset : BitSetSIMD} (hrec : IsRecord c bitset) (type : BlockType)
    {block : List Nat} (hids : IdList c block) (hlen : block.length ≤ c.maxIntegerSize)
    {encode : BitSetSIMD} (hencode : encode = setSlots c ((setBlockModel (bitset.clear.setZero 0)
      type).blockSet 3 c.logK block.length) (3 + c.logK) block) :
    IsRecord c encode ∧ encode.bit 0 = false ∧ encode.bit 1 = (modelCode type).testBit 1 ∧
    encode.bit 2 = (modelCode type).testBit 0 ∧ field encode.bit 3 c.logK = block.length ∧
    ∀ i (hi : i < block.length), field encode.bit (3 + c.logK + i * c.vertexBitSize)
      c.vertexBitSize = block[i] := by
  have hblock := hc.block_le_of_le hlen
  have hlogK := hc.logK_pos
  have hk := c.maxKCoreSize_lt
  have hmax := c.maxIntegerSize_le
  -- the four writes, one after the other
  have hrec₀ : IsRecord c (bitset.clear.setZero 0) := by
    simpa [IsRecord, bitLength] using hrec
  have hbit₀ : ∀ p, (bitset.clear.setZero 0).bit p = false := by
    intro p
    have hpos : 0 < bitset.clear.bitLength := by
      have hper := c.perEncodeBitSize_ge
      simp only [IsRecord, bitLength] at hrec
      simp only [bitLength, length_clear]
      omega
    rw [bit_setZero _ hpos, bit_clear, Bool.false_and]
  have hcode : modelCode type < 2 ^ 2 := by cases type <;> decide
  have hstore₁ := bit_blockSet_slot hc hrec₀ 1 (by omega) (by omega) hcode
  have hrec₁ : IsRecord c ((bitset.clear.setZero 0).blockSet 1 2 (modelCode type)) := by
    simpa [IsRecord] using hrec₀
  have hnum : block.length < 2 ^ c.logK := by omega
  have hstore₂ := bit_blockSet_slot hc hrec₁ 3 hlogK (by omega) hnum
  have hrec₂ : IsRecord c (((bitset.clear.setZero 0).blockSet 1 2 (modelCode type)).blockSet 3
      c.logK block.length) := by
    simpa [IsRecord] using hrec₁
  obtain ⟨hread, hrest⟩ := bit_setSlots hc _ hrec₂ (3 + c.logK) hids (by omega)
  rw [setBlockModel_eq] at hencode
  subst hencode
  have hlow : ∀ p, p < 3 → (setSlots c (((bitset.clear.setZero 0).blockSet 1 2
      (modelCode type)).blockSet 3 c.logK block.length) (3 + c.logK) block).bit p =
      store (bitset.clear.setZero 0).bit 1 2 (modelCode type) p := by
    intro p hp
    rw [hrest p (by omega), hstore₂, store_outside _ (by omega), hstore₁]
  refine ⟨by simpa [IsRecord, bitLength] using hrec₂, ?_, ?_, ?_, ?_, hread⟩
  · rw [hlow 0 (by omega), store_outside _ (by omega), hbit₀]
  · rw [hlow 1 (by omega)]
    simp [store]
  · rw [hlow 2 (by omega)]
    simp [store]
  · rw [field_congr fun p h₁ h₂ => hrest p (by omega), hstore₂]
    exact field_store_self _ (by omega)

theorem blockRecord_setNonDecodable {bitset : BitSetSIMD} (hrec : IsRecord c bitset)
    (type : BlockType) (block left : List Nat) (hids : IdList c block)
    (hlen : block.length ≤ c.maxIntegerSize) :
    BlockRecord c block left type (setNonDecodable c block left type bitset) := by
  have hblock := hc.block_le_of_le hlen
  have hlogK := hc.logK_pos
  have hlogK' := hc.logK_le
  have hpos := hc.vertexBitSize_pos
  have hper := hc.perEncodeBitSize_le
  have hcomm : block.length * c.vertexBitSize + c.logK + 3 =
      block.length * c.vertexBitSize + 3 + c.logK := by omega
  obtain ⟨hrec', hbit₀, hbit₁, hbit₂, hnum, hslots⟩ := bit_header hc hrec type hids hlen rfl
  generalize hheader : setSlots c ((setBlockModel (bitset.clear.setZero 0) type).blockSet 3 c.logK
    block.length) (3 + c.logK) block = header at hrec' hbit₀ hbit₁ hbit₂ hnum hslots
  -- the hash loop only writes behind the block
  have hhash : ∃ encode, setNonDecodable c block left type bitset = encode ∧ IsRecord c encode ∧
      (∀ p, p < block.length * c.vertexBitSize + 3 + c.logK → encode.bit p = header.bit p) ∧
      ∀ id ∈ left, block.length * c.vertexBitSize + 3 + c.logK ≠ c.perEncodeBitSize →
        encode.bit (hash c id (block.length * c.vertexBitSize + 3 + c.logK)) = true := by
    by_cases hfull : block.length * c.vertexBitSize + 3 + c.logK = c.perEncodeBitSize
    · refine ⟨header, ?_, hrec', fun _ _ => rfl, fun _ _ h => absurd hfull h⟩
      simp only [setNonDecodable, hcomm, if_pos hfull, hheader]
    · have hper := hc.perEncodeBitSize_le
      have hmem : ∀ id, _ := hash_mem (c := c)
        (b := block.length * c.vertexBitSize + 3 + c.logK) (by omega) (by omega)
      obtain ⟨hlen', -, hset, hother⟩ := bit_foldl_setOne header left
        (fun id => hash c id (block.length * c.vertexBitSize + 3 + c.logK)) (by
          intro id _
          have h := (hmem id).2
          unfold IsRecord at hrec'
          omega)
      refine ⟨_, rfl, ?_, ?_, ?_⟩ <;>
        simp only [setNonDecodable, hcomm, if_neg hfull, hheader]
      · simpa [IsRecord, bitLength, hlen'] using hrec'
      · intro p hp
        exact hother p fun id _ => by have h := (hmem id).1; omega
      · exact fun id hid _ => hset id hid
  obtain ⟨encode, heq, hrec'', hsame, hset⟩ := hhash
  rw [heq]
  -- the fields are those of the header
  have hfield : ∀ start size, start + size ≤ block.length * c.vertexBitSize + 3 + c.logK →
      field encode.bit start size = field header.bit start size := by
    intro start size hle
    exact field_congr fun p _ h₂ => hsame p (by omega)
  refine ⟨hrec'', ?_, ?_, ?_, ?_, ?_⟩
  · rw [isOne_eq_bit, hsame 0 (by omega), hbit₀]
  · exact getBlockModel_of_bits (by rw [hsame 1 (by omega), hbit₁])
      (by rw [hsame 2 (by omega), hbit₂])
  · rw [getBlockNum, blockGet_eq _ hlogK hlogK', hfield _ _ (by omega), hnum]
    have hle : block.length ≤ block.length * c.vertexBitSize := Nat.le_mul_of_pos_right _ hpos
    omega
  · intro i hi
    have hmul' : (i + 1) * c.vertexBitSize ≤ block.length * c.vertexBitSize :=
      Nat.mul_le_mul_right _ hi
    rw [Nat.add_mul, Nat.one_mul] at hmul'
    rw [blockGet_eq _ hpos c.vertexBitSize_le, Config.blockBeginIndex, hfield _ _ (by omega)]
    exact hslots i hi
  · intro id hid hne
    rw [isOne_eq_bit]
    exact hset id hid hne

end Packed

/-! ## Section 6: An undecodable record is exact up to `Uncertain` -/

/-- A candidate of the block search: the neighbours are `before ++ block ++ after`,
    the block is stored and the others are hashed. -/
structure Candidate (c : Config) (type : BlockType) (before block after : List Nat) : Prop where
  length_le : block.length ≤ c.maxIntegerSize
  fullHash : type = .fullHash → block = []
  nonempty : type ≠ .fullHash → 0 < block.length
  leftMost : type = .leftMost → before = []
  rightMost : type = .rightMost → after = []

section Exact

variable {c : Config} {type : BlockType} {before block after : List Nat} {encode : BitSetSIMD}
variable (hv : c.vertexSize + 1 < 2 ^ 32)
variable (hcand : Candidate c type before block after)
variable (hrec : BlockRecord c block (before ++ after) type encode)

include hrec in
theorem blockRange_of_empty (htype : type = .fullHash) (hblock : block = []) :
    blockRange c encode = (0, 0) := by
  have hmodel := hrec.model
  have hnum := hrec.num
  subst htype hblock
  simp only [if_true] at hmodel
  simp [blockRange, hmodel, hnum]

include hv hrec in
/-- The range that `NonNeighborTest` computes: the ends of the block, opened up
    on the side of the model. -/
theorem blockRange_of_pos (hpos : 0 < block.length) (htype : type ≠ .fullHash) :
    blockRange c encode =
      (if type = .leftMost then 0 else block[0],
        if type = .rightMost then c.vertexSize + 1 else block[block.length - 1]) := by
  have hmodel := hrec.model
  have hnum := hrec.num
  have hne : block.length ≠ 0 := by omega
  have hfirst := hrec.slots 0 hpos
  have hlast := hrec.slots (block.length - 1) (by omega)
  rw [Nat.zero_mul, Nat.add_zero, Config.blockBeginIndex] at hfirst
  rw [Config.blockBeginIndex] at hlast
  have hupper : c.vertexIdUpper = c.vertexSize + 1 := Nat.mod_eq_of_lt hv
  rw [if_neg htype] at hmodel
  simp only [blockRange, hmodel, hnum, hfirst, hlast, hupper, if_neg hne]
  cases type <;> simp

include hrec in
theorem testBits_block_neighbor {hsimd : Bool} {w : Nat} (hw : 1 ≤ w)
    (htest : testBits c hsimd encode w = .neighbor) : w ∈ before ++ block ++ after := by
  unfold testBits at htest
  rw [if_neg (by simp [hrec.flag])] at htest
  simp only [hrec.num] at htest
  split at htest
  · split at htest <;> cases htest
  · obtain ⟨i, hi, heq⟩ := exists_slot_of_findBlock hw htest
    rw [hrec.slots i hi] at heq
    have hmem : w ∈ block := heq ▸ List.getElem_mem hi
    simp [hmem]

include hv hcand hrec in
/-- A stored or hashed neighbour is never reported as absent. -/
theorem testBits_block_of_mem (hsimd : Bool)
    (hsorted : (before ++ block ++ after).Pairwise (· ≤ ·)) {w : Nat} (hw : 1 ≤ w)
    (hupper : w ≤ c.vertexSize) (hmem : w ∈ before ++ block ++ after) :
    testBits c hsimd encode w ≠ .nonNeighbor := by
  rw [List.append_assoc, List.pairwise_append, List.pairwise_append] at hsorted
  obtain ⟨-, ⟨hblock, -, hafter⟩, hbefore⟩ := hsorted
  have hhash : w ∈ before ++ after → ¬ block.length * c.vertexBitSize + 3 + c.logK =
      c.perEncodeBitSize → encode.isOne (hash c w
        (block.length * c.vertexBitSize + 3 + c.logK)) = true := hrec.hashed w
  unfold testBits
  rw [if_neg (by simp [hrec.flag])]
  simp only [hrec.num]
  by_cases htype : type = .fullHash
  · -- everything is hashed and the range is empty
    have hempty := hcand.fullHash htype
    rw [blockRange_of_empty hrec htype hempty, if_pos (by simp only; omega)]
    have hleft : w ∈ before ++ after := by simpa [hempty] using hmem
    by_cases hfull : block.length * c.vertexBitSize + 3 + c.logK = c.perEncodeBitSize
    · simp [hfull]
    · simp [hhash hleft hfull]
  · have hpos := hcand.nonempty htype
    have hmono := List.pairwise_iff_getElem.mp hblock
    rw [blockRange_of_pos hv hrec hpos htype]
    -- the block lies inside its own range
    have hin : w ∈ block → ¬ (w < (if type = .leftMost then 0 else block[0]) ∨
        w > if type = .rightMost then c.vertexSize + 1 else block[block.length - 1]) := by
      intro hmem'
      obtain ⟨i, hi, rfl⟩ := List.mem_iff_getElem.mp hmem'
      have hfirst : block[0] ≤ block[i] := by
        rcases Nat.eq_zero_or_pos i with rfl | h
        · exact Nat.le_refl _
        · exact hmono 0 i hpos hi h
      have hlast : block[i] ≤ block[block.length - 1] := by
        rcases Nat.lt_or_ge i (block.length - 1) with h | h
        · exact hmono i _ hi (by omega) h
        · have : i = block.length - 1 := by omega
          simp [this]
      split <;> split <;> omega
    by_cases hout : w < (if type = .leftMost then 0 else block[0]) ∨
        w > if type = .rightMost then c.vertexSize + 1 else block[block.length - 1]
    · rw [if_pos hout]
      have hnot : w ∉ block := fun h => hin h hout
      have hleft : w ∈ before ++ after := by
        simp only [List.mem_append] at hmem ⊢
        tauto
      by_cases hfull : block.length * c.vertexBitSize + 3 + c.logK = c.perEncodeBitSize
      · simp [hfull]
      · simp [hhash hleft hfull]
    · rw [if_neg hout]
      -- inside the range a neighbour is an element of the block
      have hmem' : w ∈ block := by
        by_contra hnot
        simp only [List.mem_append, hnot, or_false] at hmem
        rcases hmem with hb | ha
        · have hne : type ≠ .leftMost := fun h => by simp [hcand.leftMost h] at hb
          have hle : w ≤ block[0] := hbefore w hb _ (by simp)
          rw [if_neg hne] at hout
          exact hnot ((show w = block[0] by omega) ▸ List.getElem_mem hpos)
        · have hne : type ≠ .rightMost := fun h => by simp [hcand.rightMost h] at ha
          have hle : block[block.length - 1] ≤ w := hafter _ (by simp) w ha
          rw [if_neg hne] at hout
          exact hnot ((show w = block[block.length - 1] by omega) ▸ List.getElem_mem (by omega))
      rw [findBlock_of_mem (Or.inr hblock) (Nat.le_refl _) hw hrec.slots hmem']
      simp

end Exact

/-! ## Section 7: The block search ends in a candidate -/

/-- A record that holds `ids` as some candidate of the search. -/
def HoldsCandidate (c : Config) (ids : List Nat) (encode : BitSetSIMD) : Prop :=
  ∃ type before block after, ids = before ++ block ++ after ∧
    Candidate c type before block after ∧ BlockRecord c block (before ++ after) type encode

/-- The running best of `DynamicChoose`: once a score is recorded, the record
    holds a candidate. -/
structure Best (c : Config) (ids : List Nat) (best : Nat × BitSetSIMD) : Prop where
  isRecord : IsRecord c best.2
  holds : 0 < best.1 → HoldsCandidate c ids best.2

section Search

variable {c : Config} (hc : c.Packed) {ids : List Nat} (hids : IdList c ids)
variable (hlen : ids.length < 2 ^ 32 - 1)
include hc hids hlen

theorem Best.chooseHighest {best : Nat × BitSetSIMD} (hbest : Best c ids best)
    (hashCount : HashCount) {blockSize firstIdx : Nat} {type : BlockType}
    (hle : firstIdx + blockSize ≤ ids.length)
    (hcand : Candidate c type (ids.take firstIdx) ((ids.drop firstIdx).take blockSize)
      (ids.drop (firstIdx + blockSize))) :
    Best c ids (chooseHighest c ids best hashCount blockSize firstIdx type) ∧
    best.1 ≤ (HybridEncode.chooseHighest c ids best hashCount blockSize firstIdx type).1 ∧
    hashCount.getScore c ids blockSize firstIdx type ≤
      (HybridEncode.chooseHighest c ids best hashCount blockSize firstIdx type).1 := by
  simp only [HybridEncode.chooseHighest]
  split
  next hlt =>
    have hne : sub32 (firstIdx + blockSize) 1 ≠ ids.length := by
      unfold sub32
      omega
    have hleft : (if 0 < firstIdx then ids.take firstIdx else []) = ids.take firstIdx := by
      split
      · rfl
      · have hzero : firstIdx = 0 := by omega
        simp [hzero]
    rw [if_pos hne, hleft]
    refine ⟨⟨?_, fun _ => ?_⟩, Nat.le_of_lt hlt, Nat.le_refl _⟩
    all_goals
      have hrec := blockRecord_setNonDecodable hc hbest.isRecord type
        ((ids.drop firstIdx).take blockSize)
        (ids.take firstIdx ++ ids.drop (firstIdx + blockSize))
        (fun x hx => hids x (List.mem_of_mem_drop (List.mem_of_mem_take hx))) hcand.length_le
    · exact hrec.isRecord
    · refine ⟨type, _, _, _, ?_, hcand, hrec⟩
      rw [List.append_assoc, ← List.drop_drop, List.take_append_drop, List.take_append_drop]
  next hge => exact ⟨hbest, Nat.le_refl _, by omega⟩

/-- The middle windows. -/
theorem Best.chooseMiddle {blockSize : Nat} (hpos : 1 ≤ blockSize)
    (hmax : blockSize ≤ c.maxIntegerSize) (n firstIdx : Nat)
    (hle : firstIdx + n + blockSize ≤ ids.length + 1) (hashCount : HashCount)
    {best : Nat × BitSetSIMD} (hbest : Best c ids best) :
    Best c ids (chooseMiddle c ids blockSize n firstIdx hashCount best).2 ∧
    best.1 ≤ (HybridEncode.chooseMiddle c ids blockSize n firstIdx hashCount best).2.1 := by
  induction n generalizing firstIdx hashCount best with
  | zero => exact ⟨hbest, Nat.le_refl _⟩
  | succ n ih =>
    have hcand : Candidate c .middle (ids.take firstIdx) ((ids.drop firstIdx).take blockSize)
        (ids.drop (firstIdx + blockSize)) := by
      constructor <;> simp <;> omega
    simp only [HybridEncode.chooseMiddle]
    generalize (hashCount.addHash _).removeHash _ = hashCount'
    obtain ⟨hbest', hmono, -⟩ := hbest.chooseHighest hc hids hlen hashCount' (by omega) hcand
    obtain ⟨hbest'', hmono'⟩ := ih (firstIdx + 1) (by omega) hashCount' hbest'
    exact ⟨hbest'', Nat.le_trans hmono hmono'⟩

theorem Best.chooseBlock {blockSize : Nat} (hpos : 1 ≤ blockSize)
    (hmax : blockSize ≤ c.maxIntegerSize) (hlong : c.maxKCoreSize < ids.length)
    {best : Nat × BitSetSIMD} (hbest : Best c ids best) :
    Best c ids (chooseBlock c ids best blockSize) ∧
    best.1 ≤ (HybridEncode.chooseBlock c ids best blockSize).1 ∧
    (HashCount.reConstruct c ids blockSize false).getScore c ids blockSize 0 .leftMost ≤
      (HybridEncode.chooseBlock c ids best blockSize).1 := by
  have hle := c.maxIntegerSize_le
  have hleft : Candidate c .leftMost (ids.take 0) ((ids.drop 0).take blockSize)
      (ids.drop (0 + blockSize)) := by
    constructor <;> simp <;> omega
  have hright : ∀ k, k + blockSize = ids.length →
      Candidate c .rightMost (ids.take k) ((ids.drop k).take blockSize)
        (ids.drop (k + blockSize)) := by
    intro k hk
    constructor <;> simp <;> omega
  simp only [HybridEncode.chooseBlock]
  obtain ⟨hbest₁, hmono₁, hscore₁⟩ := hbest.chooseHighest hc hids hlen
    (HashCount.reConstruct c ids blockSize false) (by omega) hleft
  split
  · obtain ⟨hbest₂, hmono₂, -⟩ := hbest₁.chooseHighest hc hids hlen
      (HashCount.reConstruct c ids blockSize true) (by omega)
      (hright (ids.length - blockSize) (by omega))
    exact ⟨hbest₂, Nat.le_trans hmono₁ hmono₂, Nat.le_trans hscore₁ hmono₂⟩
  · obtain ⟨hbest₂, hmono₂⟩ := hbest₁.chooseMiddle hc hids hlen hpos hmax
      (ids.length - blockSize - 1) 1 (by omega)
      (HashCount.reConstruct c ids blockSize false)
    obtain ⟨hbest₃, hmono₃, -⟩ := hbest₂.chooseHighest hc hids hlen _ (by omega)
      (hright (ids.length - blockSize - 1 + 1) (by omega))
    exact ⟨hbest₃, Nat.le_trans hmono₁ (Nat.le_trans hmono₂ hmono₃),
      Nat.le_trans hscore₁ (Nat.le_trans hmono₂ hmono₃)⟩

theorem Best.foldl_chooseBlock (hlong : c.maxKCoreSize < ids.length) (sizes : List Nat)
    (hsizes : ∀ b ∈ sizes, 1 ≤ b ∧ b ≤ c.maxIntegerSize) {best : Nat × BitSetSIMD}
    (hbest : Best c ids best) :
    Best c ids (sizes.foldl (HybridEncode.chooseBlock c ids) best) ∧
    best.1 ≤ (sizes.foldl (HybridEncode.chooseBlock c ids) best).1 := by
  induction sizes generalizing best with
  | nil => exact ⟨hbest, Nat.le_refl _⟩
  | cons b sizes ih =>
    obtain ⟨hpos, hmax⟩ := hsizes b (by simp)
    obtain ⟨hbest', hmono, -⟩ := hbest.chooseBlock hc hids hlen hpos hmax hlong
    obtain ⟨hbest'', hmono'⟩ := ih (fun x hx => hsizes x (by simp [hx])) hbest'
    exact ⟨hbest'', Nat.le_trans hmono hmono'⟩

/-- The search accepts some candidate. -/
theorem best_dynamicChoose (hv : c.vertexSize + 1 < 2 ^ 32) (hlong : c.maxKCoreSize < ids.length)
    {bitset : BitSetSIMD} (hrec : IsRecord c bitset) :
    Best c ids (dynamicChoose c ids bitset) ∧ 0 < (dynamicChoose c ids bitset).1 := by
  have hfull : Candidate c .fullHash (ids.take 0) ((ids.drop 0).take 0) (ids.drop (0 + 0)) := by
    constructor <;> simp
  have hstart : Best c ids (0, bitset) := ⟨hrec, fun h => absurd h (Nat.lt_irrefl 0)⟩
  obtain ⟨hbest₀, -, -⟩ := hstart.chooseHighest hc hids hlen
    (HashCount.reConstruct c ids 0 false) (by omega) hfull
  -- the first round, block size 1, already records a positive score
  have hpos := hc.maxIntegerSize_pos
  obtain ⟨hbest₁, -, hscore⟩ := hbest₀.chooseBlock hc hids hlen (Nat.le_refl 1) hpos hlong
  have hfirst : ids.getD 0 0 ≤ c.vertexSize := by
    cases ids with
    | nil => simp
    | cons id ids => exact (hids id (by simp)).2
  have hgt := HashCount.getScore_leftMost_pos hc hv hfirst
  obtain ⟨hbest₂, hmono⟩ := hbest₁.foldl_chooseBlock hc hids hlen hlong
    (List.range' 2 (c.maxIntegerSize - 1)) (by
      intro b hb
      rw [List.mem_range'_1] at hb
      omega)
  have hrange : List.range' 1 c.maxIntegerSize = 1 :: List.range' 2 (c.maxIntegerSize - 1) := by
    obtain ⟨m, hm⟩ : ∃ m, c.maxIntegerSize = m + 1 := ⟨c.maxIntegerSize - 1, by omega⟩
    simp [hm, List.range'_succ]
  unfold dynamicChoose
  rw [hrange, List.foldl_cons]
  exact ⟨hbest₂, by omega⟩

/-- `EncodeVertex` on a list that does not fit leaves a candidate in the record,
    whatever the record held before. -/
theorem holdsCandidate_encodeBits (hv : c.vertexSize + 1 < 2 ^ 32)
    (hlong : c.maxKCoreSize < ids.length) {bitset : BitSetSIMD} (hrec : IsRecord c bitset) :
    HoldsCandidate c ids (encodeBits c ids bitset) := by
  obtain ⟨hbest, hpos⟩ := best_dynamicChoose hc hids hlen hv hlong hrec
  unfold encodeBits
  rw [if_neg (by omega)]
  exact hbest.holds hpos

end Search

/-! ## Section 8: The verdict of an encoded record -/

section Encoded

variable {c : Config} (hc : c.Packed) (hv : c.vertexSize + 1 < 2 ^ 32) {ids : List Nat}
variable (hids : IdList c ids) (hsorted : ids.Pairwise (· ≤ ·)) (hlen : ids.length < 2 ^ 32 - 1)
variable {bitset : BitSetSIMD} (hrec : IsRecord c bitset)
include hc hids hlen hrec hv

/-- The flag tells whether the list fits the slots. -/
theorem isOne_encodeBits :
    (encodeBits c ids bitset).isOne 0 = decide (ids.length ≤ c.maxKCoreSize) := by
  by_cases hfit : ids.length ≤ c.maxKCoreSize
  · rw [(fullRecord_encodeBits hc hrec hids hfit).flag, decide_eq_true hfit]
  · obtain ⟨type, before, block, after, -, -, hblock⟩ :=
      holdsCandidate_encodeBits hc hids hlen hv (by omega) hrec
    rw [hblock.flag, decide_eq_false hfit]

theorem isRecord_encodeBits : IsRecord c (encodeBits c ids bitset) := by
  by_cases hfit : ids.length ≤ c.maxKCoreSize
  · exact (fullRecord_encodeBits hc hrec hids hfit).isRecord
  · obtain ⟨type, before, block, after, -, -, hblock⟩ :=
      holdsCandidate_encodeBits hc hids hlen hv (by omega) hrec
    exact hblock.isRecord

include hsorted

/-- A stored neighbour is never reported as absent, whatever the record held
    before it was written. -/
theorem testBits_encodeBits_of_mem (hsimd : Bool) {w : Nat} (hmem : w ∈ ids) :
    testBits c hsimd (encodeBits c ids bitset) w ≠ .nonNeighbor := by
  obtain ⟨hw, hupper⟩ := hids w hmem
  by_cases hfit : ids.length ≤ c.maxKCoreSize
  · rw [(fullRecord_encodeBits hc hrec hids hfit).testBits_of_mem (Or.inr hsorted) hw hmem]
    simp
  · obtain ⟨type, before, block, after, heq, hcand, hblock⟩ :=
      holdsCandidate_encodeBits hc hids hlen hv (by omega) hrec
    subst heq
    exact testBits_block_of_mem hv hcand hblock hsimd hsorted hw hupper hmem

omit hrec in
/-- A record written on cleared bits is exact up to `Uncertain`. -/
theorem speaks_encodeBits_fresh (hsimd : Bool) {w : Nat} (hw : 1 ≤ w) :
    Speaks ((encodeBits c ids (ofBitSize c.perEncodeBitSize)).isOne 0) (w ∈ ids)
      (testBits c hsimd (encodeBits c ids (ofBitSize c.perEncodeBitSize)) w) := by
  have hrec := isRecord_ofBitSize c
  refine ⟨?_, fun hmem => testBits_encodeBits_of_mem hc hv hids hsorted hlen hrec hsimd hmem, ?_⟩
  · intro htest
    by_cases hfit : ids.length ≤ c.maxKCoreSize
    · have hfull := fullRecord_encodeBits hc hrec hids hfit
      rcases hfull.mem_or_staleHit hw htest with hmem | ⟨-, hstale⟩
      · exact hmem
      · -- a cleared record has nothing left behind
        obtain ⟨i, -, heq⟩ := exists_slot_of_findBlock hw hstale
        rw [blockGet_eq _ hc.vertexBitSize_pos c.vertexBitSize_le,
          field_eq_zero fun p _ _ => bit_ofBitSize _ p] at heq
        omega
    · obtain ⟨type, before, block, after, heq, hcand, hblock⟩ :=
        holdsCandidate_encodeBits hc hids hlen hv (by omega) hrec
      subst heq
      exact testBits_block_neighbor hblock hw htest
  · intro hflag
    rw [isOne_encodeBits hc hv hids hlen hrec, decide_eq_true_eq] at hflag
    exact (fullRecord_encodeBits hc hrec hids hflag).testBits_ne_uncertain hsimd w

end Encoded

end HybridEncode

end Vend
