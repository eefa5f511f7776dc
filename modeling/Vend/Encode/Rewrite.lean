import Vend.Encode.DeltaSIMDEncodeV3
import Vend.Encode.HybridVerdict

/-! # Records that are written twice

    `InsertPair` and `DeletePair` of `HybridEncode` and of `DeltaSIMDEncodeV3` call
    `EncodeVertex` on a record that holds an older list. This module compares such a
    record with one that was cleared before.

    `HybridEncode::SetNonDecodable` clears the record first, so a list that does not
    fit the slots leaves no trace of the old one. A list that fits is written over the
    front slots only, and what stands behind them can be found by a search. `V3` is the
    other way round: a list that fits is read back by its size, and one that does not
    fit inherits the flag and the hash bits of the old list.
-/

namespace Vend

open BitField BitSetSIMD

namespace HybridEncode

/-! ## Section 1: The block search forgets the record it began with -/

/-- Two runs of the search on two records: once a score is recorded, the records are
    the same. -/
structure Alike (best best' : Nat × BitSetSIMD) : Prop where
  score : best.1 = best'.1
  length_eq : best.2.data.length = best'.2.data.length
  same : 0 < best.1 → best.2 = best'.2

/-- `Clear` leaves nothing but the length. -/
theorem clear_congr {bitset bitset' : BitSetSIMD} (h : bitset.data.length = bitset'.data.length) :
    bitset.clear = bitset'.clear := by
  apply eq_of_bit
  · rw [length_clear, length_clear, h]
  · intro p
    rw [bit_clear, bit_clear]

theorem setNonDecodable_congr (c : Config) (block left : List Nat) (type : BlockType)
    {bitset bitset' : BitSetSIMD} (h : bitset.data.length = bitset'.data.length) :
    setNonDecodable c block left type bitset = setNonDecodable c block left type bitset' := by
  unfold setNonDecodable
  rw [clear_congr h]

section Search

variable (c : Config) (ids : List Nat) {best best' : Nat × BitSetSIMD}

theorem Alike.chooseHighest (h : Alike best best') (hashCount : HashCount)
    (blockSize firstIdx : Nat) (type : BlockType) :
    Alike (chooseHighest c ids best hashCount blockSize firstIdx type)
      (HybridEncode.chooseHighest c ids best' hashCount blockSize firstIdx type) := by
  have hscore := h.score
  simp only [HybridEncode.chooseHighest]
  rw [← hscore]
  split
  · have hrec := setNonDecodable_congr c ((ids.drop firstIdx).take blockSize)
      ((if 0 < firstIdx then ids.take firstIdx else []) ++
        (if sub32 (firstIdx + blockSize) 1 ≠ ids.length then ids.drop (firstIdx + blockSize) else []))
      type h.length_eq
    exact ⟨rfl, congrArg (·.data.length) hrec, fun _ => hrec⟩
  · exact h

theorem Alike.chooseMiddle (blockSize n firstIdx : Nat) (hashCount : HashCount)
    (h : Alike best best') :
    (chooseMiddle c ids blockSize n firstIdx hashCount best).1 =
      (HybridEncode.chooseMiddle c ids blockSize n firstIdx hashCount best').1 ∧
    Alike (HybridEncode.chooseMiddle c ids blockSize n firstIdx hashCount best).2
      (HybridEncode.chooseMiddle c ids blockSize n firstIdx hashCount best').2 := by
  induction n generalizing firstIdx hashCount best best' with
  | zero => exact ⟨rfl, h⟩
  | succ n ih => exact ih _ _ (h.chooseHighest c ids _ _ _ _)

theorem Alike.chooseBlock (h : Alike best best') (blockSize : Nat) :
    Alike (chooseBlock c ids best blockSize) (HybridEncode.chooseBlock c ids best' blockSize) := by
  simp only [HybridEncode.chooseBlock]
  split
  · exact (h.chooseHighest c ids _ _ _ _).chooseHighest c ids _ _ _ _
  · have hleft := h.chooseHighest c ids (HashCount.reConstruct c ids blockSize false) blockSize 0
      .leftMost
    obtain ⟨hcount, hswept⟩ := hleft.chooseMiddle c ids blockSize (ids.length - blockSize - 1) 1
      (HashCount.reConstruct c ids blockSize false)
    rw [hcount]
    exact hswept.chooseHighest c ids _ _ _ _

theorem alike_dynamicChoose {bitset bitset' : BitSetSIMD}
    (h : bitset.data.length = bitset'.data.length) :
    Alike (dynamicChoose c ids bitset) (dynamicChoose c ids bitset') := by
  have hfold : ∀ (sizes : List Nat) (best best' : Nat × BitSetSIMD), Alike best best' →
      Alike (sizes.foldl (chooseBlock c ids) best) (sizes.foldl (chooseBlock c ids) best') := by
    intro sizes
    induction sizes with
    | nil => exact fun _ _ h => h
    | cons size sizes ih => exact fun _ _ h => ih _ _ (h.chooseBlock c ids size)
  have hstart : Alike (0, bitset) (0, bitset') := ⟨rfl, h, fun h => absurd h (Nat.lt_irrefl 0)⟩
  exact hfold _ _ _ (hstart.chooseHighest c ids _ _ _ _)

variable {c ids}

/-- A list that does not fit is written as if the record had been cleared. -/
theorem encodeBits_congr (hc : c.Packed) (hv : c.vertexSize + 1 < 2 ^ 32) (hids : IdList c ids)
    (hlen : ids.length < 2 ^ 32 - 1) (hlong : c.maxKCoreSize < ids.length)
    {bitset bitset' : BitSetSIMD} (hrec : IsRecord c bitset) (hrec' : IsRecord c bitset') :
    encodeBits c ids bitset = encodeBits c ids bitset' := by
  have hlength : bitset.data.length = bitset'.data.length := by
    unfold IsRecord bitLength at hrec hrec'
    omega
  obtain ⟨-, hpos⟩ := best_dynamicChoose hc hids hlen hv hlong hrec
  unfold encodeBits
  rw [if_neg (by omega), if_neg (by omega)]
  exact (alike_dynamicChoose c ids hlength).same hpos

end Search

/-! ## Section 2: A list that fits -/

/-- A decodable record reports exactly what it stores and what was left behind. -/
theorem FullRecord.testBits_eq_neighbor_iff {c : Config} {ids : List Nat}
    {old encode : BitSetSIMD} (h : FullRecord c ids old encode) (hsimd : Bool)
    (hsorted : ids.Pairwise (· ≤ ·)) {w : Nat} (hw : 1 ≤ w) :
    testBits c hsimd encode w = .neighbor ↔ w ∈ ids ∨ StaleHit c hsimd ids old w := by
  refine ⟨h.mem_or_staleHit hw, ?_⟩
  rintro (hmem | ⟨hbelow, hfind⟩)
  · exact h.testBits_of_mem (Or.inr hsorted) hw hmem
  · have hle := h.length_le
    have hshift : ∀ i, 1 + ids.length * c.vertexBitSize + i * c.vertexBitSize =
        1 + (ids.length + i) * c.vertexBitSize := by intro i; ring
    -- a slot behind the list is the one of the old record
    have hslot : ∀ i, i < c.maxKCoreSize - ids.length →
        slot c encode (ids.length + i) = old.blockGet (1 + ids.length * c.vertexBitSize +
          i * c.vertexBitSize) c.vertexBitSize := by
      intro i hi
      rw [h.rest _ (by omega) (by omega), slot, hshift]
    rw [testBits, if_pos h.flag]
    unfold findBlock at hfind ⊢
    cases hsimd with
    | true =>
      simp only [if_true] at hfind ⊢
      rw [blockFindSIMD_eq_neighbor_iff _ _ _ _ hw] at hfind ⊢
      obtain ⟨i, hi, heq⟩ := hfind
      exact ⟨ids.length + i, by omega, (hslot i hi).trans heq⟩
    | false =>
      simp only [Bool.false_eq_true, if_false] at hfind ⊢
      have hids : ∀ id ∈ ids, id < w := hbelow.resolve_left (by simp)
      rw [blockFind_eq_neighbor_iff] at hfind ⊢
      obtain ⟨i, hi, heq, hearlier⟩ := hfind
      refine ⟨ids.length + i, by omega, (hslot i hi).trans heq, ?_⟩
      intro j hj
      change slot c encode j < w
      by_cases hlt : j < ids.length
      · rw [h.slots j hlt]
        exact hids _ (List.getElem_mem hlt)
      · obtain ⟨k, rfl⟩ : ∃ k, j = ids.length + k := ⟨j - ids.length, by omega⟩
        rw [hslot k (by omega)]
        exact hearlier k (by omega)

/-- Cleared slots hold no id. -/
theorem not_staleHit_fresh {c : Config} (hc : c.Packed) (hsimd : Bool) (ids : List Nat) {w : Nat}
    (hw : 1 ≤ w) : ¬ StaleHit c hsimd ids (ofBitSize c.perEncodeBitSize) w := by
  rintro ⟨-, hfind⟩
  obtain ⟨i, -, heq⟩ := exists_slot_of_findBlock hw hfind
  rw [blockGet_eq _ hc.vertexBitSize_pos c.vertexBitSize_le,
    field_eq_zero fun p _ _ => bit_ofBitSize _ p] at heq
  omega

/-- What is left behind when the old list fitted as well: its last ids. -/
theorem staleHit_iff_of_fits {c : Config} (hc : c.Packed) {l₁ l₂ : List Nat} (h₁ : IdList c l₁)
    (hsorted : l₁.Pairwise (· ≤ ·)) (hfit : l₁.length ≤ c.maxKCoreSize) (hsimd : Bool) {w : Nat}
    (hw : 1 ≤ w) :
    StaleHit c hsimd l₂ (encodeBits c l₁ (ofBitSize c.perEncodeBitSize)) w ↔
      (hsimd = true ∨ ∀ id ∈ l₂, id < w) ∧ w ∈ l₁.drop l₂.length := by
  have hfull := fullRecord_encodeBits hc (isRecord_ofBitSize c) h₁ hfit
  generalize encodeBits c l₁ (ofBitSize c.perEncodeBitSize) = encode at hfull ⊢
  have hshift : ∀ i, 1 + l₂.length * c.vertexBitSize + i * c.vertexBitSize =
      1 + (l₂.length + i) * c.vertexBitSize := by intro i; ring
  unfold StaleHit
  apply and_congr_right
  intro _
  constructor
  · intro hfind
    obtain ⟨i, hi, heq⟩ := exists_slot_of_findBlock hw hfind
    rw [hshift] at heq
    change slot c encode (l₂.length + i) = w at heq
    by_cases hlt : l₂.length + i < l₁.length
    · rw [hfull.slots _ hlt] at heq
      rw [← heq, List.mem_iff_getElem]
      exact ⟨i, by rw [List.length_drop]; omega, by rw [List.getElem_drop]⟩
    · -- behind the old list the slots are empty
      rw [hfull.rest _ (by omega) (by omega), slot,
        blockGet_eq _ hc.vertexBitSize_pos c.vertexBitSize_le,
        field_eq_zero fun p _ _ => bit_ofBitSize _ p] at heq
      omega
  · intro hmem
    refine findBlock_of_mem (Or.inr (hsorted.sublist (List.drop_sublist _ _))) ?_ hw ?_ hmem
    · rw [List.length_drop]
      omega
    · intro i hi
      rw [List.length_drop] at hi
      rw [hshift, List.getElem_drop]
      exact hfull.slots _ (by omega)

/-! ## Section 3: The trace of an old list -/

/-- Both ways to encode the vertex have a result, and no query on the vertex tells them
    apart. -/
def LeavesNoTrace (c : Config) (hsimd : Bool) (v : Nat) (l₁ l₂ : List Nat) : Prop :=
  ∃ twice once, (encodeVertexAt c v l₁ (Records.constructed c)).bind (encodeVertexAt c v l₂) =
      some twice ∧
    encodeVertexAt c v l₂ (Records.constructed c) = some once ∧
    ∀ w, 1 ≤ w → w ≤ c.vertexSize →
      nonNeighborTest c hsimd twice v w = nonNeighborTest c hsimd once v w

/-- There are records, the loop counters reach the ends of the lists, and a list that
    fits does not let a search come upon an id of the old record. -/
def Overwrites (c : Config) (hsimd : Bool) (l₁ l₂ : List Nat) : Prop :=
  c.vertexSize + 1 < 2 ^ 32 ∧ l₁.length < 2 ^ 31 ∧ l₂.length < 2 ^ 31 ∧
    (l₂.length ≤ c.maxKCoreSize → ∀ w, 1 ≤ w → w ≤ c.vertexSize → w ∉ l₂ →
      ¬ StaleHit c hsimd l₂ (encodeBits c l₁ (ofBitSize c.perEncodeBitSize)) w)

section Trace

variable {c : Config} (hc : c.Packed) {v : Nat} (hle : v ≤ c.vertexSize) {l₁ l₂ : List Nat}
variable (h₁ : IdList c l₁) (h₂ : IdList c l₂) (hs₂ : l₂.Pairwise (· ≤ ·))

/-- The verdicts of two records of the same list that fits. -/
theorem testBits_eq_iff {ids : List Nat} {old encode encode' : BitSetSIMD} (hc : c.Packed)
    (h : FullRecord c ids old encode)
    (h' : FullRecord c ids (ofBitSize c.perEncodeBitSize) encode') (hsorted : ids.Pairwise (· ≤ ·))
    (hsimd : Bool) {w : Nat} (hw : 1 ≤ w) :
    testBits c hsimd encode w = testBits c hsimd encode' w ↔
      (w ∉ ids → ¬ StaleHit c hsimd ids old w) := by
  have hiff := h.testBits_eq_neighbor_iff hsimd hsorted hw
  have hiff' := h'.testBits_eq_neighbor_iff hsimd hsorted hw
  have hnone := not_staleHit_fresh hc hsimd ids hw
  have hne := h.testBits_ne_uncertain hsimd w
  have hne' := h'.testBits_ne_uncertain hsimd w
  by_cases hmem : w ∈ ids
  · rw [hiff.mpr (Or.inl hmem), hiff'.mpr (Or.inl hmem)]
    simp [hmem]
  · simp only [hmem, false_or, not_false_eq_true, true_implies, hnone, iff_false] at hiff hiff' ⊢
    rw [← hiff]
    cases htest : testBits c hsimd encode w <;> cases htest' : testBits c hsimd encode' w <;>
      simp_all

include hle in
/-- The record of the vertex after both calls. -/
theorem record_encodeVertex_twice (l₁ l₂ : List Nat) :
    (encodeVertex c v l₂ (encodeVertex c v l₁ (Records.fresh c))).record v =
      encodeBits c l₂ (encodeBits c l₁ (ofBitSize c.perEncodeBitSize)) := by
  have hlt : v < (encodeVertex c v l₁ (Records.fresh c)).length := by
    rw [encodeVertex, Records.length_update]
    exact Records.lt_length_fresh hle
  rw [encodeVertex, Records.record_update _ _ hlt, if_pos rfl, record_encodeVertex_fresh hle]

include hc hle h₁ h₂ hs₂

omit hc h₁ h₂ hs₂ in
/-- Where both lists can be encoded, the queries compare the two records. -/
theorem leavesNoTrace_iff_testBits (hsimd : Bool) (hv : c.vertexSize + 1 < 2 ^ 32)
    (hlen₁ : l₁.length < 2 ^ 31) (hlen₂ : l₂.length < 2 ^ 31) :
    LeavesNoTrace c hsimd v l₁ l₂ ↔ ∀ w, 1 ≤ w → w ≤ c.vertexSize →
      testBits c hsimd (encodeBits c l₂ (encodeBits c l₁ (ofBitSize c.perEncodeBitSize))) w =
        testBits c hsimd (encodeBits c l₂ (ofBitSize c.perEncodeBitSize)) w := by
  unfold LeavesNoTrace
  rw [encodeVertexAt_constructed hv hle hlen₂,
    encodeVertexAt_bind_constructed hv hle hle hlen₁ hlen₂]
  simp only [Option.some.injEq, exists_and_left, exists_eq_left', nonNeighborTest,
    record_encodeVertex_twice hle, record_encodeVertex_fresh hle]

theorem leavesNoTrace_iff (hsimd : Bool) :
    (Overwrites c hsimd l₁ l₂ → LeavesNoTrace c hsimd v l₁ l₂) ∧
    (l₁.length < 2 ^ 32 → l₂.length < 2 ^ 32 → LeavesNoTrace c hsimd v l₁ l₂ →
      Overwrites c hsimd l₁ l₂) := by
  have hfresh := isRecord_ofBitSize c
  constructor
  · rintro ⟨hv, hlen₁, hlen₂, hclean⟩
    rw [leavesNoTrace_iff_testBits hle hsimd hv hlen₁ hlen₂]
    intro w hw hw'
    have hrec₁ := isRecord_encodeBits hc hv h₁ (by omega) hfresh
    by_cases hfit : l₂.length ≤ c.maxKCoreSize
    · exact (testBits_eq_iff hc (fullRecord_encodeBits hc hrec₁ h₂ hfit)
        (fullRecord_encodeBits hc hfresh h₂ hfit) hs₂ hsimd hw).mpr (hclean hfit w hw hw')
    · -- a list that does not fit is written over a cleared record
      rw [encodeBits_congr hc hv h₂ (by omega) (by omega) hrec₁ hfresh]
  · intro hshort₁ hshort₂ hno
    -- both calls return, so there are records and both lists are short
    obtain ⟨twice, once, htwice, honce, -⟩ := id hno
    obtain ⟨first, hfirst, hsecond⟩ := Option.bind_eq_some_iff.mp htwice
    have hv := vertexSize_lt_of_encodeVertexAt hfirst
    have hlen₁ := length_lt_of_encodeVertexAt hc hfirst hshort₁
    have hlen₂ := length_lt_of_encodeVertexAt hc honce hshort₂
    rw [leavesNoTrace_iff_testBits hle hsimd hv hlen₁ hlen₂] at hno
    have hrec₁ := isRecord_encodeBits hc hv h₁ (by omega) hfresh
    refine ⟨hv, hlen₁, hlen₂, fun hfit w hw hw' => ?_⟩
    exact (testBits_eq_iff hc (fullRecord_encodeBits hc hrec₁ h₂ hfit)
      (fullRecord_encodeBits hc hfresh h₂ hfit) hs₂ hsimd hw).mp (hno w hw hw')

end Trace

end HybridEncode

namespace DeltaSIMDEncodeV3

open DeltaSIMDCodecV3
open DeltaSIMDEncode (BlockInfo codecV3 maxBytesLen hash memory Stored findDecodable
  findNonDecodable fresh_header)

/-! ## Section 4: What a query reads of a `V3` record -/

/-- `EncodeVertex(vertex_id, neighbors)`. -/
def encodeVertex (c : Config) (vertexId : Nat) (neighbors : List Nat) (encodes : Records) :
    Records :=
  encodes.update vertexId (encodeBits c neighbors)

/-- `NonNeighborTest(vertex1, vertex2)`. The memory behind the record is `tail`. -/
def nonNeighborTest (c : Config) (hsimd : Bool) (tail : Nat → Byte) (encodes : Records)
    (vertex1 vertex2 : Nat) : PairType :=
  testWith c hsimd tail (encodes.record vertex1) vertex2

/-- The memory that holds the codec bytes of a list. -/
def bytesOf (ids : List Nat) (p : Nat) : Byte := (encodeArray ids).getD p 0

theorem stored_bytesOf (ids : List Nat) : Stored (bytesOf ids) (encodeArray ids) := fun _ _ => rfl

/-- The verdict of a block without a look at the hash bits, if it gives one. -/
def verdictOf (c : Config) (block : BlockInfo) (ids : List Nat) (w : Nat) : Option PairType :=
  if block.blockSize = 0 then none
  else
    let res := findWithCount (bytesOf (block.inside ids)) block.blockSize w
    if res.val = 0 then some .neighbor
    else if res.val &&& block.blockType.val ≠ 0 then some .nonNeighbor
    else if hashBegin block ids = c.perEncodeBitSize then some .uncertain
    else none

/-- The choice of a full hash leaves the size field to the byte length of the list, and the
    hash bits are read as codec bytes. -/
def Misread (c : Config) (ids : List Nat) : Prop :=
  (dynamicChoose c ids).blockType = .fullHash ∧ getRequiredBytes ids % 32 ≠ 0

instance (c : Config) (ids : List Nat) : Decidable (Misread c ids) :=
  inferInstanceAs (Decidable (_ ∧ _))

/-- The bytes of a list tell its length. -/
theorem getEncodeLength_of_stored {mem : Nat → Byte} {ids : List Nat} (hne : ids ≠ [])
    (hmem : Stored mem (encodeArray ids)) :
    DeltaSIMDCodec.getEncodeLength mem ids.length = (encodeArray ids).length := by
  have hne' : arrange ids ≠ [] := by
    intro h
    have hlen := length_arrange ids
    rw [h, List.length_nil] at hlen
    exact hne (List.length_eq_zero_iff.mp hlen.symm)
  have hlen := DeltaSIMDCodec.getEncodeLength_eq (stream_of_stored hmem) hne'
  rw [length_arrange] at hlen
  rw [hlen, encodeArray, DeltaSIMDCodec.length_encodeArray]

theorem length_inside_le {c : Config} (hc : c.Narrow) (ids : List Nat) :
    ((dynamicChoose c ids).inside ids).length = (dynamicChoose c ids).blockSize ∧
    (dynamicChoose c ids).blockSize ≤ 40 := by
  have hvalid := valid_dynamicChoose hc ids
  have hsize := hvalid.size_lt
  exact ⟨DeltaSIMDEncode.length_inside hvalid.bound, by omega⟩

section Query

variable {c : Config} (hc : c.Narrow) {ids : List Nat} (hlt : ∀ id ∈ ids, id < 2 ^ 31)
variable {old encode : BitSetSIMD} (h : Rewritten c ids (dynamicChoose c ids) old encode)
variable (hread : ¬ Misread c ids)
include hc hlt h hread

omit hlt in
/-- The size that is read back is the one of the block. -/
theorem Rewritten.size_eq : encode.getEncodeSize = (dynamicChoose c ids).blockSize := by
  have hvalid := valid_dynamicChoose hc ids
  rw [h.size]
  split
  · rename_i hfull
    have hzero : getRequiredBytes ids % 32 = 0 := by
      by_contra hne
      exact hread ⟨hfull, hne⟩
    rw [hzero, hvalid.fullHash.mp hfull]
  · rfl

omit hread in
theorem Rewritten.find_eq (tail : Nat → Byte) (w : Nat)
    (hsize : (dynamicChoose c ids).blockSize ≠ 0) :
    findWithCount (memory encode tail) (dynamicChoose c ids).blockSize w =
      findWithCount (bytesOf ((dynamicChoose c ids).inside ids)) (dynamicChoose c ids).blockSize w := by
  obtain ⟨hlen, hle⟩ := length_inside_le hc ids
  have hne : (dynamicChoose c ids).inside ids ≠ [] := by
    intro hnil
    rw [hnil, List.length_nil] at hlen
    exact hsize hlen.symm
  rw [← hlen]
  have hsame := sameIds_of_stream (stream_of_stored (h.stored tail))
    (stream_of_stored (stored_bytesOf _))
    fun id hid => hlt id (List.mem_of_mem_drop (List.mem_of_mem_take hid))
  exact findWithCount_congr hsame w (by omega) (List.length_pos_iff.mpr hne)

/-- A record that is taken for decodable answers from the codec bytes. -/
theorem Rewritten.findDecodable_eq (tail : Nat → Byte) (w : Nat) :
    findDecodable codecV3 tail encode w =
      if (dynamicChoose c ids).blockSize = 0 then .nonNeighbor
      else if (findWithCount (bytesOf ((dynamicChoose c ids).inside ids))
        (dynamicChoose c ids).blockSize w).val = 0 then .neighbor
      else .nonNeighbor := by
  unfold findDecodable
  rw [h.size_eq hc hread]
  by_cases hsize : (dynamicChoose c ids).blockSize = 0
  · simp only [if_pos hsize]
  · simp only [if_neg hsize, codecV3, h.find_eq hc hlt tail w hsize]

/-- An undecodable record answers from the codec bytes or else from one hash bit. -/
theorem Rewritten.findNonDecodable_eq (tail : Nat → Byte) (w : Nat) :
    findNonDecodable c codecV3 tail encode w =
      (verdictOf c (dynamicChoose c ids) ids w).getD
        (if encode.isOne (hash c w (hashBegin (dynamicChoose c ids) ids)) then .uncertain
          else .nonNeighbor) := by
  obtain ⟨hlen, hle⟩ := length_inside_le hc ids
  have hvalid := valid_dynamicChoose hc ids
  unfold findNonDecodable verdictOf
  rw [h.size_eq hc hread]
  by_cases hsize : (dynamicChoose c ids).blockSize = 0
  · have hbegin : hashBegin (dynamicChoose c ids) ids = 8 := by
      rw [hashBegin, List.length_eq_zero_iff.mp (hlen.trans hsize)]
      rfl
    simp only [if_pos hsize, hbegin, Option.getD_none]
  · have hne : (dynamicChoose c ids).inside ids ≠ [] := by
      intro hnil
      rw [hnil, List.length_nil] at hlen
      exact hsize hlen.symm
    have htype : (dynamicChoose c ids).blockType ≠ .fullHash :=
      fun hfull => hsize (hvalid.fullHash.mp hfull)
    have hfind := h.find_eq hc hlt tail w hsize
    have hlength := getEncodeLength_of_stored hne (h.stored tail)
    rw [hlen] at hlength
    have hbegin : (1 + DeltaSIMDCodec.getEncodeLength (memory encode tail)
        (dynamicChoose c ids).blockSize) * 8 = hashBegin (dynamicChoose c ids) ids := by
      rw [hlength, hashBegin, Nat.add_comm]
    simp only [if_neg hsize, codecV3, hfind, h.model, if_neg htype, hbegin]
    split
    · rfl
    · split
      · rfl
      · by_cases hfull : hashBegin (dynamicChoose c ids) ids = c.perEncodeBitSize
        · simp [hfull]
        · simp [hfull]

end Query

/-! ## Section 5: The trace of an old list in a `V3` record -/

/-- No query on the vertex tells whether the record held another list before. -/
def LeavesNoTrace (c : Config) (hsimd : Bool) (v : Nat) (l₁ l₂ : List Nat) : Prop :=
  ∀ tail w, 1 ≤ w → w ≤ c.vertexSize →
    nonNeighborTest c hsimd tail (encodeVertex c v l₂ (encodeVertex c v l₁ (Records.fresh c))) v w =
      nonNeighborTest c hsimd tail (encodeVertex c v l₂ (Records.fresh c)) v w

/-- The query for `w` reads a hash bit that the old record set and that no id of the new
    list sets. -/
def StaleBit (c : Config) (block : BlockInfo) (old : BitSetSIMD) (ids : List Nat) (w : Nat) : Prop :=
  verdictOf c block ids w = none ∧
    old.isOne (hash c w (hashBegin block ids)) = true ∧
    ∀ id ∈ block.outside ids, hash c id (hashBegin block ids) ≠ hash c w (hashBegin block ids)

/-- The bits that are neither written over nor set anyway are clear. -/
def NothingLeft (c : Config) (old : BitSetSIMD) (ids : List Nat) : Prop :=
  if getRequiredBytes ids ≤ maxBytesLen c then
    ∀ p, (getRequiredBytes ids + 1) * 8 ≤ p → p < c.perEncodeBitSize → old.bit p = false
  else
    (old.getFirstBit = true → 128 ≤ getRequiredBytes ids % 256) ∧
      ∀ p, hashBegin (dynamicChoose c ids) ids ≤ p → p < c.perEncodeBitSize → old.bit p = true →
        ∃ id ∈ (dynamicChoose c ids).outside ids, hash c id (hashBegin (dynamicChoose c ids) ids) = p

/-- What is left of the old record `old` is never read. With `HSIMD = 0` this is so when
    the list fits, when its byte length sets the flag, and when `old` has neither the
    flag nor a hash bit that shows. The lanes behind the last id, which `HSIMD ≠ 0` compares
    as well, and hash bits that are misread as codec bytes take up any bit. -/
def Overwrites (c : Config) (hsimd : Bool) (old : BitSetSIMD) (ids : List Nat) : Prop :=
  if hsimd = true ∨ ¬ getRequiredBytes ids ≤ maxBytesLen c ∧ Misread c ids then
    NothingLeft c old ids
  else getRequiredBytes ids ≤ maxBytesLen c ∨ 128 ≤ getRequiredBytes ids % 256 ∨
    (old.getFirstBit = false ∧
      ∀ w, 1 ≤ w → w ≤ c.vertexSize → ¬ StaleBit c (dynamicChoose c ids) old ids w)

/-- A query reads the header fields and the bits behind the header. -/
theorem testBits_congr {c : Config} {codec : DeltaSIMDEncode.Codec} {encode encode' : BitSetSIMD}
    (hlen : encode.data.length = encode'.data.length)
    (hflag : encode.getFirstBit = encode'.getFirstBit)
    (hmodel : encode'.getFirstBit = false →
      DeltaSIMDEncode.getBlockModel encode = DeltaSIMDEncode.getBlockModel encode')
    (hsize : encode.getEncodeSize = encode'.getEncodeSize)
    (hbit : ∀ p, 8 ≤ p → encode.bit p = encode'.bit p) (tail : Nat → Byte) (w : Nat) :
    DeltaSIMDEncode.testBits c codec tail encode w =
      DeltaSIMDEncode.testBits c codec tail encode' w := by
  have hmem : memory encode tail = memory encode' tail := by
    funext p
    have hbyte : encode.byte (p + 1) = encode'.byte (p + 1) := by
      apply BitVec.eq_of_getLsbD_eq
      intro j hj
      rw [getLsbD_byte _ hj, getLsbD_byte _ hj, hbit _ (by omega)]
    unfold memory
    rw [hlen, hbyte]
  have hone : ∀ n, encode.isOne (hash c w ((n + 1) * 8)) = encode'.isOne (hash c w ((n + 1) * 8)) := by
    intro n
    rw [isOne_eq_bit, isOne_eq_bit]
    apply hbit
    unfold DeltaSIMDEncode.hash HybridEncode.hash
    omega
  have hone₀ := hone 0
  have hone₁ := hone (DeltaSIMDCodec.getEncodeLength (memory encode' tail) encode'.getEncodeSize)
  rw [Nat.add_comm] at hone₁
  unfold DeltaSIMDEncode.testBits findDecodable
  rw [hflag, hsize, hmem]
  cases hdec : encode'.getFirstBit with
  | true => rfl
  | false =>
    unfold findNonDecodable
    simp only [hmodel hdec, hsize, hmem, hone₁]
    rw [show (8 : Nat) = (0 + 1) * 8 from rfl, hone₀]

/-- Behind a record there is nothing. -/
theorem bit_behind {c : Config} {encode : BitSetSIMD} (hrec : IsRecord c encode) {p : Nat}
    (hp : ¬ p < c.perEncodeBitSize) : encode.bit p = false := by
  unfold IsRecord bitLength at hrec
  rw [bit_eq_getLsbD, byte, List.getD_eq_default _ _ (by omega)]
  exact BitVec.getLsbD_zero

section Trace

variable {c : Config} (hc : c.Narrow) {ids : List Nat} (h : DeltaSIMDCodec.Ascending ids)
variable {old : BitSetSIMD} (hrec : IsRecord c old)

/-- The record that was cleared before. -/
theorem getFirstBit_fresh_rewritten {encode : BitSetSIMD} {block : BlockInfo}
    (hnew : Rewritten c ids block (ofBitSize c.perEncodeBitSize) encode) :
    encode.getFirstBit = decide (128 ≤ getRequiredBytes ids % 256) := by
  rw [hnew.flag, (fresh_header c).1, Bool.false_or]

include hc

/-- The two records of the same list. -/
theorem rewritten_pair (hrec : IsRecord c old) (hlong : ¬ getRequiredBytes ids ≤ maxBytesLen c) :
    Rewritten c ids (dynamicChoose c ids) old (encodeBits c ids old) ∧
    Rewritten c ids (dynamicChoose c ids) (ofBitSize c.perEncodeBitSize)
      (encodeBits c ids (ofBitSize c.perEncodeBitSize)) :=
  ⟨rewritten_encodeBits hc hrec hlong, rewritten_encodeBits hc (isRecord_ofBitSize c) hlong⟩

/-- A query that goes on to the hash bits has some to read. -/
theorem hashBegin_ne_of_verdictOf {w : Nat}
    (hverdict : verdictOf c (dynamicChoose c ids) ids w = none) :
    hashBegin (dynamicChoose c ids) ids ≠ c.perEncodeBitSize := by
  unfold verdictOf at hverdict
  split at hverdict
  · rename_i hsize
    have hper := c.perEncodeBitSize_ge
    obtain ⟨hlen, -⟩ := length_inside_le hc ids
    rw [hashBegin, List.length_eq_zero_iff.mp (hlen.trans hsize)]
    show (0 + 1) * 8 ≠ _
    omega
  · intro hfull
    simp only [hfull, if_true] at hverdict
    split at hverdict
    · cases hverdict
    · split at hverdict <;> cases hverdict

theorem hash_range (w : Nat) (hno : hashBegin (dynamicChoose c ids) ids ≠ c.perEncodeBitSize) :
    hashBegin (dynamicChoose c ids) ids ≤ hash c w (hashBegin (dynamicChoose c ids) ids) ∧
    hash c w (hashBegin (dynamicChoose c ids) ids) < c.perEncodeBitSize := by
  have hper := hc.perEncodeBitSize_le
  have hbits := DeltaSIMDEncode.perEncodeBitSize_eq c
  have hfits := (valid_dynamicChoose hc ids).fits
  change (encodeArray ((dynamicChoose c ids).inside ids)).length ≤ maxBytesLen c at hfits
  have hlt : hashBegin (dynamicChoose c ids) ids < c.perEncodeBitSize := by
    unfold hashBegin at hno ⊢
    omega
  exact HybridEncode.hash_mem (by omega) hlt w

/-- A hash bit of a record that was cleared before. -/
theorem isOne_hash_fresh (hlong : ¬ getRequiredBytes ids ≤ maxBytesLen c) (w : Nat)
    (hno : hashBegin (dynamicChoose c ids) ids ≠ c.perEncodeBitSize) :
    (encodeBits c ids (ofBitSize c.perEncodeBitSize)).isOne
        (hash c w (hashBegin (dynamicChoose c ids) ids)) = true ↔
      ∃ id ∈ (dynamicChoose c ids).outside ids,
        hash c id (hashBegin (dynamicChoose c ids) ids) =
          hash c w (hashBegin (dynamicChoose c ids) ids) := by
  have hfresh := rewritten_encodeBits hc (isRecord_ofBitSize c) hlong
  obtain ⟨hge, hlt⟩ := hash_range hc w hno
  rw [isOne_eq_bit, hfresh.bit _ hge hlt, bit_ofBitSize, Bool.false_or, List.any_eq_true]
  simp only [decide_eq_true_eq]

include hrec

/-- A hash bit of the two records. -/
theorem isOne_hash_eq (hlong : ¬ getRequiredBytes ids ≤ maxBytesLen c) (w : Nat)
    (hno : hashBegin (dynamicChoose c ids) ids ≠ c.perEncodeBitSize) :
    (encodeBits c ids old).isOne (hash c w (hashBegin (dynamicChoose c ids) ids)) =
      (old.isOne (hash c w (hashBegin (dynamicChoose c ids) ids)) ||
        (encodeBits c ids (ofBitSize c.perEncodeBitSize)).isOne
          (hash c w (hashBegin (dynamicChoose c ids) ids))) := by
  obtain ⟨hnew, hfresh⟩ := rewritten_pair hc hrec hlong
  obtain ⟨hge, hlt⟩ := hash_range hc w hno
  rw [isOne_eq_bit, isOne_eq_bit, isOne_eq_bit]
  rw [hnew.bit _ hge hlt, hfresh.bit _ hge hlt, bit_ofBitSize, Bool.false_or]

/-- A list that fits is read back alike from any record. -/
theorem testBits_of_fits (hlt : ∀ id ∈ ids, id < 2 ^ 31)
    (hfit : getRequiredBytes ids ≤ maxBytesLen c) (tail : Nat → Byte) (w : Nat) :
    testBits c tail (encodeBits c ids old) w =
      testBits c tail (encodeBits c ids (ofBitSize c.perEncodeBitSize)) w := by
  have hnew := decodableRecord_encodeBits hc hrec hfit
  have hfresh := decodableRecord_encodeBits hc (isRecord_ofBitSize c) hfit
  obtain ⟨hlen, -⟩ := length_lt_of_fits hc hfit
  unfold testBits DeltaSIMDEncode.testBits findDecodable
  rw [hnew.flag, hfresh.flag, hnew.size, hfresh.size]
  by_cases hnil : ids = []
  · simp [hnil]
  · have hsame := sameIds_of_stream (stream_of_stored (hnew.stored tail))
      (stream_of_stored (hfresh.stored tail)) hlt
    have hfind := findWithCount_congr hsame w (by omega) (List.length_pos_iff.mpr hnil)
    simp only [codecV3, hfind, if_true]
    rfl

/-- The record stays one of its size. -/
theorem isRecord_encodeBits : IsRecord c (encodeBits c ids old) := by
  by_cases hfit : getRequiredBytes ids ≤ maxBytesLen c
  · unfold encodeBits DeltaSIMDEncode.setDecodable
    simp only [if_pos hfit]
    unfold IsRecord bitLength at hrec ⊢
    rw [length_setBytes, DeltaSIMDEncode.setEncodeSize, length_blockSet, length_setOne,
      DeltaSIMDEncode.setEncodeSize, length_blockSet]
    split
    · rw [length_setOne, hrec]
    · exact hrec
  · exact (rewritten_encodeBits hc hrec hfit).isRecord

/-- Behind the bytes of a list that fits the old bits stand. -/
theorem bit_of_fits (hfit : getRequiredBytes ids ≤ maxBytesLen c) {p : Nat}
    (hp : (getRequiredBytes ids + 1) * 8 ≤ p) : (encodeBits c ids old).bit p = old.bit p := by
  obtain ⟨-, heq⟩ := length_lt_of_fits hc hfit
  have hlen := DeltaSIMDEncode.length_of_isRecord hrec
  -- the records on the way, each of the same length
  have hstart : ∃ start : BitSetSIMD, (if ids = [] then old.setOne 0 else old) = start ∧
      start.data.length = old.data.length ∧ start.byte (p / 8) = old.byte (p / 8) := by
    split
    · exact ⟨_, rfl, length_setOne _ _, byte_setOne_of_ne _ (by omega)⟩
    · exact ⟨_, rfl, rfl, rfl⟩
  obtain ⟨start, hstart, hstartLen, hstartByte⟩ := hstart
  have hsizeLen : (DeltaSIMDEncode.setEncodeSize start (getRequiredBytes ids)).data.length =
      old.data.length := by
    rw [DeltaSIMDEncode.setEncodeSize, length_blockSet, hstartLen]
  have honeLen := length_setOne (DeltaSIMDEncode.setEncodeSize start (getRequiredBytes ids)) 0
  have hsizeLen' : (DeltaSIMDEncode.setEncodeSize ((DeltaSIMDEncode.setEncodeSize start
      (getRequiredBytes ids)).setOne 0) ids.length).data.length = old.data.length := by
    rw [DeltaSIMDEncode.setEncodeSize, length_blockSet, honeLen, hsizeLen]
  unfold encodeBits DeltaSIMDEncode.setDecodable
  simp only [hstart, if_pos hfit]
  rw [bit_eq_getLsbD, bit_eq_getLsbD,
    byte_setBytes _ _ _ (by change 1 + (encodeArray ids).length ≤ _; omega),
    if_neg (by change ¬ (_ ∧ _ < 1 + (encodeArray ids).length); omega),
    DeltaSIMDEncode.byte_setEncodeSize (by omega), if_neg (by omega),
    byte_setOne_of_ne _ (by omega), DeltaSIMDEncode.byte_setEncodeSize (by omega),
    if_neg (by omega), hstartByte]

omit hc hrec in
/-- A bit of the stored bytes. -/
theorem bit_of_stored {encode : BitSetSIMD} {bytes : List Byte} (hrec : IsRecord c encode)
    (hstored : Stored (memory encode fun _ => 0) bytes) {p : Nat} (hp : 8 ≤ p)
    (hlt : p < c.perEncodeBitSize) (hp' : p < (bytes.length + 1) * 8) :
    encode.bit p = (bytes.getD (p / 8 - 1) 0).getLsbD (7 - p % 8) := by
  have hlen := DeltaSIMDEncode.length_of_isRecord hrec
  have hbits := DeltaSIMDEncode.perEncodeBitSize_eq c
  have hbyte := hstored (p / 8 - 1) (by omega)
  rw [memory, if_pos (by omega), Nat.sub_add_cancel (by omega)] at hbyte
  rw [bit_eq_getLsbD, hbyte]

/-- Where nothing is left of the old record behind a list that fits, the two records are
    alike for every query. -/
theorem testBits_of_nothingLeft_of_fits (hfit : getRequiredBytes ids ≤ maxBytesLen c)
    (hleft : NothingLeft c old ids) (codec : DeltaSIMDEncode.Codec) (tail : Nat → Byte) (w : Nat) :
    DeltaSIMDEncode.testBits c codec tail (encodeBits c ids old) w =
      DeltaSIMDEncode.testBits c codec tail (encodeBits c ids (ofBitSize c.perEncodeBitSize)) w := by
  have hfreshRec := isRecord_ofBitSize c
  have hisRec : IsRecord c (encodeBits c ids old) := isRecord_encodeBits hc hrec
  have hisRec' : IsRecord c (encodeBits c ids (ofBitSize c.perEncodeBitSize)) :=
    isRecord_encodeBits hc hfreshRec
  have hnew := decodableRecord_encodeBits hc hrec hfit
  have hfresh := decodableRecord_encodeBits hc hfreshRec hfit
  unfold NothingLeft at hleft
  rw [if_pos hfit] at hleft
  apply testBits_congr
  · rw [DeltaSIMDEncode.length_of_isRecord hisRec, DeltaSIMDEncode.length_of_isRecord hisRec']
  · rw [hnew.flag, hfresh.flag]
  · exact fun hdec => absurd (hfresh.flag.symm.trans hdec) (by decide)
  · rw [hnew.size, hfresh.size]
  · intro p hp
    by_cases hlt : p < c.perEncodeBitSize
    · by_cases hbytes : (getRequiredBytes ids + 1) * 8 ≤ p
      · rw [bit_of_fits hc hrec hfit hbytes, bit_of_fits hc hfreshRec hfit hbytes,
          hleft p hbytes hlt, bit_ofBitSize]
      · obtain ⟨-, heq⟩ := length_lt_of_fits hc hfit
        rw [bit_of_stored hisRec (hnew.stored _) hp hlt (by rw [codecV3, heq]; omega),
          bit_of_stored hisRec' (hfresh.stored _) hp hlt (by rw [codecV3, heq]; omega)]
    · rw [bit_behind hisRec hlt, bit_behind hisRec' hlt]

/-- The same for a list that does not fit: the old flag and hash bits are set again. -/
theorem testBits_of_nothingLeft_of_long (hlong : ¬ getRequiredBytes ids ≤ maxBytesLen c)
    (hleft : NothingLeft c old ids) (codec : DeltaSIMDEncode.Codec) (tail : Nat → Byte) (w : Nat) :
    DeltaSIMDEncode.testBits c codec tail (encodeBits c ids old) w =
      DeltaSIMDEncode.testBits c codec tail (encodeBits c ids (ofBitSize c.perEncodeBitSize)) w := by
  obtain ⟨hnew, hfresh⟩ := rewritten_pair hc hrec hlong
  unfold NothingLeft at hleft
  rw [if_neg hlong] at hleft
  obtain ⟨hflag, hbit⟩ := hleft
  apply testBits_congr
  · rw [DeltaSIMDEncode.length_of_isRecord hnew.isRecord,
      DeltaSIMDEncode.length_of_isRecord hfresh.isRecord]
  · rw [hnew.flag, getFirstBit_fresh_rewritten hfresh]
    cases hold : old.getFirstBit with
    | false => rfl
    | true => rw [Bool.true_or, decide_eq_true (hflag hold)]
  · exact fun _ => by rw [hnew.model, hfresh.model]
  · rw [hnew.size, hfresh.size]
  · intro p hp
    by_cases hlt : p < c.perEncodeBitSize
    · by_cases hbehind : hashBegin (dynamicChoose c ids) ids ≤ p
      · -- an old bit of the hash area is one that an id of the list sets as well
        rw [hnew.bit p hbehind hlt, hfresh.bit p hbehind hlt, bit_ofBitSize, Bool.false_or]
        cases hold : old.bit p with
        | false => rfl
        | true =>
          obtain ⟨id, hid, hhit⟩ := hbit p hbehind hlt hold
          rw [Bool.true_or, eq_comm, List.any_eq_true]
          exact ⟨id, hid, decide_eq_true hhit⟩
      · unfold hashBegin at hbehind
        rw [bit_of_stored hnew.isRecord (hnew.stored _) hp hlt (by omega),
          bit_of_stored hfresh.isRecord (hfresh.stored _) hp hlt (by omega)]
    · rw [bit_behind hnew.isRecord hlt, bit_behind hfresh.isRecord hlt]

theorem testBits_of_nothingLeft (hleft : NothingLeft c old ids) (codec : DeltaSIMDEncode.Codec)
    (tail : Nat → Byte) (w : Nat) :
    DeltaSIMDEncode.testBits c codec tail (encodeBits c ids old) w =
      DeltaSIMDEncode.testBits c codec tail (encodeBits c ids (ofBitSize c.perEncodeBitSize)) w := by
  by_cases hfit : getRequiredBytes ids ≤ maxBytesLen c
  · exact testBits_of_nothingLeft_of_fits hc hrec hfit hleft codec tail w
  · exact testBits_of_nothingLeft_of_long hc hrec hfit hleft codec tail w

theorem testBits_of_spills (hlong : ¬ getRequiredBytes ids ≤ maxBytesLen c)
    (hlt : ∀ id ∈ ids, id < 2 ^ 31) (hread : ¬ Misread c ids)
    (hspill : 128 ≤ getRequiredBytes ids % 256) (tail : Nat → Byte) (w : Nat) :
    testBits c tail (encodeBits c ids old) w =
      testBits c tail (encodeBits c ids (ofBitSize c.perEncodeBitSize)) w := by
  obtain ⟨hnew, hfresh⟩ := rewritten_pair hc hrec hlong
  have hflag := hnew.flag
  have hflag' := hfresh.flag
  rw [decide_eq_true hspill, Bool.or_true] at hflag hflag'
  unfold testBits DeltaSIMDEncode.testBits
  rw [hflag, hflag', if_pos rfl, if_pos rfl, hnew.findDecodable_eq hc hlt hread,
    hfresh.findDecodable_eq hc hlt hread]

/-- Two undecodable records: the verdicts differ exactly where a stale bit shows. -/
theorem testBits_eq_iff (hlong : ¬ getRequiredBytes ids ≤ maxBytesLen c)
    (hlt : ∀ id ∈ ids, id < 2 ^ 31) (hread : ¬ Misread c ids)
    (hspill : ¬ 128 ≤ getRequiredBytes ids % 256) (hflag : old.getFirstBit = false)
    (tail : Nat → Byte) (w : Nat) :
    testBits c tail (encodeBits c ids old) w =
      testBits c tail (encodeBits c ids (ofBitSize c.perEncodeBitSize)) w ↔
      ¬ StaleBit c (dynamicChoose c ids) old ids w := by
  obtain ⟨hnew, hfresh⟩ := rewritten_pair hc hrec hlong
  have hflag₁ := hnew.flag
  have hflag₂ := hfresh.flag
  rw [hflag, decide_eq_false hspill, Bool.or_false] at hflag₁
  rw [(fresh_header c).1, decide_eq_false hspill, Bool.or_false] at hflag₂
  unfold testBits DeltaSIMDEncode.testBits
  rw [hflag₁, hflag₂, if_neg Bool.false_ne_true, if_neg Bool.false_ne_true,
    hnew.findNonDecodable_eq hc hlt hread, hfresh.findNonDecodable_eq hc hlt hread]
  unfold StaleBit
  cases hverdict : verdictOf c (dynamicChoose c ids) ids w with
  | some type => simp
  | none =>
    have hno := hashBegin_ne_of_verdictOf hc hverdict
    rw [isOne_hash_eq hc hrec hlong w hno]
    have hhit := isOne_hash_fresh hc hlong w hno
    cases hold : old.isOne (hash c w (hashBegin (dynamicChoose c ids) ids)) with
    | false => simp
    | true =>
      cases hset : (encodeBits c ids (ofBitSize c.perEncodeBitSize)).isOne
          (hash c w (hashBegin (dynamicChoose c ids) ids)) with
      | true =>
        obtain ⟨id, hid, heq⟩ := hhit.mp hset
        simp only [Bool.or_true, true_iff, true_and]
        exact fun hall => hall id hid heq
      | false =>
        have hall : ∀ id ∈ (dynamicChoose c ids).outside ids,
            hash c id (hashBegin (dynamicChoose c ids) ids) ≠
              hash c w (hashBegin (dynamicChoose c ids) ids) := by
          intro id hid heq
          rw [hhit.mpr ⟨id, hid, heq⟩] at hset
          cases hset
        simpa using hall

omit hc hrec in
/-- The record of the vertex after both calls. -/
theorem record_encodeVertex_twice {v : Nat} (hle : v ≤ c.vertexSize) (l₁ l₂ : List Nat) :
    (encodeVertex c v l₂ (encodeVertex c v l₁ (Records.fresh c))).record v =
        encodeBits c l₂ (encodeBits c l₁ (ofBitSize c.perEncodeBitSize)) ∧
      (encodeVertex c v l₂ (Records.fresh c)).record v =
        encodeBits c l₂ (ofBitSize c.perEncodeBitSize) := by
  have hlt := Records.lt_length_fresh hle
  have hlt' : v < (encodeVertex c v l₁ (Records.fresh c)).length := by
    rw [encodeVertex, Records.length_update]
    exact hlt
  constructor
  · rw [encodeVertex, Records.record_update _ _ hlt', if_pos rfl, encodeVertex,
      Records.record_update _ _ hlt, if_pos rfl, Records.record_fresh hle]
  · rw [encodeVertex, Records.record_update _ _ hlt, if_pos rfl, Records.record_fresh hle]

omit hrec in
/-- A list that does not fit has an id outside its block. -/
theorem exists_outside (hlong : ¬ getRequiredBytes ids ≤ maxBytesLen c) :
    ∃ id, id ∈ (dynamicChoose c ids).outside ids := by
  obtain ⟨hlen, hle⟩ := length_inside_le hc ids
  have hfits := (valid_dynamicChoose hc ids).fits
  have hmax := maxBytesLen_le hc
  generalize dynamicChoose c ids = block at hlen hle hfits ⊢
  change (encodeArray (block.inside ids)).length ≤ maxBytesLen c at hfits
  apply List.exists_mem_of_ne_nil
  intro hnil
  -- the block would be the whole list
  rw [BlockInfo.outside, List.append_eq_nil_iff, List.take_eq_nil_iff, List.drop_eq_nil_iff]
    at hnil
  have hne : ids ≠ [] := by
    rintro rfl
    exact hlong (Nat.zero_le _)
  have hstart := hnil.1.resolve_right hne
  have hwhole : block.inside ids = ids := by
    rw [BlockInfo.inside, hstart, List.drop_zero, List.take_of_length_le (by omega)]
  rw [hwhole] at hfits hlen
  apply hlong
  rw [getRequiredBytes, if_neg (by omega), ← DeltaSIMDCodec.length_encodeArray]
  exact hfits

omit hrec in
include h in
/-- An id outside the block is not found in it, and the block model leaves the answer to the
    hash bits. -/
theorem find_hashed (hsize : (dynamicChoose c ids).blockSize ≠ 0) {id : Nat}
    (hid : id ∈ (dynamicChoose c ids).outside ids) :
    ∃ res, findWithCount (bytesOf ((dynamicChoose c ids).inside ids))
        (dynamicChoose c ids).blockSize id = res ∧
      res.val ≠ 0 ∧ res.val &&& (dynamicChoose c ids).blockType.val = 0 := by
  obtain ⟨hlen, hle⟩ := length_inside_le hc ids
  have hsplits := DeltaSIMDEncode.splits_of_sorted h.sorted (valid_dynamicChoose hc ids)
  generalize dynamicChoose c ids = block at hsize hid hlen hle hsplits ⊢
  have hne : block.inside ids ≠ [] := by
    intro hnil
    rw [hnil, List.length_nil] at hlen
    exact hsize hlen.symm
  have hlt : ∀ x ∈ block.inside ids, x < 2 ^ 31 :=
    fun x hx => h.lt x (List.mem_of_mem_drop (List.mem_of_mem_take hx))
  have hid' : id < 2 ^ 31 :=
    h.lt id ((DeltaSIMDEncode.mem_iff_inside_or_outside ids block id).mpr (Or.inr hid))
  have hstream := stream_of_stored (stored_bytesOf (block.inside ids))
  rcases hsplits id hid with ⟨hleft, hbelow⟩ | ⟨hright, habove⟩
  · have hres := findWithCount_below hstream hlt hne hid' (by omega) hbelow
    rw [hlen] at hres
    refine ⟨_, hres, by decide, ?_⟩
    cases htype : block.blockType with
    | leftMost => exact absurd htype hleft
    | fullHash => rfl
    | rightMost => rfl
    | middle => rfl
  · have hres := findWithCount_above hstream hlt hne hid' (by omega) habove
    rw [hlen] at hres
    refine ⟨_, hres, by decide, ?_⟩
    cases htype : block.blockType with
    | rightMost => exact absurd htype hright
    | fullHash => rfl
    | leftMost => rfl
    | middle => rfl

omit hrec in
include h in
/-- The query for an id outside the block ends at the hash bits or with the answer that
    these would give. -/
theorem exists_uncertain (hlong : ¬ getRequiredBytes ids ≤ maxBytesLen c) :
    ∃ id ∈ (dynamicChoose c ids).outside ids,
      verdictOf c (dynamicChoose c ids) ids id = none ∨
        verdictOf c (dynamicChoose c ids) ids id = some .uncertain := by
  obtain ⟨id, hid⟩ := exists_outside hc hlong
  refine ⟨id, hid, ?_⟩
  unfold verdictOf
  by_cases hsize : (dynamicChoose c ids).blockSize = 0
  · exact Or.inl (if_pos hsize)
  · obtain ⟨res, hres, hne, hzero⟩ := find_hashed hc h hsize hid
    simp only [if_neg hsize, hres, if_neg hne, hzero, ne_eq, not_true_eq_false, if_false]
    split
    · exact Or.inr rfl
    · exact Or.inl rfl

include h in
/-- The flag of the old record shows: some id of the list is `Uncertain` without it. -/
theorem exists_ne_of_flag (hlong : ¬ getRequiredBytes ids ≤ maxBytesLen c)
    (hread : ¬ Misread c ids) (hspill : ¬ 128 ≤ getRequiredBytes ids % 256)
    (hflag : old.getFirstBit = true) (tail : Nat → Byte) :
    ∃ id ∈ ids, testBits c tail (encodeBits c ids old) id ≠
      testBits c tail (encodeBits c ids (ofBitSize c.perEncodeBitSize)) id := by
  obtain ⟨hnew, hfresh⟩ := rewritten_pair hc hrec hlong
  obtain ⟨id, hid, hverdict⟩ := exists_uncertain hc h hlong
  have hflag₁ := hnew.flag
  have hflag₂ := hfresh.flag
  rw [hflag, Bool.true_or] at hflag₁
  rw [(fresh_header c).1, decide_eq_false hspill, Bool.or_false] at hflag₂
  have huncertain : testBits c tail (encodeBits c ids (ofBitSize c.perEncodeBitSize)) id =
      .uncertain := by
    unfold testBits DeltaSIMDEncode.testBits
    rw [hflag₂, if_neg Bool.false_ne_true, hfresh.findNonDecodable_eq hc h.lt hread]
    rcases hverdict with hverdict | hverdict
    · have hno := hashBegin_ne_of_verdictOf hc hverdict
      have hone := (isOne_hash_fresh hc hlong id hno).mpr ⟨id, hid, rfl⟩
      rw [hverdict, hone]
      rfl
    · rw [hverdict]
      rfl
  refine ⟨id, (DeltaSIMDEncode.mem_iff_inside_or_outside ids _ id).mpr (Or.inr hid), ?_⟩
  rw [huncertain]
  unfold testBits DeltaSIMDEncode.testBits
  rw [hflag₁, if_pos rfl, hnew.findDecodable_eq hc h.lt hread]
  split
  · exact nofun
  · split <;> exact nofun

end Trace

section Twice

variable {c : Config} (hc : c.Narrow) {v : Nat} (hle : v ≤ c.vertexSize) {l₁ l₂ : List Nat}
variable (h₂ : IdList c l₂) (hs₂ : l₂.Pairwise (· < ·))
include hc hle h₂ hs₂

/-- With `HSIMD = 0`, and where the hash bits are read as such, the condition is exact. -/
theorem leavesNoTrace_iff (hsimd : Bool) :
    (Overwrites c hsimd (encodeBits c l₁ (ofBitSize c.perEncodeBitSize)) l₂ →
      LeavesNoTrace c hsimd v l₁ l₂) ∧
    (hsimd = false → ¬ Misread c l₂ → LeavesNoTrace c hsimd v l₁ l₂ →
      Overwrites c hsimd (encodeBits c l₁ (ofBitSize c.perEncodeBitSize)) l₂) := by
  have hsmall := hc.vertexSize_lt
  have h : DeltaSIMDCodec.Ascending l₂ := by
    refine ⟨hs₂, fun id hid => ?_⟩
    have := (h₂ id hid).2
    omega
  have hrec₁ : IsRecord c (encodeBits c l₁ (ofBitSize c.perEncodeBitSize)) :=
    isRecord_encodeBits hc (isRecord_ofBitSize c)
  obtain ⟨htwice, honce⟩ := record_encodeVertex_twice hle l₁ l₂
  unfold LeavesNoTrace nonNeighborTest
  rw [htwice, honce]
  generalize encodeBits c l₁ (ofBitSize c.perEncodeBitSize) = old at hrec₁
  constructor
  · intro hover tail w hw hw'
    unfold Overwrites at hover
    split at hover
    · exact testBits_of_nothingLeft hc hrec₁ hover _ tail w
    · rename_i hcase
      rw [not_or, Bool.not_eq_true] at hcase
      obtain ⟨rfl, hread⟩ := hcase
      by_cases hfit : getRequiredBytes l₂ ≤ maxBytesLen c
      · exact testBits_of_fits hc hrec₁ h.lt hfit tail w
      · have hread' : ¬ Misread c l₂ := fun hmis => hread ⟨hfit, hmis⟩
        by_cases hspill : 128 ≤ getRequiredBytes l₂ % 256
        · exact testBits_of_spills hc hrec₁ hfit h.lt hread' hspill tail w
        · obtain ⟨hflag, hclean⟩ := (hover.resolve_left hfit).resolve_left hspill
          exact (testBits_eq_iff hc hrec₁ hfit h.lt hread' hspill hflag tail w).mpr
            (hclean w hw hw')
  · rintro rfl hread hsame
    unfold Overwrites
    rw [if_neg (by simp [hread])]
    by_cases hfit : getRequiredBytes l₂ ≤ maxBytesLen c
    · exact Or.inl hfit
    by_cases hspill : 128 ≤ getRequiredBytes l₂ % 256
    · exact Or.inr (Or.inl hspill)
    right
    right
    have hflag : old.getFirstBit = false := by
      by_contra hset
      obtain ⟨id, hid, hne⟩ := exists_ne_of_flag hc h hrec₁ hfit hread hspill
        (Bool.not_eq_false _ ▸ hset) fun _ => 0
      obtain ⟨hid₁, hid₂⟩ := h₂ id hid
      exact hne (hsame _ id hid₁ hid₂)
    refine ⟨hflag, fun w hw hw' => ?_⟩
    exact (testBits_eq_iff hc hrec₁ hfit h.lt hread hspill hflag _ w).mp
      (hsame (fun _ => 0) w hw hw')

end Twice

end DeltaSIMDEncodeV3

/-! ## Section 6: Both encoders -/

/-- A record that is written twice gives the verdicts of one that was cleared before,
    with `HybridEncode` and with `V3`, if what is left of the old record is never read. -/
theorem rewritten_records_agree (hsimd : Bool) (v : Nat) (l₁ l₂ : List Nat) :
    (∀ c : Config, c.Packed → v ≤ c.vertexSize → IdList c l₁ → IdList c l₂ →
      l₁.Pairwise (· ≤ ·) → l₂.Pairwise (· ≤ ·) →
      (HybridEncode.Overwrites c hsimd l₁ l₂ → HybridEncode.LeavesNoTrace c hsimd v l₁ l₂) ∧
      (l₁.length < 2 ^ 32 → l₂.length < 2 ^ 32 → HybridEncode.LeavesNoTrace c hsimd v l₁ l₂ →
        HybridEncode.Overwrites c hsimd l₁ l₂)) ∧
    (∀ c : Config, c.Narrow → v ≤ c.vertexSize → IdList c l₁ → IdList c l₂ →
      l₁.Pairwise (· < ·) → l₂.Pairwise (· < ·) →
      (DeltaSIMDEncodeV3.Overwrites c hsimd (DeltaSIMDEncodeV3.encodeBits c l₁
          (ofBitSize c.perEncodeBitSize)) l₂ →
        DeltaSIMDEncodeV3.LeavesNoTrace c hsimd v l₁ l₂) ∧
      (hsimd = false → ¬ DeltaSIMDEncodeV3.Misread c l₂ →
        DeltaSIMDEncodeV3.LeavesNoTrace c hsimd v l₁ l₂ →
        DeltaSIMDEncodeV3.Overwrites c hsimd (DeltaSIMDEncodeV3.encodeBits c l₁
          (ofBitSize c.perEncodeBitSize)) l₂)) := by
  constructor
  · intro c hc hle h₁ h₂ _ hs₂
    exact HybridEncode.leavesNoTrace_iff hc hle h₁ h₂ hs₂ hsimd
  · intro c hc hle _ h₂ _ hs₂
    exact DeltaSIMDEncodeV3.leavesNoTrace_iff hc hle h₂ hs₂ hsimd

/-- Two hundred vertices and two words for each. -/
def twoWords : Config := Config.ofSizes 2 200 2 (by decide)

theorem twoWords_narrow : twoWords.Narrow := ⟨by decide, by decide⟩

theorem rewritten_records_agree_short :
    HybridEncode.LeavesNoTrace RangeVend.tenConfig false 1 [2, 3] [4, 5] ∧
    DeltaSIMDEncodeV3.LeavesNoTrace twoWords false 1 [2, 5, 40, 50, 67, 89, 100, 101] [3] := by
  have hids : IdList RangeVend.tenConfig [2, 3] ∧ IdList RangeVend.tenConfig [4, 5] := by
    unfold IdList
    decide
  have hids' : IdList twoWords [2, 5, 40, 50, 67, 89, 100, 101] ∧ IdList twoWords [3] := by
    unfold IdList
    decide
  constructor
  · refine ((rewritten_records_agree false 1 [2, 3] [4, 5]).1 _ RangeVend.tenConfig_packed
      (by decide) hids.1 hids.2 (by decide) (by decide)).1 ⟨by decide, by decide, by decide, ?_⟩
    intro _ w hw _ _
    rw [HybridEncode.staleHit_iff_of_fits RangeVend.tenConfig_packed hids.1 (by decide) (by decide)
      false hw]
    simp
  · refine ((rewritten_records_agree false 1 [2, 5, 40, 50, 67, 89, 100, 101] [3]).2 _
      twoWords_narrow (by decide) hids'.1 hids'.2 (by decide) (by decide)).1 ?_
    unfold DeltaSIMDEncodeV3.Overwrites
    rw [if_neg (by decide)]
    exact Or.inl (by decide)

/-- Both encoders report a vertex that only the old list held: `HybridEncode` after the
    list `[3]` is taken away, `V3` denies the first id of a list that does not fit. -/
theorem rewritten_records_differ :
    RangeVend.tenConfig.Packed ∧ twoWords.Narrow ∧
    ¬ HybridEncode.LeavesNoTrace RangeVend.tenConfig false 1 [3] [] ∧
    ¬ DeltaSIMDEncodeV3.LeavesNoTrace twoWords false 1 [2, 5] [2, 20, 60, 80, 90, 100, 120] := by
  refine ⟨RangeVend.tenConfig_packed, twoWords_narrow, ?_, ?_⟩
  · rintro ⟨twice, once, htwice, honce, hsame⟩
    have hrun : ((HybridEncode.encodeVertexAt RangeVend.tenConfig 1 [3]
        (Records.constructed RangeVend.tenConfig)).bind
          (HybridEncode.encodeVertexAt RangeVend.tenConfig 1 [])).map
            (fun encodes => HybridEncode.nonNeighborTest RangeVend.tenConfig false encodes 1 3) =
          some .neighbor ∧
        (HybridEncode.encodeVertexAt RangeVend.tenConfig 1 []
          (Records.constructed RangeVend.tenConfig)).map
            (fun encodes => HybridEncode.nonNeighborTest RangeVend.tenConfig false encodes 1 3) =
          some .nonNeighbor := by
      decide +kernel
    rw [htwice, honce, Option.map_some, Option.map_some, hsame 3 (by decide) (by decide)] at hrun
    exact absurd (hrun.1.symm.trans hrun.2) (by decide)
  · intro hsame
    have hrun := hsame (fun _ => 0) 2 (by decide) (by decide)
    revert hrun
    decide +kernel

end Vend
