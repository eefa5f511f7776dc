import Vend.Encode.RangeEncode

/-! # Bloom encoding

    `encode/single/bloom_encode.h`. The record has the layout of the range
    encoding, a flag word and `K_SIZE - 1` words. A list that fits is stored word
    by word; of a longer one each id sets one bit behind the flag word.

    `EncodeVertex` does not clear the record. The build writes each record once,
    and `speaks_encodeBits` is about a record that is still fresh.
-/

namespace Vend

namespace BloomEncode

open BitField BitSetSIMD

/-! ## Section 1: Model -/

/-- `block_size_`. -/
def blockSize (c : Config) : Nat := c.kSize - 1

/-- `bit_size_`. -/
def bitSize (c : Config) : Nat := (c.kSize - 1) * 32

/-- `Hash(vertex1, vertex2)`, with `HASH_PARAM1[0]` and `HASH_PARAM2[1]`. -/
def hash (c : Config) (vertex1 vertex2 : Nat) : Nat :=
  (9191891 * vertex1 + 6659501 * vertex2) % 2 ^ 64 % bitSize c + 32

/-- `GetFlag(vertex_id)`. -/
def getFlag (encode : BitSetSIMD) : Bool := encode.blockGet 0 32 ≠ 0

/-- `SetFlag(vertex_id, flag)`. -/
def setFlag (encode : BitSetSIMD) (flag : Bool) : BitSetSIMD := encode.blockSet 0 32 flag.toNat

/-- `SetFullEncode(vertex_id, neighbors)`. -/
def setFullEncode (neighbors : List Nat) (encode : BitSetSIMD) : BitSetSIMD :=
  blockSetList 32 (setFlag encode true) 32 neighbors

/-- `SetBloomEncode(vertex_id, neighbors)`. -/
def setBloomEncode (c : Config) (vertexId : Nat) (neighbors : List Nat) (encode : BitSetSIMD) :
    BitSetSIMD :=
  neighbors.foldl (fun encode v => encode.setOne (hash c vertexId v)) (setFlag encode false)

/-- `EncodeVertex` on the record of its vertex. -/
def encodeBits (c : Config) (vertexId : Nat) (neighbors : List Nat) (encode : BitSetSIMD) :
    BitSetSIMD :=
  if neighbors.length ≤ blockSize c then setFullEncode neighbors encode
  else setBloomEncode c vertexId neighbors encode

/-- The words that the loop over the stored ids reads. -/
def slots (c : Config) (encode : BitSetSIMD) : List Nat :=
  (List.range' 1 (blockSize c)).map fun i => encode.blockGet (i * 32) 32

/-- `NonNeighborTest(vertex1, vertex2)` on the record of `vertex1`. -/
def testBits (c : Config) (vertex1 : Nat) (encode : BitSetSIMD) (vertex2 : Nat) : PairType :=
  if getFlag encode then
    if vertex2 ∈ slots c encode then .neighbor else .nonNeighbor
  else if encode.isOne (hash c vertex1 vertex2) then .uncertain
  else .nonNeighbor

/-- `EncodeVertex(vertex_id, neighbors)`. -/
def encodeVertex (c : Config) (vertexId : Nat) (neighbors : List Nat) (encodes : Records) :
    Records :=
  encodes.update vertexId (encodeBits c vertexId neighbors)

/-- `NonNeighborTest(vertex1, vertex2)`. -/
def nonNeighborTest (c : Config) (encodes : Records) (vertex1 vertex2 : Nat) : PairType :=
  testBits c vertex1 (encodes.record vertex1) vertex2

/-- `NEpairTest(vertex1, vertex2)`. -/
def nePairTest (c : Config) (encodes : Records) (vertex1 vertex2 : Nat) : PairType :=
  PairType.min (nonNeighborTest c encodes vertex1 vertex2)
    (nonNeighborTest c encodes vertex2 vertex1)

/-- `GetIntSize()`. -/
def getIntSize (c : Config) : Nat := c.kSize - 1

/-! ## Section 2: What a record answers -/

section

variable {c : Config} (hc : RangeEncode.Ranged c) (u : Nat) {ids : List Nat} (hids : IdList c ids)
include hc

theorem hash_range (v : Nat) : 32 ≤ hash c u v ∧ hash c u v < c.perEncodeBitSize := by
  have hk := hc.kSize_ge
  have hlt : (9191891 * u + 6659501 * v) % 2 ^ 64 % bitSize c < bitSize c :=
    Nat.mod_lt _ (by unfold bitSize; omega)
  have hper : c.perEncodeBitSize = bitSize c + 32 := by
    unfold Config.perEncodeBitSize bitSize
    omega
  unfold hash
  omega

include hids

/-- A list that fits is stored whole. -/
theorem speaks_of_fits (hfit : ids.length ≤ blockSize c) {v : Nat} (hv : 1 ≤ v) :
    getFlag (encodeBits c u ids (ofBitSize c.perEncodeBitSize)) = true ∧
    Speaks true (v ∈ ids) (testBits c u (encodeBits c u ids (ofBitSize c.perEncodeBitSize)) v) := by
  have hlt : ∀ id ∈ ids, id < 2 ^ 32 := by
    intro id hid
    have := (hids id hid).2
    have := hc.vertexSize_lt
    omega
  have hwords := RangeEncode.wordRecord_write hc.worded true hfit hlt
  have heq : encodeBits c u ids (ofBitSize c.perEncodeBitSize) =
      blockSetList 32 ((ofBitSize c.perEncodeBitSize).blockSet 0 32 true.toNat) 32 ids :=
    if_pos hfit
  rw [← heq] at hwords
  have hflag : getFlag (encodeBits c u ids (ofBitSize c.perEncodeBitSize)) = true := hwords.flag
  have hslots : v ∈ slots c (encodeBits c u ids (ofBitSize c.perEncodeBitSize)) ↔ v ∈ ids := by
    change v ∈ RangeEncode.slots c _ ↔ _
    rw [hwords.slots, List.mem_append, List.mem_replicate]
    constructor
    · rintro (hmem | ⟨-, rfl⟩)
      · exact hmem
      · omega
    · exact Or.inl
  refine ⟨hflag, ?_⟩
  rw [testBits, if_pos hflag]
  split
  next hmem => exact ⟨fun _ => hslots.mp hmem, by simp, by simp⟩
  next hmem => exact ⟨by simp, fun hstored => absurd (hslots.mpr hstored) hmem, by simp⟩

omit hids in
/-- Of a longer list every id leaves its bit. -/
theorem speaks_of_not_fits (hlong : blockSize c < ids.length) (v : Nat) :
    getFlag (encodeBits c u ids (ofBitSize c.perEncodeBitSize)) = false ∧
    Speaks false (v ∈ ids)
      (testBits c u (encodeBits c u ids (ofBitSize c.perEncodeBitSize)) v) := by
  have hper : c.perEncodeBitSize = 32 * RangeEncode.maxIntSize c + 32 :=
    RangeEncode.perEncodeBitSize_eq hc.worded
  have hrec : (ofBitSize c.perEncodeBitSize).bitLength = c.perEncodeBitSize := isRecord_ofBitSize c
  -- writing the flag 0 leaves every bit clear
  have hstore : ((ofBitSize c.perEncodeBitSize).blockSet 0 32 0).bit =
      store (ofBitSize c.perEncodeBitSize).bit 0 32 0 :=
    bit_blockSet _ (by omega) (by omega) (by omega) (by omega) (by omega)
  have hflag₀ : field ((ofBitSize c.perEncodeBitSize).blockSet 0 32 0).bit 0 32 = 0 := by
    rw [hstore]
    exact field_store_self _ (by omega)
  obtain ⟨-, -, hset, hother⟩ := bit_foldl_setOne
    ((ofBitSize c.perEncodeBitSize).blockSet 0 32 0) ids (hash c u)
    (fun id _ => by rw [bitLength_blockSet, hrec]; exact (hash_range hc u id).2)
  have heq : encodeBits c u ids (ofBitSize c.perEncodeBitSize) =
      ids.foldl (fun encode v => encode.setOne (hash c u v))
        ((ofBitSize c.perEncodeBitSize).blockSet 0 32 0) := if_neg (by omega)
  rw [← heq] at hset hother
  have hflag : getFlag (encodeBits c u ids (ofBitSize c.perEncodeBitSize)) = false := by
    unfold getFlag
    rw [blockGet_eq _ (by omega) (by omega), field_congr fun p _ hp => hother p ?_, hflag₀]
    · simp
    · intro id _
      have := (hash_range hc u id).1
      omega
  refine ⟨hflag, ?_⟩
  rw [testBits, hflag, if_neg (by simp), isOne_eq_bit]
  split
  next => exact ⟨by simp, by simp, by simp⟩
  next hbit => exact ⟨by simp, fun hstored => absurd (hset v hstored) hbit, by simp⟩

/-- A record that was fresh answers from the list it was written from. -/
theorem speaks_encodeBits {v : Nat} (hv : 1 ≤ v) :
    Speaks (getFlag (encodeBits c u ids (ofBitSize c.perEncodeBitSize))) (v ∈ ids)
      (testBits c u (encodeBits c u ids (ofBitSize c.perEncodeBitSize)) v) := by
  rcases Nat.lt_or_ge (blockSize c) ids.length with hlong | hfit
  · obtain ⟨hflag, hspeaks⟩ := speaks_of_not_fits hc u hlong v
    rwa [hflag]
  · obtain ⟨hflag, hspeaks⟩ := speaks_of_fits hc u hids hfit hv
    rwa [hflag]

end

end BloomEncode

end Vend
