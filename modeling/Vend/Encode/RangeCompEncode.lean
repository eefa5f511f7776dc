import Vend.Encode.RangeEncode

/-! # Range encoding with compression

    `encode/single/range_com_encode.h`. The first word of a record is the flag, and the
    bits behind it belong to the `Compression` that the encoder holds. Its virtual
    functions are the fields of a structure.

    Some of these functions read behind the end of a list or write behind the end of a
    record. `CompressionAt` has them with a result only where all accesses are inside.
-/

namespace Vend

/-! ## Section 1: Model -/

/-- The virtual functions of `Compression`, with a result where no element of a list and no
    byte of a record is read or written that is not there. -/
structure CompressionAt where
  getRequiredBits : List Nat → Nat
  encode : List Nat → BitSetSIMD → Nat → Option BitSetSIMD
  dynamicEncode : List Nat → BitSetSIMD → Nat → Option BitSetSIMD
  find : Nat → BitSetSIMD → Nat → Bool → Option PairType

namespace RangeCompEncode

open BitField BitSetSIMD

/-- `shift`. -/
def shift : Nat := 32

/-- `max_bits`. -/
def maxBits (c : Config) : Nat := c.perEncodeBitSize - 32

/-- `GetFlag(vertex)`. -/
def getFlag (encode : BitSetSIMD) : Bool := encode.blockGet 0 shift ≠ 0

/-- `EncodeVertex` on the record of its vertex. -/
def encodeBitsAt (c : Config) (codec : CompressionAt) (neighbors : List Nat)
    (encode : BitSetSIMD) : Option BitSetSIMD :=
  let encode := encode.clear
  if codec.getRequiredBits neighbors ≤ maxBits c then
    codec.encode neighbors (encode.blockSet 0 shift 1) shift
  else codec.dynamicEncode (0 :: neighbors ++ [c.vertexIdUpper]) (encode.blockSet 0 shift 0) shift

/-- `EncodeVertex(vertex_id, neighbors)`. -/
def encodeVertexAt (c : Config) (codec : CompressionAt) (vertexId : Nat) (neighbors : List Nat)
    (encodes : Records) : Option Records :=
  if vertexId < encodes.length then
    (encodeBitsAt c codec neighbors (encodes.record vertexId)).map (encodes.set vertexId)
  else none

/-- `NonNeighborTest` on the record of its first vertex. -/
def testBitsAt (codec : CompressionAt) (encode : BitSetSIMD) (vertex2 : Nat) : Option PairType :=
  codec.find vertex2 encode shift (getFlag encode)

/-- `NonNeighborTest(vertex1, vertex2)`. -/
def nonNeighborTestAt (codec : CompressionAt) (encodes : Records) (vertex1 vertex2 : Nat) :
    Option PairType :=
  testBitsAt codec (encodes.record vertex1) vertex2

/-- The verdict of a search that does not know uncertainty. -/
def verdict (found : Bool) : PairType := if found then .neighbor else .nonNeighbor

theorem verdict_eq_neighbor {found : Bool} : verdict found = .neighbor ↔ found = true := by
  cases found <;> simp [verdict]

theorem verdict_ne_uncertain (found : Bool) : verdict found ≠ .uncertain := by
  cases found <;> simp [verdict]

/-! ## Section 2: The flag and the cleared bits behind it -/

/-- A record of `EncodeVertex` before the codec has written to it. -/
def flagged (c : Config) (flag : Bool) : BitSetSIMD :=
  (ofBitSize c.perEncodeBitSize).blockSet 0 shift flag.toNat

section

variable {c : Config} (hc : RangeEncode.Worded c)
include hc

theorem maxBits_eq : maxBits c = 32 * RangeEncode.maxIntSize c := by
  rw [maxBits, RangeEncode.perEncodeBitSize_eq hc, Nat.add_sub_cancel]

theorem maxBits_ge : 64 ≤ maxBits c := by
  have hm := RangeEncode.maxIntSize_ge hc
  rw [maxBits_eq hc]
  omega

theorem perEncodeBitSize_eq : c.perEncodeBitSize = maxBits c + 32 := by
  rw [maxBits_eq hc, RangeEncode.perEncodeBitSize_eq hc]

theorem perEncodeBitSize_le : c.perEncodeBitSize ≤ 2048 := by
  have hk := hc.kSize_le
  unfold Config.perEncodeBitSize
  omega

theorem encodeBitsAt_eq (codec : CompressionAt) (neighbors : List Nat) {bs : BitSetSIMD}
    (hrec : IsRecord c bs) : encodeBitsAt c codec neighbors bs =
      if codec.getRequiredBits neighbors ≤ maxBits c then
        codec.encode neighbors (flagged c true) shift
      else codec.dynamicEncode (0 :: neighbors ++ [c.vertexIdUpper]) (flagged c false) shift := by
  rw [encodeBitsAt, RangeEncode.clear_eq hc hrec]
  rfl

omit hc in
@[simp] theorem length_flagged (flag : Bool) :
    (flagged c flag).data.length = c.perEncodeBitSize / 8 := by
  rw [flagged, length_blockSet, length_ofBitSize]

theorem bitLength_flagged (flag : Bool) : (flagged c flag).bitLength = c.perEncodeBitSize := by
  rw [bitLength, length_flagged, RangeEncode.perEncodeBitSize_eq hc]
  omega

theorem bit_flagged (flag : Bool) :
    (flagged c flag).bit = store (ofBitSize c.perEncodeBitSize).bit 0 32 flag.toNat := by
  have hper := perEncodeBitSize_eq hc
  have hrec : (ofBitSize c.perEncodeBitSize).bitLength = c.perEncodeBitSize := isRecord_ofBitSize c
  exact bit_blockSet _ (by decide) (by decide) (by decide) (by unfold shift; omega)
    (by cases flag <;> decide)

/-- Behind the flag the record is cleared. -/
theorem bit_flagged_of_ge (flag : Bool) {p : Nat} (hp : 32 ≤ p) :
    (flagged c flag).bit p = false := by
  rw [bit_flagged hc, store_outside _ (by omega), bit_ofBitSize]

/-- The flag word says what was written to it. -/
theorem getFlag_of_bit {flag : Bool} {bs : BitSetSIMD}
    (h : ∀ p < 32, bs.bit p = (flagged c flag).bit p) : getFlag bs = flag := by
  have hword : bs.blockGet 0 shift = flag.toNat := by
    rw [blockGet_eq _ (by decide) (by decide),
      field_congr fun p _ hp => h p (by unfold shift at hp; omega), bit_flagged hc]
    exact field_store_self _ (by cases flag <;> decide)
  rw [getFlag, hword]
  cases flag <;> decide

end

/-! ## Section 3: The ids between their bounds -/

section

variable {c : Config} {ids : List Nat}

theorem extended_le (hids : IdList c ids) :
    ∀ x ∈ 0 :: ids ++ [c.vertexSize + 1], x ≤ c.vertexSize + 1 := by
  intro x hx
  rcases List.mem_append.mp hx with hx | hx
  · rcases List.mem_cons.mp hx with rfl | hx
    · exact Nat.zero_le _
    · exact Nat.le_succ_of_le (hids x hx).2
  · exact Nat.le_of_eq (List.mem_singleton.mp hx)

/-- What stands between the bounds are the ids. -/
theorem extended_getD_mem {t : Nat} (hpos : 0 < t) (hle : t ≤ ids.length) :
    (0 :: ids ++ [c.vertexSize + 1]).getD t 0 ∈ ids := by
  obtain ⟨s, rfl⟩ := Nat.exists_eq_add_one.mpr hpos
  rw [List.cons_append, List.getD_cons_succ, List.getD_append _ _ _ _ hle,
    List.getD_eq_getElem _ _ hle]
  exact List.getElem_mem _

/-- The bounds keep an order of the ids that they agree with. -/
theorem extended_pairwise {R : Nat → Nat → Prop} (hids : IdList c ids) (hR : ids.Pairwise R)
    (hlt : ∀ {x y}, x < y → R x y) : (0 :: ids ++ [c.vertexSize + 1]).Pairwise R := by
  rw [List.cons_append, List.pairwise_cons, List.pairwise_append]
  refine ⟨?_, hR, List.pairwise_singleton _ _, ?_⟩
  · intro x hx
    rcases List.mem_append.mp hx with hx | hx
    · exact hlt (hids x hx).1
    · rw [List.mem_singleton.mp hx]
      exact hlt (Nat.succ_pos _)
  · intro x hx y hy
    rw [List.mem_singleton.mp hy]
    exact hlt (Nat.lt_succ_of_le (hids x hx).2)

end

/-! ## Section 4: One vertex -/

/-- What `EncodeVertex` leaves in the record of its vertex. -/
theorem exists_record_of_encodeVertexAt {c : Config} {codec : CompressionAt}
    {encodes encodes' : Records} {v : Nat} {ids : List Nat}
    (h : encodeVertexAt c codec v ids encodes = some encodes') :
    v < encodes.length ∧
      encodeBitsAt c codec ids (encodes.record v) = some (encodes'.record v) := by
  unfold encodeVertexAt at h
  split at h
  next hlt =>
    obtain ⟨bs, hbs, rfl⟩ := Option.map_eq_some_iff.mp h
    refine ⟨hlt, hbs.trans ?_⟩
    simp [Records.record, List.getD_eq_getElem?_getD, hlt]
  next => cases h

theorem encodeVertexAt_eq_some {c : Config} {codec : CompressionAt} {encodes : Records} {v : Nat}
    {ids : List Nat} (hv : v < encodes.length) {bs : BitSetSIMD}
    (h : encodeBitsAt c codec ids (encodes.record v) = some bs) :
    ∃ encodes', encodeVertexAt c codec v ids encodes = some encodes' ∧
      encodes'.record v = bs := by
  refine ⟨encodes.set v bs, by rw [encodeVertexAt, if_pos hv, h]; rfl, ?_⟩
  simp [Records.record, List.getD_eq_getElem?_getD, hv]

end RangeCompEncode

end Vend
