import Vend.Encode.SearchTree

/-! # Byte lengths

    The bytes of a list are counted three times: `GetRequiredBytes` before anything is
    written, `EncodeDeltas` while the codes are written, and `GetEncodeLength` from the
    control bytes alone. The hash area of a record begins at this length, so the three
    have to agree with what `EncodeArray` writes (`byteLengths_agree`).

    `EncodeDeltas` returns its length in a `uint8_t`. A data part of 256 bytes or more
    is reported modulo 256.
-/

namespace Vend

open BitSetSIMD GroupVarint

namespace DeltaSIMDCodec

/-! ## Section 1: Model -/

/-- The data bytes of `EncodeArray`. -/
def dataPart (ver : Version) (ids : List Nat) : List Byte :=
  ((genValues ver 0 0 ids).map fun val => (encodeDelta val).2).flatten

/-- What `EncodeDeltas(in, keyPtr, dataPtr, count)` returns: one byte more than its code
    for every number, cut to the 8 bits of the result. -/
def encodeDeltas (ver : Version) (ids : List Nat) : Nat :=
  ((genValues ver 0 0 ids).map fun val => (encodeDelta val).1 + 1).sum % 2 ^ 8

/-- `out_bytes_length` behind `EncodeArray(in, in_size, out, out_bytes_length)`. -/
def outBytesLength (ver : Version) (ids : List Nat) : Nat :=
  (ids.length + 3) / 4 + encodeDeltas ver ids

end DeltaSIMDCodec

namespace DeltaSIMDCodecV3

/-- `out_bytes_length` of `V3`, whose `EncodeDeltas` takes the ids in the order of the
    search tree. -/
def outBytesLength (ids : List Nat) : Nat := DeltaSIMDCodec.outBytesLength .v2 (arrange ids)

end DeltaSIMDCodecV3

namespace DeltaSIMDCodec

/-- The required, the reported and the recovered length are those of the written bytes. -/
structure LengthsAgree (required out count : Nat) (written : List Byte) : Prop where
  required_eq : required = written.length
  out_eq : out = written.length
  encodeLength_eq : ∀ mem, DeltaSIMDEncode.Stored mem written →
    getEncodeLength mem count = written.length

/-! ## Section 2: The reported length -/

/-- The written bytes are the control bytes and the data part. -/
theorem length_encodeArray_eq_dataPart (ver : Version) (ids : List Nat) :
    (encodeArray ver ids).length = (ids.length + 3) / 4 + (dataPart ver ids).length := by
  have hdata : dataPart ver ids = data (genValues ver 0 0 ids) := by
    simp only [dataPart, encodeDelta_eq]
    rfl
  rw [encodeArray_eq, hdata, List.length_append, length_controls, length_genValues]
  rfl

/-- Every number moves the data pointer by its code and one. -/
theorem encodeDeltas_eq (ver : Version) (ids : List Nat) :
    encodeDeltas ver ids = (dataPart ver ids).length % 2 ^ 8 := by
  have hlen : ∀ val, (encodeDelta val).2.length = (encodeDelta val).1 + 1 := by
    intro val
    have := byteLen_pos val
    rw [encodeDelta_eq, length_bytes]
    omega
  rw [encodeDeltas, dataPart, List.length_flatten, List.map_map]
  simp only [Function.comp_def, hlen]

/-- Up to 255 data bytes the length survives the 8 bits. -/
theorem outBytesLength_eq {ver : Version} {ids : List Nat}
    (h : (dataPart ver ids).length ≤ 255) :
    outBytesLength ver ids = (encodeArray ver ids).length := by
  rw [outBytesLength, encodeDeltas_eq, Nat.mod_eq_of_lt (by omega),
    length_encodeArray_eq_dataPart]

/-! ## Section 3: All lengths -/

theorem lengthsAgree {ver : Version} {ids : List Nat} (hne : ids ≠ [])
    (h : (dataPart ver ids).length ≤ 255) :
    LengthsAgree (getRequiredBytes ver ids) (outBytesLength ver ids) ids.length
      (encodeArray ver ids) := by
  refine ⟨(length_encodeArray ver ids).symm, outBytesLength_eq h, ?_⟩
  intro mem hmem
  rw [getEncodeLength_eq (DeltaSIMDEncode.stream_of_stored hmem) hne, length_encodeArray]

/-- The three lengths agree with the written bytes, for the linear codecs on a list of
    any length and for the search tree on up to 40 ids. The order of the ids does not
    matter. -/
theorem byteLengths_agree {ids : List Nat} (hne : ids ≠ []) :
    (∀ ver, (dataPart ver ids).length ≤ 255 →
      LengthsAgree (getRequiredBytes ver ids) (outBytesLength ver ids) ids.length
        (encodeArray ver ids)) ∧
    (ids.length ≤ 40 → (dataPart .v2 (DeltaSIMDCodecV3.arrange ids)).length ≤ 255 →
      LengthsAgree (DeltaSIMDCodecV3.getRequiredBytes ids) (DeltaSIMDCodecV3.outBytesLength ids)
        ids.length (DeltaSIMDCodecV3.encodeArray ids)) := by
  refine ⟨fun ver h => lengthsAgree hne h, ?_⟩
  intro hlen h
  -- the tree codec is `V2` on the arranged list
  have hne' : DeltaSIMDCodecV3.arrange ids ≠ [] := by
    rw [← List.length_pos_iff, DeltaSIMDCodecV3.length_arrange]
    exact List.length_pos_iff.mpr hne
  have hagree := lengthsAgree hne' h
  rw [DeltaSIMDCodecV3.length_arrange] at hagree
  rw [DeltaSIMDCodecV3.getRequiredBytes, if_neg (by omega)]
  exact hagree

theorem byteLengths_agree_two : getRequiredBytes .v1 [1, 300] = 4 ∧
    LengthsAgree 4 4 2 (encodeArray .v1 [1, 300]) ∧
    LengthsAgree 4 4 2 (DeltaSIMDCodecV3.encodeArray [1, 300]) := by
  have h := @byteLengths_agree [1, 300] (by decide)
  exact ⟨by decide, h.1 .v1 (by decide), h.2 (by decide) (by decide)⟩

end DeltaSIMDCodec

end Vend
