import Vend.Encode.BlockSearch
import Vend.Encode.Rewrite

/-! # The header byte of a `V3` record

    `EncodeVertex` of `V3` writes the header up to four times. The byte length of the
    whole list goes into the size field first and without a mask, so that a length from
    32 on reaches the block model and one from 128 on the flag. What stands there in the
    end depends on the branch taken: a list that fits sets the flag and its own size, a
    block masks the model and the size, and the full hash masks the model only.

    `headerIntact_iff` says for which lists the header is right.
-/

namespace Vend

open BitSetSIMD

namespace DeltaSIMDEncode

/-! ## Section 1: The model bits -/

/-- `SetBlockModel` writes both bits, whatever stood there. -/
theorem modelBits_setBlockModel {encode : BitSetSIMD} (hpos : 0 < encode.data.length)
    (type : BlockType) :
    (setBlockModel encode type).bit 1 = (HybridEncode.modelCode type).testBit 1 ∧
    (setBlockModel encode type).bit 2 = (HybridEncode.modelCode type).testBit 0 := by
  have key : ∀ b : Byte, ∀ m ∈ [0, 1, 3],
      (b &&& 0x9F ||| BitVec.ofNat 8 (m <<< 5)).getLsbD 6 = Nat.testBit m 1 ∧
      (b &&& 0x9F ||| BitVec.ofNat 8 (m <<< 5)).getLsbD 5 = Nat.testBit m 0 := by
    decide +kernel
  have hmem : HybridEncode.modelCode type ∈ [0, 1, 3] := by cases type <;> decide
  have hbyte := byte_setBlockModel hpos type 0
  rw [if_pos rfl] at hbyte
  rw [bit_eq_getLsbD, bit_eq_getLsbD, hbyte]
  exact key _ _ hmem

/-- A size below 32 leaves the model bits alone. -/
theorem modelBits_setEncodeSize {encode : BitSetSIMD} (hpos : 0 < encode.data.length) {val : Nat}
    (hval : val < 32) : (setEncodeSize encode val).bit 1 = encode.bit 1 ∧
      (setEncodeSize encode val).bit 2 = encode.bit 2 := by
  have hcode : ∀ n < 32, (BitVec.ofNat 8 n).getLsbD 6 = false ∧
      (BitVec.ofNat 8 n).getLsbD 5 = false := by decide
  have key : ∀ b : Byte, ∀ n < 32,
      (b &&& 0xE0 ||| BitVec.ofNat 8 n).getLsbD 6 = b.getLsbD 6 ∧
      (b &&& 0xE0 ||| BitVec.ofNat 8 n).getLsbD 5 = b.getLsbD 5 := by
    intro b n hn
    obtain ⟨hsecond, hthird⟩ := hcode n hn
    simp only [BitVec.getLsbD_or, BitVec.getLsbD_and, hsecond, hthird, Bool.or_false]
    exact ⟨Bool.and_true _, Bool.and_true _⟩
  have hbyte := byte_setEncodeSize hpos val 0
  rw [if_pos rfl] at hbyte
  rw [bit_eq_getLsbD, bit_eq_getLsbD, bit_eq_getLsbD, bit_eq_getLsbD, hbyte]
  exact key _ _ hval

/-- The codec bytes and the hash bits lie behind the header. -/
theorem byte_zero_constructEncode {c : Config} (hper : c.perEncodeBitSize < 2 ^ 32) {codec : Codec}
    {ids : List Nat} {block : BlockInfo} {encode : BitSetSIMD} (hrec : IsRecord c encode)
    (hvalid : ValidBlock c codec ids block) :
    (constructEncode c codec block ids encode).byte 0 =
      if block.blockType = .fullHash then (setBlockModel encode block.blockType).byte 0
      else (setEncodeSize (setBlockModel encode block.blockType) block.blockSize).byte 0 := by
  have hlen := length_of_isRecord hrec
  have hbits := perEncodeBitSize_eq c
  have hfits := hvalid.fits
  have hmodelLen : (setBlockModel encode block.blockType).data.length = encode.data.length := by
    rw [setBlockModel, HybridEncode.setBlockModel_eq, length_blockSet]
  have hsizeLen : (setEncodeSize (setBlockModel encode block.blockType)
      block.blockSize).data.length = encode.data.length := by
    rw [setEncodeSize, length_blockSet, hmodelLen]
  -- the loop over the hash bits begins behind byte 0
  have hfold : ∀ (pre : BitSetSIMD) (out : List Byte), out.length ≤ maxBytesLen c →
      (if (out.length + 1) * 8 = c.perEncodeBitSize then pre
        else (block.outside ids).foldl
          (fun bs id => bs.setOne (hash c id ((out.length + 1) * 8))) pre).byte 0 = pre.byte 0 := by
    intro pre out hout
    split
    · rfl
    · rename_i hno
      apply byte_foldl_setOne
      intro id _
      have hge := (HybridEncode.hash_mem hper
        (show (out.length + 1) * 8 < c.perEncodeBitSize by omega) id).1
      show HybridEncode.hash c id _ / 8 ≠ 0
      omega
  unfold constructEncode
  by_cases hfull : block.blockType = .fullHash
  · simp only [hfull, ne_eq, not_true_eq_false, if_false, if_true]
    exact hfold _ [] (Nat.zero_le _)
  · simp only [hfull, ne_eq, not_false_eq_true, if_true, if_false]
    rw [hfold _ _ hfits, byte_setBytes _ _ _ (by omega), if_neg (by omega)]

end DeltaSIMDEncode

namespace DeltaSIMDEncodeV3

open DeltaSIMDCodecV3 (getRequiredBytes)
open DeltaSIMDEncode (BlockInfo Candidate Examined candidateAt blockAt fullHashScoreCount
  maxBytesLen isDecodable codecV3 constructEncode setBlockModel setEncodeSize)

/-! ## Section 2: The block type that wins -/

/-- No block that `DynamicChoose` looks at has a higher score than the full hash. -/
def FullHashBest (c : Config) (ids : List Nat) : Prop :=
  ∀ i size, Examined c (byteLen ids) ids i size →
    currentScore c ids (candidateAt c (byteLen ids) ids i size) ≤
      fullHashScoreCount c ids (maxBytesLen c * 8) 0

theorem dynamicChoose_eq_fullHash_iff {c : Config} {ids : List Nat} :
    (dynamicChoose c ids).blockType = .fullHash ↔ FullHashBest c ids := by
  rw [dynamicChoose_eq_foldl]
  constructor
  · intro hfull
    -- a better candidate would have replaced the full hash
    by_contra hbetter
    unfold FullHashBest at hbetter
    push Not at hbetter
    obtain ⟨i, size, hex, hlt⟩ := hbetter
    have hseen : candidateAt c (byteLen ids) ids i size ∈ examined c ids :=
      mem_examined_iff.mpr ⟨i, size, hex, rfl⟩
    obtain ⟨cand, hcand, heq⟩ := @BestSearch.exists_foldl_keepBest _ _ (currentScore c ids)
      Candidate.block (fullHashScoreCount c ids (maxBytesLen c * 8) 0, ⟨0, 0, .fullHash⟩) _ _
      hseen hlt
    obtain ⟨j, size', -, rfl⟩ := mem_examined_iff.mp hcand
    rw [heq] at hfull
    -- a candidate is leftmost, rightmost or in the middle
    revert hfull
    simp only [candidateAt, blockAt]
    split
    · simp
    · split <;> simp
  · intro hbest
    rw [BestSearch.foldl_keepBest_eq]
    intro cand hcand
    obtain ⟨i, size, hex, rfl⟩ := mem_examined_iff.mp hcand
    exact hbest i size hex

/-! ## Section 3: The header -/

/-- The ids that `EncodeVertex` hands to `EncodeArray`. -/
def handed (c : Config) (ids : List Nat) : List Nat :=
  if getRequiredBytes ids ≤ maxBytesLen c then ids else (dynamicChoose c ids).inside ids

/-- The header says whether the list fits, how many ids are stored and, for a list that
    does not fit, how the block lies. -/
structure HeaderIntact (c : Config) (ids : List Nat) (vertex : Nat) (encodes : Records) : Prop where
  isDecodable_iff : isDecodable encodes vertex = true ↔ getRequiredBytes ids ≤ maxBytesLen c
  getEncodeSize_eq : (encodes.record vertex).getEncodeSize = (handed c ids).length
  model_eq : ¬ getRequiredBytes ids ≤ maxBytesLen c →
    (encodes.record vertex).bit 1 =
      (HybridEncode.modelCode (dynamicChoose c ids).blockType).testBit 1 ∧
    (encodes.record vertex).bit 2 =
      (HybridEncode.modelCode (dynamicChoose c ids).blockType).testBit 0

/-- `EncodeVertex(vertex_id, neighbors)`. A list that does not fit is gone through with an
    `int`, by `FullHashScoreCount` to its end. -/
def encodeVertexAt (c : Config) (vertexId : Nat) (neighbors : List Nat) (encodes : Records) :
    Option Records :=
  if neighbors.length < 2 ^ 31 then some (encodeVertex c vertexId neighbors encodes) else none

section Header

variable {c : Config} (hc : c.Narrow) {ids : List Nat}
include hc

/-- The model bits are right whatever the byte length left there. -/
theorem modelBits_encodeBits (hlong : ¬ getRequiredBytes ids ≤ maxBytesLen c) {old : BitSetSIMD}
    (hrec : IsRecord c old) :
    (encodeBits c ids old).bit 1 =
      (HybridEncode.modelCode (dynamicChoose c ids).blockType).testBit 1 ∧
    (encodeBits c ids old).bit 2 =
      (HybridEncode.modelCode (dynamicChoose c ids).blockType).testBit 0 := by
  have hper := hc.perEncodeBitSize_le
  have hnil : ids ≠ [] := by
    rintro rfl
    exact hlong (Nat.zero_le _)
  have hvalid := valid_dynamicChoose hc ids
  have hrec' := isRecord_setEncodeSize hrec (getRequiredBytes ids)
  have hlen := DeltaSIMDEncode.length_of_isRecord hrec'
  have hzero := DeltaSIMDEncode.byte_zero_constructEncode (by omega) hrec' hvalid
  have hmodelLen : (setBlockModel (setEncodeSize old (getRequiredBytes ids))
      (dynamicChoose c ids).blockType).data.length =
      (setEncodeSize old (getRequiredBytes ids)).data.length := by
    rw [setBlockModel, HybridEncode.setBlockModel_eq, length_blockSet]
  have hmodel := DeltaSIMDEncode.modelBits_setBlockModel
    (show 0 < (setEncodeSize old (getRequiredBytes ids)).data.length by omega)
    (dynamicChoose c ids).blockType
  have hsize := DeltaSIMDEncode.modelBits_setEncodeSize
    (show 0 < (setBlockModel (setEncodeSize old (getRequiredBytes ids))
      (dynamicChoose c ids).blockType).data.length by rw [hmodelLen]; omega) hvalid.size_lt
  have hencode : encodeBits c ids old = constructEncode c codecV3 (dynamicChoose c ids) ids
      (setEncodeSize old (getRequiredBytes ids)) := by
    simp only [encodeBits, if_neg hnil, if_neg hlong]
  rw [hencode, bit_eq_getLsbD, bit_eq_getLsbD]
  simp only [show 1 / 8 = 0 from rfl, hzero]
  split
  · exact hmodel
  · exact ⟨hsize.1.trans hmodel.1, hsize.2.trans hmodel.2⟩

theorem headerIntact_encodeVertex {vertex : Nat} {encodes : Records}
    (hvertex : vertex < encodes.length)
    (hzero : encodes.record vertex = ofBitSize c.perEncodeBitSize) :
    HeaderIntact c ids vertex (encodeVertex c vertex ids encodes) ↔
      getRequiredBytes ids ≤ maxBytesLen c ∨
      getRequiredBytes ids % 256 < 128 ∧ (FullHashBest c ids → getRequiredBytes ids % 32 = 0) := by
  have hrec := isRecord_ofBitSize c
  have hrecord : (encodeVertex c vertex ids encodes).record vertex =
      encodeBits c ids (ofBitSize c.perEncodeBitSize) := by
    rw [encodeVertex, Records.record_update _ _ hvertex, if_pos rfl, hzero]
  by_cases hfit : getRequiredBytes ids ≤ maxBytesLen c
  · have hwhole := decodableRecord_encodeBits hc hrec hfit
    refine iff_of_true ⟨?_, ?_, fun hlong => absurd hfit hlong⟩ (Or.inl hfit)
    · rw [isDecodable, hrecord, hwhole.flag]
      exact iff_of_true rfl hfit
    · rw [hrecord, hwhole.size, handed, if_pos hfit]
  · -- bit 7 of the byte length is the flag, and its low bits are the size of a full hash
    have hnew := rewritten_encodeBits hc hrec hfit
    have hvalid := valid_dynamicChoose hc ids
    obtain ⟨hflagFresh, -⟩ := DeltaSIMDEncode.fresh_header c
    have hflag := hnew.flag
    rw [hflagFresh, Bool.false_or] at hflag
    have hhanded : (handed c ids).length = (dynamicChoose c ids).blockSize := by
      rw [handed, if_neg hfit, DeltaSIMDEncode.length_inside hvalid.bound]
    rw [← dynamicChoose_eq_fullHash_iff]
    constructor
    · intro h
      refine Or.inr ⟨?_, fun hfull => ?_⟩
      · have hdec := h.isDecodable_iff
        rw [isDecodable, hrecord, hflag, decide_eq_true_iff] at hdec
        by_contra hhigh
        exact hfit (hdec.mp (by omega))
      · have hsize := h.getEncodeSize_eq
        rwa [hrecord, hnew.size, if_pos hfull, hhanded, hvalid.fullHash.mp hfull] at hsize
    · intro h
      obtain ⟨hlow, hhash⟩ := h.resolve_left hfit
      refine ⟨?_, ?_, fun _ => ?_⟩
      · rw [isDecodable, hrecord, hflag, decide_eq_true_iff]
        exact iff_of_false (by omega) hfit
      · rw [hrecord, hnew.size, hhanded]
        split
        · rename_i hfull
          rw [hhash hfull, hvalid.fullHash.mp hfull]
        · rfl
      · rw [hrecord]
        exact modelBits_encodeBits hc hfit hrec

/-- The header of a record written on zeroes is right exactly when the list fits, or its
    byte length stays off the flag and, where the full hash wins, off the size field. -/
theorem headerIntact_iff {vertex : Nat} {encodes : Records} (hvertex : vertex < encodes.length)
    (hzero : encodes.record vertex = ofBitSize c.perEncodeBitSize) :
    (∃ encodes', encodeVertexAt c vertex ids encodes = some encodes' ∧
      HeaderIntact c ids vertex encodes') ↔
      ids.length < 2 ^ 31 ∧
      (getRequiredBytes ids ≤ maxBytesLen c ∨
        getRequiredBytes ids % 256 < 128 ∧
          (FullHashBest c ids → getRequiredBytes ids % 32 = 0)) := by
  rw [← headerIntact_encodeVertex hc hvertex hzero]
  constructor
  · intro h
    obtain ⟨encodes', hrun, hintact⟩ := h
    rw [encodeVertexAt] at hrun
    split at hrun
    next hlen =>
      cases hrun
      exact ⟨hlen, hintact⟩
    next => cases hrun
  · intro h
    exact ⟨_, by rw [encodeVertexAt, if_pos h.1], h.2⟩

end Header

/-- Records of one word over 200 vertices. -/
def oneWord : Config := Config.ofSizes 1 200 2 (by decide)

theorem narrow_oneWord : oneWord.Narrow := ⟨by decide, by decide⟩

theorem one_lt_length_fresh : 1 < (Records.fresh oneWord).length := by
  rw [Records.fresh, List.length_replicate]
  decide

/-- Two neighbours fit in three bytes. Four take five; the block of the first covers 198 ids,
    which is more than the full hash is worth. -/
theorem headerIntact_iff_two :
    (∃ encodes', encodeVertexAt oneWord 1 [1, 2] (Records.fresh oneWord) = some encodes' ∧
      HeaderIntact oneWord [1, 2] 1 encodes') ∧
    ¬ getRequiredBytes [197, 198, 199, 200] ≤ maxBytesLen oneWord ∧
    ∃ encodes', encodeVertexAt oneWord 1 [197, 198, 199, 200] (Records.fresh oneWord) =
      some encodes' ∧ HeaderIntact oneWord [197, 198, 199, 200] 1 encodes' := by
  have hzero := @Records.record_fresh oneWord 1 (by decide)
  have hbetter : ¬ FullHashBest oneWord [197, 198, 199, 200] := by
    intro hbest
    -- the block of the first neighbour takes all three bytes
    have hex : Examined oneWord (byteLen [197, 198, 199, 200]) [197, 198, 199, 200] 0 1 :=
      ⟨by decide, by decide, by decide, by decide⟩
    exact absurd (hbest 0 1 hex) (by decide)
  refine ⟨(headerIntact_iff narrow_oneWord one_lt_length_fresh hzero).mpr
    ⟨by decide, Or.inl (by decide)⟩, by decide, ?_⟩
  exact (headerIntact_iff narrow_oneWord one_lt_length_fresh hzero).mpr
    ⟨by decide, Or.inr ⟨by decide, fun hbest => absurd hbest hbetter⟩⟩

/-- 103 neighbours take 129 bytes, and the record of three bytes says that they fit. -/
theorem header_of_long_list :
    ¬ getRequiredBytes (List.range' 2 103) ≤ maxBytesLen oneWord ∧
    isDecodable (encodeVertex oneWord 1 (List.range' 2 103) (Records.fresh oneWord)) 1 = true ∧
    ¬ ∃ encodes', encodeVertexAt oneWord 1 (List.range' 2 103) (Records.fresh oneWord) =
      some encodes' ∧ HeaderIntact oneWord (List.range' 2 103) 1 encodes' := by
  have hlong : ¬ getRequiredBytes (List.range' 2 103) ≤ maxBytesLen oneWord := by decide
  have hrecord : (encodeVertex oneWord 1 (List.range' 2 103) (Records.fresh oneWord)).record 1 =
      encodeBits oneWord (List.range' 2 103) (ofBitSize oneWord.perEncodeBitSize) := by
    rw [encodeVertex, Records.record_update _ _ one_lt_length_fresh, if_pos rfl,
      Records.record_fresh (by decide)]
  have hnew := rewritten_encodeBits narrow_oneWord (isRecord_ofBitSize oneWord) hlong
  have hflag := hnew.flag
  have hlen : getRequiredBytes (List.range' 2 103) = 129 := by decide
  rw [hlen] at hflag
  have hdec : isDecodable (encodeVertex oneWord 1 (List.range' 2 103) (Records.fresh oneWord)) 1 =
      true := by
    rw [isDecodable, hrecord, hflag]
    decide
  refine ⟨hlong, hdec, fun h => ?_⟩
  obtain ⟨encodes', hrun, hintact⟩ := h
  rw [encodeVertexAt, if_pos (by decide), Option.some.injEq] at hrun
  rw [← hrun] at hintact
  exact hlong (hintact.isDecodable_iff.mp hdec)

end DeltaSIMDEncodeV3

end Vend
