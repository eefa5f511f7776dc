import Vend.Encode.SearchTree

/-! # `DeltaSIMDEncodeV3`: one record

    `encode/SIMD/delta_simd_encode.h`. `V3` writes with the tree-ordered codec. Its
    `EncodeVertex` differs from the older versions in three ways: an empty list is not
    done with after the flag, the byte length of the whole list is stored into the size
    field before the list is known to fit, and a block is scored with `HashCount`.

    The flag is set for a list that fits and is never cleared, and the hash bits are
    added to what the record held. The byte length is stored without a mask, so that a
    length from 32 on spills into the block model and one from 128 on into the flag.
-/

namespace Vend

open BitField BitSetSIMD DeltaSIMDCodecV3

namespace DeltaSIMDEncode

/-- `new DeltaSIMDCodecV3()`, with `HSIMD = 0`. -/
def codecV3 : Codec where
  getRequiredBytes := DeltaSIMDCodecV3.getRequiredBytes
  encodeArray := DeltaSIMDCodecV3.encodeArray
  findWithCount := DeltaSIMDCodecV3.findWithCount

/-- The same codec with `HSIMD ≠ 0`, which only the search depends on. -/
def codecV3SIMD : Codec where
  getRequiredBytes := DeltaSIMDCodecV3.getRequiredBytes
  encodeArray := DeltaSIMDCodecV3.encodeArray
  findWithCount := DeltaSIMDCodecV3.findWithCountSIMD

end DeltaSIMDEncode

namespace DeltaSIMDEncodeV3

open DeltaSIMDEncode (BlockInfo Codec codecV3 codecV3SIMD maxBytesLen setEncodeSize setDecodable
  constructEncode fullHashScoreCount hash getBlockModel memory ValidBlock Stored
  length_of_isRecord)

/-! ## Section 1: Model -/

/-- The `while` loop of `DynamicChoose`: the block grows until it is too long or
    reaches the last neighbour. The control bytes are counted twice. One round per
    neighbour is enough. -/
def growBlock (c : Config) (neighbors : List Nat) :
    Nat → BlockInfo → Nat × BlockInfo → Nat × BlockInfo
  | 0, _, best => best
  | rounds + 1, block, best =>
    let byteLen := getRequiredBytesAt neighbors block.start block.blockSize +
      (block.blockSize + 3) / 4
    if maxBytesLen c < byteLen then best
    else
      let block :=
        if block.blockSize + block.start = neighbors.length then
          { block with blockType := .rightMost }
        else block
      let slotSize := (maxBytesLen c - byteLen) * 8
      let currentScore := ((HashCount.ofHashSize slotSize).construct neighbors).getVal c neighbors
        block.start block.blockSize block.blockType
      let best := if best.1 < currentScore then (currentScore, block) else best
      if block.blockType = .rightMost then best
      else growBlock c neighbors rounds { block with blockSize := block.blockSize + 1 } best

/-- One round of the loop over the first index of the block. -/
def chooseFrom (c : Config) (neighbors : List Nat) (best : Nat × BlockInfo) (i : Nat) :
    Nat × BlockInfo :=
  if i = 0 then growBlock c neighbors neighbors.length ⟨i, 1, .leftMost⟩ best
  else if i ≠ neighbors.length - 1 then growBlock c neighbors neighbors.length ⟨i, 2, .middle⟩ best
  else growBlock c neighbors neighbors.length ⟨i, 1, .rightMost⟩ best

/-- `DynamicChoose(encode, neighbors, delta_infos)`: the block it ends with. -/
def dynamicChoose (c : Config) (neighbors : List Nat) : BlockInfo :=
  let score := fullHashScoreCount c neighbors (maxBytesLen c * 8) 0
  ((List.range neighbors.length).foldl (chooseFrom c neighbors) (score, ⟨0, 0, .fullHash⟩)).2

/-- `EncodeVertex(vertex_id, neighbors)` on the record it rewrites. -/
def encodeBits (c : Config) (neighbors : List Nat) (encode : BitSetSIMD) : BitSetSIMD :=
  let encode := if neighbors = [] then encode.setOne 0 else encode
  let encodeByteLen := getRequiredBytes neighbors
  let encode := setEncodeSize encode encodeByteLen
  if encodeByteLen ≤ maxBytesLen c then setDecodable codecV3 neighbors encode
  else constructEncode c codecV3 (dynamicChoose c neighbors) neighbors encode

/-- `NonNeighborTest(vertex1, vertex2)` on the record of `vertex1`, with `HSIMD = 0`. -/
def testBits (c : Config) : (Nat → Byte) → BitSetSIMD → Nat → PairType :=
  DeltaSIMDEncode.testBits c codecV3

/-- The same for either value of `HSIMD`. -/
def testWith (c : Config) (hsimd : Bool) : (Nat → Byte) → BitSetSIMD → Nat → PairType :=
  DeltaSIMDEncode.testBits c (if hsimd then codecV3SIMD else codecV3)

/-! ## Section 2: The search for a block ends with a block that fits -/

/-- The two ways to count the bytes of a block agree. -/
theorem getRequiredBytesAt_eq {ids : List Nat} {start size : Nat} (hle : start + size ≤ ids.length)
    (hsize : size ≤ 40) :
    getRequiredBytesAt ids start size = (encodeArray ((ids.drop start).take size)).length := by
  have hlen : ((ids.drop start).take size).length = size := by
    rw [List.length_take, List.length_drop]
    omega
  rw [encodeArray, DeltaSIMDCodec.length_encodeArray, getRequiredBytesAt, arrange, hlen]
  congr 1
  apply List.map_congr_left
  intro k hk
  have hlt := order_lt hsize (List.mem_range.mp hk)
  rw [List.getD_eq_getElem _ _ (show order size k + start < ids.length by omega),
    List.getD_eq_getElem _ _ (show order size k < ((ids.drop start).take size).length by omega),
    List.getElem_take, List.getElem_drop]
  simp only [Nat.add_comm]

theorem le_getRequiredBytesAt (ids : List Nat) (start size : Nat) :
    size + (size + 3) / 4 ≤ getRequiredBytesAt ids start size := by
  have h := DeltaSIMDCodec.length_le_getRequiredBytes .v2
    ((List.range size).map fun i => ids.getD (order size i + start) 0)
  rw [List.length_map, List.length_range] at h
  unfold GroupVarint.groups at h
  unfold getRequiredBytesAt
  omega

section Choose

variable {c : Config} (hc : c.Narrow) {ids : List Nat}

/-- A block on its way through the `while` loop. -/
structure Growing (ids : List Nat) (block : BlockInfo) : Prop where
  size_pos : 1 ≤ block.blockSize
  bound : block.start + block.blockSize ≤ ids.length
  ne_fullHash : block.blockType ≠ .fullHash
  leftMost : block.blockType = .leftMost → block.start = 0
  rightMost : block.blockType = .rightMost → block.start + block.blockSize = ids.length

include hc

theorem maxBytesLen_le : maxBytesLen c ≤ 39 := by
  have hper := hc.perEncodeBitSize_le
  unfold maxBytesLen
  omega

/-- A growing block that fits can be written. -/
theorem Growing.valid {block : BlockInfo} (hg : Growing ids block)
    (hfit : getRequiredBytesAt ids block.start block.blockSize + (block.blockSize + 3) / 4 ≤
      maxBytesLen c) : ValidBlock c codecV3 ids block := by
  have hpos := hg.size_pos
  have hbytes := le_getRequiredBytesAt ids block.start block.blockSize
  have hmax := maxBytesLen_le hc
  have hlen := getRequiredBytesAt_eq hg.bound (show block.blockSize ≤ 40 by omega)
  refine ⟨hg.bound, by omega, ?_, ?_, hg.leftMost, hg.rightMost⟩
  · exact hlen.symm.trans_le (by omega)
  · exact ⟨fun hfull => absurd hfull hg.ne_fullHash, fun hzero => by omega⟩

theorem valid_growBlock (rounds : Nat) {block : BlockInfo} {best : Nat × BlockInfo}
    (hg : Growing ids block) (hbest : ValidBlock c codecV3 ids best.2) :
    ValidBlock c codecV3 ids (growBlock c ids rounds block best).2 := by
  induction rounds generalizing block best with
  | zero => exact hbest
  | succ rounds ih =>
    simp only [growBlock]
    split
    · exact hbest
    · rename_i hfit
      -- The block as it is scored, and what the score leaves as the best one.
      generalize hblock' : (if block.blockSize + block.start = ids.length then
        { block with blockType := .rightMost } else block : BlockInfo) = block'
      have hg' : Growing ids block' := by
        rw [← hblock']
        split
        · rename_i hend
          exact ⟨hg.size_pos, hg.bound, nofun, nofun, fun _ => (Nat.add_comm _ _).trans hend⟩
        · exact hg
      have hsame : block'.start = block.start ∧ block'.blockSize = block.blockSize := by
        rw [← hblock']
        split <;> exact ⟨rfl, rfl⟩
      have hvalid' := hg'.valid hc (by rw [hsame.1, hsame.2]; omega)
      generalize HashCount.getVal c _ ids _ _ _ = score
      have hbest' : ValidBlock c codecV3 ids
          (if best.1 < score then (score, block') else best).2 := by
        split
        · exact hvalid'
        · exact hbest
      split
      · exact hbest'
      · rename_i hright
        -- a block that does not reach the end of the list can grow
        have hne : block.blockSize + block.start ≠ ids.length := by
          intro hend
          apply hright
          rw [← hblock', if_pos hend]
        have heq : block' = block := by rw [← hblock', if_neg hne]
        have hbound := hg.bound
        refine ih ?_ hbest'
        rw [heq]
        refine ⟨Nat.le_add_left _ _, ?_, hg.ne_fullHash, hg.leftMost, ?_⟩
        · show block.start + (block.blockSize + 1) ≤ ids.length
          omega
        · intro htype
          have := hg.rightMost htype
          omega

theorem valid_chooseFrom {best : Nat × BlockInfo} {i : Nat} (hi : i < ids.length)
    (hbest : ValidBlock c codecV3 ids best.2) :
    ValidBlock c codecV3 ids (chooseFrom c ids best i).2 := by
  unfold chooseFrom
  split
  · rename_i hzero
    exact valid_growBlock hc _ ⟨Nat.le_refl _, hi, nofun, fun _ => hzero, nofun⟩ hbest
  · split
    · exact valid_growBlock hc _ ⟨Nat.le_add_left 1 1, by show i + 2 ≤ _; omega, nofun, nofun, nofun⟩ hbest
    · exact valid_growBlock hc _
        ⟨Nat.le_refl _, hi, nofun, nofun, fun _ => by show i + 1 = _; omega⟩ hbest

/-- Every candidate fits, and so does the block that wins. -/
theorem valid_dynamicChoose (ids : List Nat) :
    ValidBlock c codecV3 ids (dynamicChoose c ids) := by
  have hfold : ∀ (is : List Nat) (best : Nat × BlockInfo), (∀ i ∈ is, i < ids.length) →
      ValidBlock c codecV3 ids best.2 →
      ValidBlock c codecV3 ids (is.foldl (chooseFrom c ids) best).2 := by
    intro is
    induction is with
    | nil => exact fun best _ hbest => hbest
    | cons i is ih =>
      intro best his hbest
      exact ih _ (fun j hj => his j (by simp [hj])) (valid_chooseFrom hc (his i (by simp)) hbest)
  exact hfold _ _ (fun i hi => List.mem_range.mp hi) (DeltaSIMDEncode.valid_fullHash rfl)

end Choose

/-! ## Section 3: What is left of a record that is rewritten -/

section Header

variable {encode : BitSetSIMD} (hpos : 0 < encode.data.length)
include hpos

/-- Only five bits of the size are read back, and a byte from 128 on sets the flag. -/
theorem header_setEncodeSize (val : Nat) :
    (setEncodeSize encode val).getFirstBit =
      (encode.getFirstBit || decide (128 ≤ val % 256)) ∧
    (setEncodeSize encode val).getEncodeSize = val % 32 := by
  have hbyte := DeltaSIMDEncode.byte_setEncodeSize hpos val 0
  rw [if_pos rfl] at hbyte
  have hfirst : ∀ b : Byte, decide (b &&& 0x80 ≠ 0) = b.getLsbD 7 := by decide +kernel
  have hhigh : ∀ b : Byte, b.getLsbD 7 = decide (128 ≤ b.toNat) := by decide +kernel
  have hsize : ∀ b : Byte, (b &&& 0x1F).toNat = b.toNat % 32 := by decide +kernel
  have hmask : (encode.byte 0 &&& 0xE0 ||| BitVec.ofNat 8 val) &&& 0x1F =
      BitVec.ofNat 8 val &&& 0x1F := by
    ext i hi
    have hcase : ∀ i < 8, ((0xE0 : Byte).getLsbD i && (0x1F : Byte).getLsbD i) = false := by decide
    have hdisjoint := hcase i hi
    simp only [← BitVec.getLsbD_eq_getElem, BitVec.getLsbD_and, BitVec.getLsbD_or]
    rw [Bool.and_or_distrib_right, Bool.and_assoc, hdisjoint, Bool.and_false, Bool.false_or]
  unfold getFirstBit getEncodeSize
  rw [hbyte, hmask, hsize, BitVec.toNat_ofNat]
  simp only [hfirst, BitVec.getLsbD_or, BitVec.getLsbD_and, hhigh (BitVec.ofNat 8 val),
    BitVec.toNat_ofNat]
  constructor
  · rw [show (0xE0 : Byte).getLsbD 7 = true from rfl, Bool.and_true]
  · omega

theorem bit_setEncodeSize (val : Nat) {p : Nat} (hp : 8 ≤ p) :
    (setEncodeSize encode val).bit p = encode.bit p := by
  rw [bit_eq_getLsbD, bit_eq_getLsbD, DeltaSIMDEncode.byte_setEncodeSize hpos, if_neg (by omega)]

end Header

/-- The first bit behind the header and the codec bytes of the block. -/
def hashBegin (block : BlockInfo) (ids : List Nat) : Nat :=
  ((encodeArray (block.inside ids)).length + 1) * 8

/-- What `EncodeVertex` leaves of a record when the list does not fit. Neither the flag
    nor a bit behind the block is ever cleared. -/
structure Rewritten (c : Config) (ids : List Nat) (block : BlockInfo) (old encode : BitSetSIMD) :
    Prop where
  isRecord : IsRecord c encode
  flag : encode.getFirstBit = (old.getFirstBit || decide (128 ≤ getRequiredBytes ids % 256))
  model : getBlockModel encode = if block.blockType = .fullHash then .middle else block.blockType
  size : encode.getEncodeSize =
    if block.blockType = .fullHash then getRequiredBytes ids % 32 else block.blockSize
  stored : ∀ tail, Stored (memory encode tail) (encodeArray (block.inside ids))
  bit : ∀ p, hashBegin block ids ≤ p → p < c.perEncodeBitSize → encode.bit p =
    (old.bit p || (block.outside ids).any fun id => decide (hash c id (hashBegin block ids) = p))

section Encode

variable {c : Config} (hc : c.Narrow) {ids : List Nat} {old : BitSetSIMD} (hrec : IsRecord c old)
include hc

/-- A list that fits has few ids. -/
theorem length_lt_of_fits (hfit : getRequiredBytes ids ≤ maxBytesLen c) :
    ids.length < 32 ∧ (encodeArray ids).length = getRequiredBytes ids := by
  have hmax := maxBytesLen_le hc
  have hle : ids.length ≤ 40 := by
    by_contra hlong
    rw [getRequiredBytes, if_pos (by omega)] at hfit
    omega
  have heq : (encodeArray ids).length = getRequiredBytes ids := by
    rw [getRequiredBytes, if_neg (by omega), encodeArray, DeltaSIMDCodec.length_encodeArray]
  have hbytes := DeltaSIMDCodec.length_le_getRequiredBytes .v2 (arrange ids)
  rw [← DeltaSIMDCodec.length_encodeArray, ← encodeArray, length_arrange] at hbytes
  unfold GroupVarint.groups at hbytes
  exact ⟨by omega, heq⟩

include hrec

/-- A list that fits is stored as a whole, whatever the record held. -/
theorem decodableRecord_encodeBits (hfit : getRequiredBytes ids ≤ maxBytesLen c) :
    DeltaSIMDEncode.DecodableRecord codecV3 ids (encodeBits c ids old) := by
  obtain ⟨hlen, heq⟩ := length_lt_of_fits hc hfit
  unfold encodeBits
  simp only [if_pos hfit]
  refine DeltaSIMDEncode.decodableRecord_setDecodable (c := c) ?_ hlen (heq.trans_le hfit)
  unfold IsRecord bitLength at hrec ⊢
  rw [setEncodeSize, length_blockSet]
  split
  · rw [length_setOne, hrec]
  · exact hrec

omit hc in
theorem isRecord_setEncodeSize (val : Nat) : IsRecord c (setEncodeSize old val) := by
  unfold IsRecord bitLength at hrec ⊢
  rw [setEncodeSize, length_blockSet, hrec]

omit hc in
/-- A record that agrees with the written block on the header and the codec bytes. -/
theorem rewritten_of_written {block : BlockInfo} {pre encode : BitSetSIMD}
    (hvalid : ValidBlock c codecV3 ids block)
    (hpre : DeltaSIMDEncode.Written codecV3 (block.inside ids) block.blockType
      (setEncodeSize old (getRequiredBytes ids)) pre)
    (hlen : encode.data.length = pre.data.length)
    (hkeep : ∀ j ≤ (encodeArray (block.inside ids)).length, encode.byte j = pre.byte j)
    (hbit : ∀ p, hashBegin block ids ≤ p → p < c.perEncodeBitSize → encode.bit p =
      (old.bit p || (block.outside ids).any fun id =>
        decide (hash c id (hashBegin block ids) = p))) :
    Rewritten c ids block old encode := by
  have hlen' := length_of_isRecord hrec
  have hrec' := isRecord_setEncodeSize hrec (getRequiredBytes ids)
  obtain ⟨hflag, hsize⟩ := header_setEncodeSize (show 0 < old.data.length by omega)
    (getRequiredBytes ids)
  obtain ⟨hflag', hsize', hmodel'⟩ := DeltaSIMDEncode.header_congr (hkeep 0 (Nat.zero_le _))
  have hfits := hvalid.fits
  change (encodeArray (block.inside ids)).length ≤ maxBytesLen c at hfits
  have hprelen := hpre.length_eq.trans (length_of_isRecord hrec')
  refine ⟨?_, by rw [hflag', hpre.flag, hflag], by rw [hmodel', hpre.model], ?_,
    fun tail => DeltaSIMDEncode.memory_eq tail ?_ ?_, hbit⟩
  · unfold IsRecord bitLength at hrec' ⊢
    rw [hlen, hpre.length_eq, hrec']
  · rw [hsize', hpre.size, hsize, DeltaSIMDEncode.length_inside hvalid.bound]
  · change (encodeArray (block.inside ids)).length < _
    omega
  · exact fun p hp => (hkeep (p + 1) hp).trans (hpre.bytes p hp)

theorem rewritten_encodeBits (hlong : ¬ getRequiredBytes ids ≤ maxBytesLen c) :
    Rewritten c ids (dynamicChoose c ids) old (encodeBits c ids old) := by
  have hnil : ids ≠ [] := by
    rintro rfl
    exact hlong (Nat.zero_le _)
  have hlen := length_of_isRecord hrec
  have hbits := DeltaSIMDEncode.perEncodeBitSize_eq c
  have hper := hc.perEncodeBitSize_le
  have hvalid := valid_dynamicChoose hc ids
  have hrec' := isRecord_setEncodeSize hrec (getRequiredBytes ids)
  obtain ⟨pre, hpre, heq⟩ := DeltaSIMDEncode.exists_written
    (show codecV3.encodeArray [] = [] from rfl) hrec' hvalid
  have hfits := hvalid.fits
  have hprelen := hpre.length_eq.trans (length_of_isRecord hrec')
  have hencode : encodeBits c ids old =
      constructEncode c codecV3 (dynamicChoose c ids) ids (setEncodeSize old (getRequiredBytes ids)) := by
    simp only [encodeBits, if_neg hnil, if_neg hlong]
  generalize dynamicChoose c ids = block at hvalid hpre heq hfits hencode
  change (encodeArray (block.inside ids)).length ≤ maxBytesLen c at hfits
  -- the bits behind the codec bytes are those of the old record
  have hbit : ∀ p, hashBegin block ids ≤ p → pre.bit p = old.bit p := by
    intro p hp
    unfold hashBegin at hp
    rw [bit_eq_getLsbD, hpre.rest _ (show (encodeArray (block.inside ids)).length < p / 8 by omega),
      ← bit_eq_getLsbD, bit_setEncodeSize (by omega) _ (by omega)]
  rw [hencode, heq]
  change Rewritten c ids block old (if hashBegin block ids = c.perEncodeBitSize then pre
    else (block.outside ids).foldl (fun bs id => bs.setOne (hash c id (hashBegin block ids))) pre)
  by_cases hno : hashBegin block ids = c.perEncodeBitSize
  · rw [if_pos hno]
    exact rewritten_of_written hrec hvalid hpre rfl (fun _ _ => rfl)
      fun p hp hlt => absurd hlt (by omega)
  · rw [if_neg hno]
    have hlt : hashBegin block ids < c.perEncodeBitSize := by
      unfold hashBegin at hno ⊢
      omega
    have hmem : ∀ id, _ := HybridEncode.hash_mem (c := c) (b := hashBegin block ids) (by omega) hlt
    obtain ⟨hlen', -, hset, hother⟩ := bit_foldl_setOne pre (block.outside ids)
      (fun id => hash c id (hashBegin block ids)) (by
        intro id _
        have := (hmem id).2
        show HybridEncode.hash c id _ < _
        unfold bitLength
        omega)
    refine rewritten_of_written hrec hvalid hpre hlen' ?_ ?_
    · -- the hash bits lie behind the codec bytes
      intro j hj
      apply DeltaSIMDEncode.byte_foldl_setOne
      intro id _
      have := (hmem id).1
      show HybridEncode.hash c id _ / 8 ≠ j
      unfold hashBegin at this ⊢
      omega
    · -- a bit is set by an id that hashes to it, or it is as before
      intro p hp _
      rw [← hbit p hp]
      by_cases hhit : ∃ id ∈ block.outside ids, hash c id (hashBegin block ids) = p
      · obtain ⟨id, hid, rfl⟩ := hhit
        rw [hset id hid, List.any_eq_true.mpr ⟨id, hid, decide_eq_true rfl⟩, Bool.or_true]
      · have hmiss : ∀ id ∈ block.outside ids, hash c id (hashBegin block ids) ≠ p :=
          fun id hid heq => hhit ⟨id, hid, heq⟩
        rw [hother p hmiss, List.any_eq_false.mpr fun id hid => by simpa using hmiss id hid,
          Bool.or_false]

end Encode

end DeltaSIMDEncodeV3

end Vend
