import Vend.Encode.DeltaSIMDCodec
import Vend.Encode.HybridEncode

/-! # `DeltaSIMDEncode`: one record

    `encode/SIMD/delta_simd_encode.h`. The first byte of a record holds the
    decodable flag, two bits of block model and five bits of size; the codec writes
    behind it. When a list does not fit, a block of consecutive neighbours is
    written and the others are hashed into the remaining bits.

    The encoders differ in the codec they hold, whose virtual functions are the
    fields of `Codec`, and in how `DynamicChoose` counts the bytes of a block. What
    a record says is settled once for every codec that reads back what it wrote
    (`Codec.Sound`): see `speaks_decodable` and `speaks_constructEncode`. Section 6
    then follows `DynamicChoose` of the versions `V0`, `V1` and `V2`.
-/

namespace Vend

open BitField BitSetSIMD GroupVarint DeltaSIMDCodec

namespace DeltaSIMDEncode

/-! ## Section 1: Model -/

/-- The virtual functions of `DeltaSIMDCodec` that the encoders call. -/
structure Codec where
  getRequiredBytes : List Nat → Nat
  encodeArray : List Nat → List Byte
  findWithCount : (Nat → Byte) → Nat → Nat → FindRes

/-- `new DeltaSIMDCodec()`, `new DeltaSIMDCodecV1()`, `new DeltaSIMDCodecV2()`. -/
def codecOf (ver : Version) : Codec where
  getRequiredBytes := DeltaSIMDCodec.getRequiredBytes ver
  encodeArray := DeltaSIMDCodec.encodeArray ver
  findWithCount := DeltaSIMDCodec.findWithCount ver

/-- `max_bytes_len_`. -/
def maxBytesLen (c : Config) : Nat := c.perEncodeBitSize / 8 - 1

/-- `Hash(vertex_id, hash_begin)`. -/
def hash : Config → Nat → Nat → Nat := HybridEncode.hash

/-- `SetBlockModel(bitset, type)`. -/
def setBlockModel : BitSetSIMD → BlockType → BitSetSIMD := HybridEncode.setBlockModel

/-- `GetBlockModel(encode)`. -/
def getBlockModel (encode : BitSetSIMD) : BlockType :=
  if encode.getSecondBit then .rightMost
  else if encode.getThridBit then .middle
  else .leftMost

/-- `SetEncodeSize(encode, val)`. -/
def setEncodeSize (encode : BitSetSIMD) (val : Nat) : BitSetSIMD := encode.blockSet 3 5 val

/-- The memory behind `GetEncodePointer()`. Beyond the record it is arbitrary. -/
def memory (encode : BitSetSIMD) (tail : Nat → Byte) (p : Nat) : Byte :=
  if p + 1 < encode.data.length then encode.byte (p + 1) else tail p

/-- `struct BlockInfo`. -/
structure BlockInfo where
  start : Nat
  blockSize : Nat
  blockType : BlockType
  deriving DecidableEq, Repr

/-- The neighbours of the block. -/
def BlockInfo.inside (block : BlockInfo) (neighbors : List Nat) : List Nat :=
  (neighbors.drop block.start).take block.blockSize

/-- The neighbours in front of the block and behind it. -/
def BlockInfo.outside (block : BlockInfo) (neighbors : List Nat) : List Nat :=
  neighbors.take block.start ++ neighbors.drop (block.start + block.blockSize)

/-- `ConstructEncode(block_info, neighbors, encode)`. -/
def constructEncode (c : Config) (codec : Codec) (block : BlockInfo) (neighbors : List Nat)
    (encode : BitSetSIMD) : BitSetSIMD :=
  let encode := setBlockModel encode block.blockType
  let out := if block.blockType ≠ .fullHash then codec.encodeArray (block.inside neighbors) else []
  let encode :=
    if block.blockType ≠ .fullHash then
      (setEncodeSize encode block.blockSize).setBytes 1 out
    else encode
  let hashBegin := (out.length + 1) * 8
  if hashBegin = c.perEncodeBitSize then encode
  else (block.outside neighbors).foldl (fun bs id => bs.setOne (hash c id hashBegin)) encode

/-- The decodable branch of `EncodeVertex`. -/
def setDecodable (codec : Codec) (neighbors : List Nat) (encode : BitSetSIMD) : BitSetSIMD :=
  (setEncodeSize (encode.setOne 0) neighbors.length).setBytes 1 (codec.encodeArray neighbors)

/-- `FindDecodable(encode, vertex)`. -/
def findDecodable (codec : Codec) (tail : Nat → Byte) (encode : BitSetSIMD) (vertex : Nat) :
    PairType :=
  let size := encode.getEncodeSize
  if size = 0 then .nonNeighbor
  else if (codec.findWithCount (memory encode tail) size vertex).val = 0 then .neighbor
  else .nonNeighbor

/-- `FindNonDecodable(encode, vertex)`. -/
def findNonDecodable (c : Config) (codec : Codec) (tail : Nat → Byte) (encode : BitSetSIMD)
    (vertex : Nat) : PairType :=
  let inSize := encode.getEncodeSize
  if inSize = 0 then if encode.isOne (hash c vertex 8) then .uncertain else .nonNeighbor
  else
    let type := getBlockModel encode
    let res := codec.findWithCount (memory encode tail) inSize vertex
    if res.val = 0 then .neighbor
    else if res.val &&& type.val ≠ 0 then .nonNeighbor
    else
      let hashBegin := (1 + getEncodeLength (memory encode tail) inSize) * 8
      if hashBegin = c.perEncodeBitSize ∨ encode.isOne (hash c vertex hashBegin) then .uncertain
      else .nonNeighbor

/-- `NonNeighborTest(vertex1, vertex2)` on the record of `vertex1`. -/
def testBits (c : Config) (codec : Codec) (tail : Nat → Byte) (encode : BitSetSIMD)
    (vertex : Nat) : PairType :=
  if encode.getFirstBit then findDecodable codec tail encode vertex
  else findNonDecodable c codec tail encode vertex

/-- The loops that count the occupied hash bits, until there are more than
    `maxHashCount`. -/
def countHash (hashBits maxHashCount : Nat) : List Nat → List Bool → Nat → Nat
  | [], _, hashCount => hashCount
  | id :: ids, hashVal, hashCount =>
    if hashCount ≤ maxHashCount then
      let hashNow := id % hashBits
      if hashVal.getD hashNow false then countHash hashBits maxHashCount ids hashVal hashCount
      else countHash hashBits maxHashCount ids (hashVal.set hashNow true) (hashCount + 1)
    else hashCount

/-- `FullHashScoreCount(neighbors, hash_bits, score)`: the new score. -/
def fullHashScoreCount (c : Config) (neighbors : List Nat) (hashBits score : Nat) : Nat :=
  let maxHashCount := sub32 hashBits (score * hashBits % 2 ^ 32 / c.vertexSize)
  let hashCount := countHash hashBits maxHashCount neighbors (List.replicate hashBits false) 0
  if hashCount ≤ maxHashCount then
    c.vertexSize * sub32 hashBits hashCount % 2 ^ 32 / hashBits
  else score

/-- The ids a block answers for by itself. -/
def currentScore (c : Config) (block : BlockInfo) (neighbors : List Nat) : Nat :=
  let first := neighbors.getD block.start 0
  let last := neighbors.getD (block.start + block.blockSize - 1) 0
  match block.blockType with
  | .rightMost => (sub32 c.vertexSize first + 1) % 2 ^ 32
  | .leftMost => last
  | _ => (sub32 last first + 1) % 2 ^ 32

/-- `ScoreCount(block_info, neighbors, hash_bits, score)`: the new score when the block
    is better. The test against 0.35 times the hashed neighbours compares a double
    with an integer, which the rounding does not change. -/
def scoreCount (c : Config) (block : BlockInfo) (neighbors : List Nat) (hashBits score : Nat) :
    Option Nat :=
  let current := currentScore c block neighbors
  if hashBits = 0 then if score < current then some current else none
  else
    let maxHashCount :=
      if score ≤ current then hashBits
      else sub32 hashBits
        (sub32 score current * hashBits % 2 ^ 32 / sub32 c.vertexSize current)
    if 20 * maxHashCount < 7 * (neighbors.length - block.blockSize) then none
    else
      let hashCount := countHash hashBits maxHashCount (block.outside neighbors)
        (List.replicate hashBits false) 0
      if hashCount ≤ maxHashCount then
        some ((current + sub32 c.vertexSize current * sub32 hashBits hashCount % 2 ^ 32
          / hashBits) % 2 ^ 32)
      else none

/-- `struct DeltaInfo`. -/
structure DeltaInfo where
  deltaBits : Nat
  valBits : Nat
  totalBits : Nat
  deriving DecidableEq, Repr

/-- The loop of `ParseEncode` from id `i` on. -/
def parseEncode : Nat → Nat → Nat → List Nat → List DeltaInfo
  | _, _, _, [] => []
  | i, pre, size, id :: ids =>
    let valBits := getOneEncodeLength (sub32 id pre)
    let info := ⟨if i = 0 then 0 else valBits, getOneEncodeLength id, size + valBits⟩
    info :: parseEncode (i + 1) id (size + valBits) ids

/-- What the versions of `DynamicChoose` add to `pre_bytes` when the block grows to
    `blockSize` ids, and the new `pre_val`, which only `V1` has. -/
def growBytes (ver : Version) (neighbors : List Nat) (infos : List DeltaInfo)
    (start blockSize preVal : Nat) : Nat × Nat :=
  let idx := blockSize + start - 1
  let info := infos.getD idx ⟨0, 0, 0⟩
  let id := neighbors.getD idx 0
  match ver with
  | .v0 => (info.deltaBits, preVal)
  | .v1 =>
    if blockSize % 4 = 1 then (info.valBits, id)
    else (getOneEncodeLength (sub32 id preVal), preVal)
  | .v2 => (if blockSize % 4 = 1 then info.valBits else info.deltaBits, preVal)

/-- The `while` loop of `DynamicChoose`: the block grows until it is too long or
    reaches the last neighbour. One round per neighbour is enough. -/
def growBlock (c : Config) (ver : Version) (neighbors : List Nat) (infos : List DeltaInfo) :
    Nat → BlockInfo → Nat → Nat → Nat × BlockInfo → Nat × BlockInfo
  | 0, _, _, _, best => best
  | rounds + 1, block, preBytes, preVal, best =>
    if preBytes + (block.blockSize + 3) / 4 ≤ maxBytesLen c then
      let block :=
        if block.blockSize + block.start = neighbors.length then
          { block with blockType := .rightMost }
        else block
      let hashBits := (maxBytesLen c - preBytes - (block.blockSize + 3) / 4) * 8
      let best :=
        match scoreCount c block neighbors hashBits best.1 with
        | some score => (score, block)
        | none => best
      if block.blockType = .rightMost then best
      else
        let block := { block with blockSize := block.blockSize + 1 }
        let (bytes, preVal) := growBytes ver neighbors infos block.start block.blockSize preVal
        growBlock c ver neighbors infos rounds block (preBytes + bytes) preVal best
    else best

/-- One round of the loop over the first index of the block. -/
def chooseFrom (c : Config) (ver : Version) (neighbors : List Nat) (infos : List DeltaInfo)
    (best : Nat × BlockInfo) (i : Nat) : Nat × BlockInfo :=
  let preBytes := (infos.getD i ⟨0, 0, 0⟩).valBits
  let preVal := neighbors.getD i 0
  if i = 0 then
    growBlock c ver neighbors infos neighbors.length ⟨i, 1, .leftMost⟩ preBytes preVal best
  else if i ≠ neighbors.length - 1 then
    let (bytes, preVal) := growBytes ver neighbors infos i 2 preVal
    growBlock c ver neighbors infos neighbors.length ⟨i, 2, .middle⟩ (preBytes + bytes) preVal best
  else
    growBlock c ver neighbors infos neighbors.length ⟨i, 1, .rightMost⟩ preBytes preVal best

/-- `DynamicChoose(encode, neighbors, delta_infos)`: the block it ends with. -/
def dynamicChoose (c : Config) (ver : Version) (neighbors : List Nat) (infos : List DeltaInfo) :
    BlockInfo :=
  let score := fullHashScoreCount c neighbors (maxBytesLen c * 8) 0
  ((List.range neighbors.length).foldl (chooseFrom c ver neighbors infos)
    (score, ⟨0, 0, .fullHash⟩)).2

/-- `encode_byte_len`: `V0` takes it from `ParseEncode`. -/
def encodeByteLen (ver : Version) (neighbors : List Nat) (infos : List DeltaInfo) : Nat :=
  match ver with
  | .v0 => (infos.getLastD ⟨0, 0, 0⟩).totalBits + (infos.length + 3) / 4
  | _ => getRequiredBytes ver neighbors

/-- `EncodeVertex` of the versions `V0`, `V1` and `V2`, on the record it rewrites. -/
def encodeBits (c : Config) (ver : Version) (neighbors : List Nat) (encode : BitSetSIMD) :
    BitSetSIMD :=
  if neighbors = [] then encode.setOne 0
  else
    let infos := parseEncode 0 0 0 neighbors
    if encodeByteLen ver neighbors infos ≤ maxBytesLen c then
      setDecodable (codecOf ver) neighbors encode
    else
      constructEncode c (codecOf ver) (dynamicChoose c ver neighbors infos) neighbors encode

/-- `EncodeVertex(vertex_id, neighbors)`. -/
def encodeVertex (c : Config) (ver : Version) (vertexId : Nat) (neighbors : List Nat)
    (encodes : Records) : Records :=
  encodes.update vertexId (encodeBits c ver neighbors)

/-- `IsDecodable(vertex)`. -/
def isDecodable (encodes : Records) (vertex : Nat) : Bool := (encodes.record vertex).getFirstBit

/-- `NEpairTest(vertex1, vertex2)` with `UNDIRECTED = 1`. The memory behind the record of
    a vertex is `tail vertex`. -/
def nePairTest (c : Config) (codec : Codec) (tail : Nat → Nat → Byte) (encodes : Records)
    (vertex1 vertex2 : Nat) : PairType :=
  if isDecodable encodes vertex1 then
    if isDecodable encodes vertex2 then
      PairType.min (findDecodable codec (tail vertex1) (encodes.record vertex1) vertex2)
        (findDecodable codec (tail vertex2) (encodes.record vertex2) vertex1)
    else findDecodable codec (tail vertex1) (encodes.record vertex1) vertex2
  else
    if isDecodable encodes vertex2 then
      findDecodable codec (tail vertex2) (encodes.record vertex2) vertex1
    else
      PairType.min (findNonDecodable c codec (tail vertex1) (encodes.record vertex1) vertex2)
        (findNonDecodable c codec (tail vertex2) (encodes.record vertex2) vertex1)

/-- `GetBytesSize()`. -/
def getBytesSize (c : Config) : Nat := maxBytesLen c

theorem nePairTest_eq_combine (c : Config) (codec : Codec) (tail : Nat → Nat → Byte)
    (encodes : Records) (u v : Nat) :
    nePairTest c codec tail encodes u v =
      combine (isDecodable encodes u) (isDecodable encodes v)
        (testBits c codec (tail u) (encodes.record u) v)
        (testBits c codec (tail v) (encodes.record v) u) := by
  unfold nePairTest testBits isDecodable
  cases (encodes.record u).getFirstBit <;> cases (encodes.record v).getFirstBit <;> rfl

/-! ## Section 2: The header byte -/

/-- A record with room for the header. -/
theorem blockSet_header (encode : BitSetSIMD) {start size val : Nat} (hpos : 0 < size)
    (hle : start + size ≤ 8) :
    encode.blockSet start size val = encode.setByte 0 (encode.byte 0 &&&
      (zeroBlockMask.getD (start % 8) []).getD size 0 ||| BitVec.ofNat 8 (val <<< (8 - start - size))) := by
  have hbegin : (start >>> 3) % 256 = 0 := by
    rw [shiftRight_three]
    omega
  have hend : (start + size - 1) / 8 = 0 := by omega
  have hleft : 7 - (start + size - 1) % 8 = 8 - start - size := by omega
  unfold blockSet
  simp only [hbegin, hend, hleft, ne_eq, not_true_eq_false, if_false]

/-- A mask that is kept and not written reads what was there before. -/
theorem read_kept (b : Byte) {val keep mask : Byte} (hkeep : keep &&& mask = mask)
    (hval : val &&& mask = 0#8) : (b &&& keep ||| val) &&& mask = b &&& mask := by
  rw [BitVec.and_or_distrib_right, BitVec.and_assoc, hkeep, hval, BitVec.or_zero]

/-- A mask that is cleared reads what was written. -/
theorem read_new (b : Byte) {val keep mask : Byte} (hkeep : keep &&& mask = 0#8) :
    (b &&& keep ||| val) &&& mask = val &&& mask := by
  rw [BitVec.and_or_distrib_right, BitVec.and_assoc, hkeep, BitVec.and_zero, BitVec.zero_or]

section Header

variable {encode : BitSetSIMD} (hpos : 0 < encode.data.length)
include hpos

theorem byte_setEncodeSize (val j : Nat) :
    (setEncodeSize encode val).byte j =
      if j = 0 then encode.byte 0 &&& 0xE0 ||| BitVec.ofNat 8 val else encode.byte j := by
  rw [setEncodeSize, blockSet_header encode (by decide) (by decide), byte_setByte _ _ hpos]
  rfl

theorem byte_setBlockModel (type : BlockType) (j : Nat) :
    (setBlockModel encode type).byte j =
      if j = 0 then encode.byte 0 &&& 0x9F ||| BitVec.ofNat 8 (HybridEncode.modelCode type <<< 5)
      else encode.byte j := by
  rw [setBlockModel, HybridEncode.setBlockModel_eq,
    blockSet_header encode (by decide) (by decide), byte_setByte _ _ hpos]
  rfl

/-- A size below 32 reads back and leaves the flag and the block model alone. -/
theorem header_setEncodeSize {val : Nat} (hval : val < 32) :
    (setEncodeSize encode val).getEncodeSize = val ∧
    (setEncodeSize encode val).getFirstBit = encode.getFirstBit ∧
    getBlockModel (setEncodeSize encode val) = getBlockModel encode := by
  have hcode : ∀ n < 32, (BitVec.ofNat 8 n &&& 0x1F).toNat = n ∧ BitVec.ofNat 8 n &&& 0x80 = 0 ∧
      BitVec.ofNat 8 n &&& 0x40 = 0 ∧ BitVec.ofNat 8 n &&& 0x20 = 0 := by decide
  have key : ∀ b : Byte, ∀ n < 32, ((b &&& 0xE0 ||| BitVec.ofNat 8 n) &&& 0x1F).toNat = n ∧
      (b &&& 0xE0 ||| BitVec.ofNat 8 n) &&& 0x80 = b &&& 0x80 ∧
      (b &&& 0xE0 ||| BitVec.ofNat 8 n) &&& 0x40 = b &&& 0x40 ∧
      (b &&& 0xE0 ||| BitVec.ofNat 8 n) &&& 0x20 = b &&& 0x20 := by
    intro b n hn
    obtain ⟨hsize, hfirst, hsecond, hthird⟩ := hcode n hn
    rw [read_new b rfl, read_kept b rfl hfirst, read_kept b rfl hsecond, read_kept b rfl hthird]
    exact ⟨hsize, rfl, rfl, rfl⟩
  obtain ⟨hsize, hfirst, hsecond, hthird⟩ := key (encode.byte 0) val hval
  have hbyte := byte_setEncodeSize hpos val 0
  rw [if_pos rfl] at hbyte
  unfold getEncodeSize getFirstBit getBlockModel getSecondBit getThridBit
  rw [hbyte, hsize, hfirst, hsecond, hthird]
  exact ⟨rfl, rfl, rfl⟩

/-- The block model reads back and leaves the flag and the size alone. -/
theorem header_setBlockModel (type : BlockType) :
    getBlockModel (setBlockModel encode type) = (if type = .fullHash then .middle else type) ∧
    (setBlockModel encode type).getFirstBit = encode.getFirstBit ∧
    (setBlockModel encode type).getEncodeSize = encode.getEncodeSize := by
  have hcode : ∀ m ∈ [0, 1, 3], BitVec.ofNat 8 (m <<< 5) &&& 0x80 = 0 ∧
      BitVec.ofNat 8 (m <<< 5) &&& 0x1F = 0 ∧ (BitVec.ofNat 8 (m <<< 5) &&& 0x40 ≠ 0 ↔ m = 3) ∧
      (BitVec.ofNat 8 (m <<< 5) &&& 0x20 ≠ 0 ↔ m ≠ 0) := by decide
  have key : ∀ b : Byte, ∀ m ∈ [0, 1, 3],
      (b &&& 0x9F ||| BitVec.ofNat 8 (m <<< 5)) &&& 0x80 = b &&& 0x80 ∧
      (b &&& 0x9F ||| BitVec.ofNat 8 (m <<< 5)) &&& 0x1F = b &&& 0x1F ∧
      ((b &&& 0x9F ||| BitVec.ofNat 8 (m <<< 5)) &&& 0x40 ≠ 0 ↔ m = 3) ∧
      ((b &&& 0x9F ||| BitVec.ofNat 8 (m <<< 5)) &&& 0x20 ≠ 0 ↔ m ≠ 0) := by
    intro b m hm
    obtain ⟨hfirst, hsize, hsecond, hthird⟩ := hcode m hm
    rw [read_kept b rfl hfirst, read_kept b rfl hsize, read_new b rfl, read_new b rfl]
    exact ⟨rfl, rfl, hsecond, hthird⟩
  have hmem : HybridEncode.modelCode type ∈ [0, 1, 3] := by cases type <;> decide
  obtain ⟨hfirst, hsize, hsecond, hthird⟩ := key (encode.byte 0) _ hmem
  have hbyte := byte_setBlockModel hpos type 0
  rw [if_pos rfl] at hbyte
  unfold getEncodeSize getFirstBit getBlockModel getSecondBit getThridBit
  rw [hbyte, hfirst, hsize]
  simp only [hsecond, hthird, decide_eq_true_eq, and_true]
  cases type <;> rfl

theorem getFirstBit_setOne : (encode.setOne 0).getFirstBit = true := by
  have key : ∀ b : Byte, (b ||| 1#8 <<< 7) &&& 0x80 ≠ 0 := by decide +kernel
  have hbyte : (encode.setOne 0).byte 0 = encode.byte 0 ||| 1#8 <<< 7 := by
    rw [setOne]
    exact (byte_setByte encode _ hpos 0).trans (if_pos rfl)
  unfold getFirstBit
  rw [hbyte]
  exact decide_eq_true (key _)

theorem getEncodeSize_setOne : (encode.setOne 0).getEncodeSize = encode.getEncodeSize := by
  have key : ∀ b : Byte, (b ||| 1#8 <<< 7) &&& 0x1F = b &&& 0x1F := by decide +kernel
  have hbyte : (encode.setOne 0).byte 0 = encode.byte 0 ||| 1#8 <<< 7 := by
    rw [setOne]
    exact (byte_setByte encode _ hpos 0).trans (if_pos rfl)
  unfold getEncodeSize
  rw [hbyte, key]

end Header

/-- The header is the first byte. -/
theorem header_congr {encode encode' : BitSetSIMD} (h : encode.byte 0 = encode'.byte 0) :
    encode.getFirstBit = encode'.getFirstBit ∧ encode.getEncodeSize = encode'.getEncodeSize ∧
    getBlockModel encode = getBlockModel encode' := by
  unfold getFirstBit getEncodeSize getBlockModel getSecondBit getThridBit
  rw [h]
  exact ⟨rfl, rfl, rfl⟩

theorem byte_foldl_setOne (encode : BitSetSIMD) (ids : List Nat) (pos : Nat → Nat) {j : Nat}
    (hj : ∀ id ∈ ids, pos id / 8 ≠ j) :
    (ids.foldl (fun bs id => bs.setOne (pos id)) encode).byte j = encode.byte j := by
  induction ids generalizing encode with
  | nil => rfl
  | cons id ids ih =>
    rw [List.foldl_cons, ih _ fun x hx => hj x (by simp [hx]),
      byte_setOne_of_ne _ (hj id (by simp))]

/-! ## Section 3: Codecs that read back what they wrote -/

/-- The bytes stand at the front of the memory. -/
def Stored (mem : Nat → Byte) (bytes : List Byte) : Prop :=
  ∀ p < bytes.length, mem p = bytes.getD p 0

/-- What the encoders rely on when they write `ids`. -/
structure Codec.Sound (codec : Codec) (ids : List Nat) : Prop where
  getEncodeLength : ∀ mem, Stored mem (codec.encodeArray ids) →
    DeltaSIMDCodec.getEncodeLength mem ids.length = (codec.encodeArray ids).length
  find : ∀ mem, Stored mem (codec.encodeArray ids) → ∀ element < 2 ^ 31,
    IsFind ids element (codec.findWithCount mem ids.length element)

/-- The numbers of the list stand in a memory that begins with its bytes. -/
theorem stream_of_stored {ver : Version} {mem : Nat → Byte} {ids : List Nat}
    (hmem : Stored mem (encodeArray ver ids)) : Stream mem (genValues ver 0 0 ids) := by
  apply stream_of_bytes
  intro p hp
  rw [← encodeArray_eq] at hp ⊢
  rw [hmem p hp, List.getElem?_eq_getElem hp]
  exact congrArg some (List.getD_eq_getElem _ _ hp).symm

theorem sound_of_nonDecreasing (ver : Version) {ids : List Nat} (h : NonDecreasing ids)
    (hlen : ids.length ≤ 2 ^ 31) (hne : ids ≠ []) : (codecOf ver).Sound ids := by
  constructor
  · intro mem hmem
    rw [getEncodeLength_eq (stream_of_stored hmem) hne]
    exact (length_encodeArray ver ids).symm
  · intro mem hmem element he
    exact findWithCount_spec (stream_of_stored hmem) h he hne (by omega)

theorem sound_codecOf (ver : Version) {ids : List Nat} (h : Ascending ids) (hne : ids ≠ []) :
    (codecOf ver).Sound ids :=
  sound_of_nonDecreasing ver h.nonDecreasing h.length_le hne

/-! ## Section 4: What the records hold -/

theorem perEncodeBitSize_eq (c : Config) : c.perEncodeBitSize = 8 * (maxBytesLen c + 1) := by
  have := c.kSize_ne
  unfold maxBytesLen Config.perEncodeBitSize
  omega

theorem length_of_isRecord {c : Config} {encode : BitSetSIMD} (h : IsRecord c encode) :
    encode.data.length = maxBytesLen c + 1 := by
  have hper := perEncodeBitSize_eq c
  unfold IsRecord bitLength at h
  omega

theorem memory_eq {encode : BitSetSIMD} {bytes : List Byte} (tail : Nat → Byte)
    (hle : bytes.length < encode.data.length)
    (hbytes : ∀ p < bytes.length, encode.byte (p + 1) = bytes.getD p 0) :
    Stored (memory encode tail) bytes := by
  intro p hp
  rw [memory, if_pos (by omega), hbytes p hp]

/-- The record of a list that fits. -/
structure DecodableRecord (codec : Codec) (ids : List Nat) (encode : BitSetSIMD) : Prop where
  flag : encode.getFirstBit = true
  size : encode.getEncodeSize = ids.length
  stored : ∀ tail, Stored (memory encode tail) (codec.encodeArray ids)

theorem decodableRecord_setDecodable {c : Config} {codec : Codec} {ids : List Nat}
    {encode : BitSetSIMD} (hrec : IsRecord c encode) (hsize : ids.length < 32)
    (hfit : (codec.encodeArray ids).length ≤ maxBytesLen c) :
    DecodableRecord codec ids (setDecodable codec ids encode) := by
  have hlen := length_of_isRecord hrec
  have hpos : 0 < (encode.setOne 0).data.length := by rw [length_setOne]; omega
  have hlen' : (setEncodeSize (encode.setOne 0) ids.length).data.length = encode.data.length := by
    rw [setEncodeSize, length_blockSet, length_setOne]
  have hbyte := byte_setBytes (setEncodeSize (encode.setOne 0) ids.length) 1
    (codec.encodeArray ids) (by omega)
  have hfirst := hbyte 0
  rw [if_neg (by omega)] at hfirst
  obtain ⟨hflag, hsize', -⟩ := header_congr hfirst
  obtain ⟨hset, hkeep, -⟩ := header_setEncodeSize hpos hsize
  refine ⟨?_, ?_, ?_⟩
  · rw [setDecodable, hflag, hkeep, getFirstBit_setOne (by omega)]
  · rw [setDecodable, hsize', hset]
  · intro tail
    apply memory_eq
    · rw [setDecodable, length_setBytes]
      omega
    · intro p hp
      rw [setDecodable, hbyte (p + 1), if_pos (by omega), Nat.add_sub_cancel]

/-- The record of a block and the hashed ids around it. -/
structure BlockRecord (c : Config) (codec : Codec) (block left : List Nat) (type : BlockType)
    (encode : BitSetSIMD) : Prop where
  flag : encode.getFirstBit = false
  model : getBlockModel encode = if type = .fullHash then .middle else type
  size : encode.getEncodeSize = block.length
  stored : ∀ tail, Stored (memory encode tail) (codec.encodeArray block)
  hashed : ∀ id ∈ left, ((codec.encodeArray block).length + 1) * 8 ≠ c.perEncodeBitSize →
    encode.isOne (hash c id (((codec.encodeArray block).length + 1) * 8)) = true

/-- What the block of `ConstructEncode` has to be. -/
structure ValidBlock (c : Config) (codec : Codec) (ids : List Nat) (block : BlockInfo) : Prop where
  bound : block.start + block.blockSize ≤ ids.length
  size_lt : block.blockSize < 32
  fits : (codec.encodeArray (block.inside ids)).length ≤ maxBytesLen c
  fullHash : block.blockType = .fullHash ↔ block.blockSize = 0
  leftMost : block.blockType = .leftMost → block.start = 0
  rightMost : block.blockType = .rightMost → block.start + block.blockSize = ids.length

/-- The block `DynamicChoose` begins with. -/
theorem valid_fullHash {c : Config} {codec : Codec} (hnil : codec.encodeArray [] = [])
    {ids : List Nat} : ValidBlock c codec ids ⟨0, 0, .fullHash⟩ := by
  refine ⟨Nat.zero_le _, by decide, ?_, by decide, nofun, nofun⟩
  rw [BlockInfo.inside, List.take_zero, hnil]
  exact Nat.zero_le _

theorem length_inside {ids : List Nat} {block : BlockInfo}
    (h : block.start + block.blockSize ≤ ids.length) :
    (block.inside ids).length = block.blockSize := by
  rw [BlockInfo.inside, List.length_take, List.length_drop]
  omega

/-- The header and the codec bytes of `ConstructEncode`, before the hash loop. -/
structure Prepared (codec : Codec) (block : List Nat) (type : BlockType) (old pre : BitSetSIMD) :
    Prop where
  length_eq : pre.data.length = old.data.length
  flag : pre.getFirstBit = old.getFirstBit
  model : getBlockModel pre = if type = .fullHash then .middle else type
  size : pre.getEncodeSize = block.length
  bytes : ∀ p < (codec.encodeArray block).length,
    pre.byte (p + 1) = (codec.encodeArray block).getD p 0

/-- The same on any record: without a block the size field stays as it was. The bytes
    behind the codec bytes are not written. -/
structure Written (codec : Codec) (block : List Nat) (type : BlockType) (old pre : BitSetSIMD) :
    Prop where
  length_eq : pre.data.length = old.data.length
  flag : pre.getFirstBit = old.getFirstBit
  model : getBlockModel pre = if type = .fullHash then .middle else type
  size : pre.getEncodeSize = if type = .fullHash then old.getEncodeSize else block.length
  bytes : ∀ p < (codec.encodeArray block).length,
    pre.byte (p + 1) = (codec.encodeArray block).getD p 0
  rest : ∀ j, (codec.encodeArray block).length < j → pre.byte j = old.byte j

section Construct

variable {c : Config} {codec : Codec} {ids : List Nat} {block : BlockInfo} {encode : BitSetSIMD}
variable (hnil : codec.encodeArray [] = []) (hrec : IsRecord c encode)
variable (hvalid : ValidBlock c codec ids block)
include hnil hrec hvalid

theorem exists_written :
    ∃ pre, Written codec (block.inside ids) block.blockType encode pre ∧
      constructEncode c codec block ids encode =
        if ((codec.encodeArray (block.inside ids)).length + 1) * 8 = c.perEncodeBitSize then pre
        else (block.outside ids).foldl (fun bs id => bs.setOne
          (hash c id (((codec.encodeArray (block.inside ids)).length + 1) * 8))) pre := by
  have hlen := length_of_isRecord hrec
  have hpos : 0 < encode.data.length := by omega
  have hinside := length_inside hvalid.bound
  have hmodelLen : (setBlockModel encode block.blockType).data.length = encode.data.length := by
    rw [setBlockModel, HybridEncode.setBlockModel_eq, length_blockSet]
  have hmodelByte := byte_setBlockModel hpos block.blockType
  obtain ⟨hmodel, hfirst, hsize⟩ := header_setBlockModel hpos block.blockType
  by_cases hfull : block.blockType = .fullHash
  · -- Nothing is written, and the size field stays as it was.
    have hnone : block.inside ids = [] := by
      rw [← List.length_eq_zero_iff, hinside]
      exact hvalid.fullHash.mp hfull
    refine ⟨setBlockModel encode block.blockType, ⟨hmodelLen, hfirst, hmodel, ?_, ?_, ?_⟩, ?_⟩
    · rw [if_pos hfull, hsize]
    · rw [hnone, hnil]
      intro p hp
      exact absurd hp (Nat.not_lt_zero p)
    · intro j hj
      rw [hmodelByte, if_neg (by omega)]
    · simp only [constructEncode, hfull, ne_eq, not_true_eq_false, if_false, hnone, hnil]
  · have hpos' : 0 < (setBlockModel encode block.blockType).data.length := by omega
    have hfits := hvalid.fits
    have hsizeLen : (setEncodeSize (setBlockModel encode block.blockType)
        block.blockSize).data.length = encode.data.length := by
      rw [setEncodeSize, length_blockSet, hmodelLen]
    have hbyte := byte_setBytes (setEncodeSize (setBlockModel encode block.blockType)
      block.blockSize) 1 (codec.encodeArray (block.inside ids)) (by omega)
    have hzero := hbyte 0
    rw [if_neg (by omega)] at hzero
    obtain ⟨hflag', hsize', hmodel'⟩ := header_congr hzero
    obtain ⟨hset, hkeep, hkeepModel⟩ := header_setEncodeSize hpos' hvalid.size_lt
    -- the model, the size and the codec bytes, each behind the other
    refine ⟨(setEncodeSize (setBlockModel encode block.blockType) block.blockSize).setBytes 1
      (codec.encodeArray (block.inside ids)), ⟨?_, ?_, ?_, ?_, ?_, ?_⟩, ?_⟩
    · rw [length_setBytes, hsizeLen]
    · rw [hflag', hkeep, hfirst]
    · rw [hmodel', hkeepModel, hmodel]
    · rw [if_neg hfull, hsize', hset, hinside]
    · intro p hp
      rw [hbyte (p + 1), if_pos (by omega), Nat.add_sub_cancel]
    · intro j hj
      rw [hbyte, if_neg (by omega), byte_setEncodeSize hpos', if_neg (by omega), hmodelByte,
        if_neg (by omega)]
    · simp only [constructEncode, hfull, ne_eq, not_false_eq_true, if_true]

variable (hempty : block.blockType = .fullHash → encode.getEncodeSize = 0)
include hempty

theorem exists_prepared :
    ∃ pre, Prepared codec (block.inside ids) block.blockType encode pre ∧
      constructEncode c codec block ids encode =
        if ((codec.encodeArray (block.inside ids)).length + 1) * 8 = c.perEncodeBitSize then pre
        else (block.outside ids).foldl (fun bs id => bs.setOne
          (hash c id (((codec.encodeArray (block.inside ids)).length + 1) * 8))) pre := by
  obtain ⟨pre, hpre, heq⟩ := exists_written hnil hrec hvalid
  refine ⟨pre, ⟨hpre.length_eq, hpre.flag, hpre.model, ?_, hpre.bytes⟩, heq⟩
  rw [hpre.size]
  split
  · rename_i hfull
    rw [hempty hfull, length_inside hvalid.bound, hvalid.fullHash.mp hfull]
  · rfl

theorem blockRecord_constructEncode (hper : c.perEncodeBitSize < 2 ^ 32)
    (hflag : encode.getFirstBit = false) :
    BlockRecord c codec (block.inside ids) (block.outside ids) block.blockType
      (constructEncode c codec block ids encode) := by
  obtain ⟨pre, hpre, heq⟩ := exists_prepared hnil hrec hvalid hempty
  have hbits := perEncodeBitSize_eq c
  have hlen := length_of_isRecord hrec
  have hfits := hvalid.fits
  rw [heq]
  have hprelen := hpre.length_eq
  by_cases hno : ((codec.encodeArray (block.inside ids)).length + 1) * 8 = c.perEncodeBitSize
  · rw [if_pos hno]
    exact ⟨by rw [hpre.flag, hflag], hpre.model, hpre.size,
      fun tail => memory_eq tail (by omega) hpre.bytes, fun _ _ h => absurd hno h⟩
  · rw [if_neg hno]
    have hmem : ∀ id, _ := HybridEncode.hash_mem (c := c)
      (b := ((codec.encodeArray (block.inside ids)).length + 1) * 8) hper (by omega)
    obtain ⟨hlen', -, hset, -⟩ := bit_foldl_setOne pre (block.outside ids)
      (fun id => hash c id (((codec.encodeArray (block.inside ids)).length + 1) * 8)) (by
        intro id _
        have := (hmem id).2
        show HybridEncode.hash c id _ < _
        unfold bitLength
        omega)
    -- The hash bits lie behind the codec bytes.
    have hkeep : ∀ j ≤ (codec.encodeArray (block.inside ids)).length,
        ((block.outside ids).foldl (fun bs id => bs.setOne
          (hash c id (((codec.encodeArray (block.inside ids)).length + 1) * 8))) pre).byte j =
        pre.byte j := by
      intro j hj
      apply byte_foldl_setOne
      intro id _
      have := (hmem id).1
      show HybridEncode.hash c id _ / 8 ≠ j
      omega
    obtain ⟨hflag', hsize', hmodel'⟩ := header_congr (hkeep 0 (Nat.zero_le _))
    refine ⟨by rw [hflag', hpre.flag, hflag], by rw [hmodel', hpre.model],
      by rw [hsize', hpre.size], ?_, ?_⟩
    · intro tail
      apply memory_eq
      · rw [hlen']
        omega
      · intro p hp
        rw [hkeep (p + 1) hp, hpre.bytes p hp]
    · intro id hid _
      rw [isOne_eq_bit]
      exact hset id hid

end Construct

/-! ## Section 5: What the records say -/

theorem speaks_findDecodable {codec : Codec} {ids : List Nat} {encode : BitSetSIMD}
    (hrec : DecodableRecord codec ids encode) (hsound : ids ≠ [] → codec.Sound ids)
    (tail : Nat → Byte) {w : Nat} (hw : w < 2 ^ 31) :
    Speaks true (w ∈ ids) (findDecodable codec tail encode w) := by
  unfold findDecodable
  rw [hrec.size]
  by_cases hnil : ids = []
  · subst hnil
    exact ⟨nofun, fun hmem => absurd hmem List.not_mem_nil, fun _ => nofun⟩
  · have hfind := (hsound hnil).find _ (hrec.stored tail) w hw
    have hzero : ids.length ≠ 0 := fun h => hnil (List.length_eq_zero_iff.mp h)
    simp only [if_neg hzero, FindRes.val_eq_zero, ← hfind.mem_iff]
    by_cases hmem : w ∈ ids
    · rw [if_pos hmem]
      exact ⟨fun _ => hmem, fun _ => nofun, fun _ => nofun⟩
    · rw [if_neg hmem]
      exact ⟨nofun, fun h => absurd h hmem, fun _ => nofun⟩

theorem mem_iff_inside_or_outside (ids : List Nat) (block : BlockInfo) (w : Nat) :
    w ∈ ids ↔ w ∈ block.inside ids ∨ w ∈ block.outside ids := by
  have hsplit : ids = ids.take block.start ++
      (block.inside ids ++ ids.drop (block.start + block.blockSize)) := by
    rw [BlockInfo.inside, ← List.drop_drop, List.take_append_drop, List.take_append_drop]
  rw [BlockInfo.outside]
  constructor
  · intro hw
    rw [hsplit, List.mem_append, List.mem_append] at hw
    rw [List.mem_append]
    tauto
  · intro hw
    rw [hsplit, List.mem_append, List.mem_append]
    rw [List.mem_append] at hw
    tauto

/-- An id outside the block is in front of all of it, and the block does not begin the list,
    or behind all of it, and the block does not end the list. -/
theorem outside_cases {r : Nat → Nat → Prop} {ids : List Nat} (h : ids.Pairwise r)
    {block : BlockInfo} {w : Nat} (hw : w ∈ block.outside ids) :
    (0 < block.start ∧ ∀ id ∈ block.inside ids, r w id) ∨
    (block.start + block.blockSize < ids.length ∧ ∀ id ∈ block.inside ids, r id w) := by
  rcases List.mem_append.mp hw with hw | hw
  · left
    rw [← List.take_append_drop block.start ids, List.pairwise_append] at h
    refine ⟨?_, fun id hid => h.2.2 w hw id (List.mem_of_mem_take hid)⟩
    rcases Nat.eq_zero_or_pos block.start with hzero | hpos
    · rw [hzero, List.take_zero] at hw
      exact absurd hw List.not_mem_nil
    · exact hpos
  · right
    constructor
    · by_contra hle
      rw [List.drop_eq_nil_of_le (by omega)] at hw
      exact absurd hw List.not_mem_nil
    · intro id hid
      have hdrop : (ids.drop block.start).Pairwise r := h.sublist (List.drop_sublist _ _)
      rw [← List.take_append_drop block.blockSize (ids.drop block.start),
        List.pairwise_append, List.drop_drop] at hdrop
      exact hdrop.2.2 id hid w hw

/-- Every hashed id lies below the block or above it, on a side where the block model
    leaves the answer to the hash bits. -/
def BlockInfo.Splits (block : BlockInfo) (ids : List Nat) : Prop :=
  ∀ id ∈ block.outside ids,
    (block.blockType ≠ .leftMost ∧ ∀ x ∈ block.inside ids, id < x) ∨
    (block.blockType ≠ .rightMost ∧ ∀ x ∈ block.inside ids, x < id)

instance (block : BlockInfo) (ids : List Nat) : Decidable (block.Splits ids) :=
  inferInstanceAs (Decidable (∀ id ∈ block.outside ids, _ ∨ _))

/-- One id lies below the block or above it, on such a side. -/
def BlockInfo.Beside (block : BlockInfo) (ids : List Nat) (id : Nat) : Prop :=
  (block.blockType ≠ .leftMost ∧ ∀ x ∈ block.inside ids, id < x) ∨
  (block.blockType ≠ .rightMost ∧ ∀ x ∈ block.inside ids, x < id)

/-- A block that begins or ends a sorted list has no such id beyond it. -/
theorem splits_of_sorted {c : Config} {codec : Codec} {ids : List Nat} (h : ids.Pairwise (· < ·))
    {block : BlockInfo} (hvalid : ValidBlock c codec ids block) : block.Splits ids := by
  intro id hid
  rcases outside_cases h hid with ⟨hstart, hbelow⟩ | ⟨hend, habove⟩
  · left
    refine ⟨fun htype => ?_, hbelow⟩
    have := hvalid.leftMost htype
    omega
  · right
    refine ⟨fun htype => ?_, habove⟩
    have := hvalid.rightMost htype
    omega

/-- In a list with repeated ids an id may be on both sides of the end of a block. -/
theorem beside_of_sorted {c : Config} {codec : Codec} {ids : List Nat} (h : ids.Pairwise (· ≤ ·))
    {block : BlockInfo} (hvalid : ValidBlock c codec ids block) {w : Nat}
    (hw : w ∈ block.outside ids) (hnot : w ∉ block.inside ids) : block.Beside ids w := by
  rcases outside_cases h hw with ⟨hstart, hbelow⟩ | ⟨hend, habove⟩
  · left
    refine ⟨fun htype => ?_, fun x hx => Nat.lt_of_le_of_ne (hbelow x hx) ?_⟩
    · have := hvalid.leftMost htype
      omega
    · rintro rfl
      exact hnot hx
  · right
    refine ⟨fun htype => ?_, fun x hx => Nat.lt_of_le_of_ne (habove x hx) ?_⟩
    · have := hvalid.rightMost htype
      omega
    · rintro rfl
      exact hnot hx

/-- The search never denies an id that was hashed. -/
theorem find_of_beside {c : Config} {codec : Codec} {ids : List Nat} {block : BlockInfo}
    (hvalid : ValidBlock c codec ids block) (hne : block.blockType ≠ .fullHash) {w : Nat}
    (hbeside : block.Beside ids w) {res : FindRes} (hfind : IsFind (block.inside ids) w res) :
    res ≠ .exist ∧ res.val &&& block.blockType.val = 0 := by
  have hsize : block.blockSize ≠ 0 := fun h => hne (hvalid.fullHash.mpr h)
  obtain ⟨x, hx⟩ : ∃ x, x ∈ block.inside ids := by
    apply List.exists_mem_of_length_pos
    rw [length_inside hvalid.bound]
    omega
  rcases hbeside with ⟨hleft, hbelow⟩ | ⟨hright, habove⟩
  · cases res with
    | exist => exact absurd (hbelow w hfind) (Nat.lt_irrefl w)
    | greaterThanMax => exact absurd (hfind x hx) (Nat.lt_asymm (hbelow x hx))
    | notExist =>
      obtain ⟨-, ⟨y, hy, hlt⟩, -⟩ := hfind
      exact absurd hlt (Nat.lt_asymm (hbelow y hy))
    | lessThanMin =>
      refine ⟨nofun, ?_⟩
      cases hb : block.blockType with
      | fullHash => rfl
      | leftMost => exact absurd hb hleft
      | rightMost => rfl
      | middle => rfl
  · cases res with
    | exist => exact absurd (habove w hfind) (Nat.lt_irrefl w)
    | lessThanMin => exact absurd (hfind x hx) (Nat.lt_asymm (habove x hx))
    | notExist =>
      obtain ⟨-, -, y, hy, hlt⟩ := hfind
      exact absurd hlt (Nat.lt_asymm (habove y hy))
    | greaterThanMax =>
      refine ⟨nofun, ?_⟩
      cases hb : block.blockType with
      | fullHash => rfl
      | leftMost => rfl
      | rightMost => exact absurd hb hright
      | middle => rfl

theorem speaks_of_beside {c : Config} {codec : Codec} (hnil : codec.encodeArray [] = [])
    {ids : List Nat} {block : BlockInfo} {encode : BitSetSIMD}
    (hvalid : ValidBlock c codec ids block)
    (hbeside : ∀ w ∈ block.outside ids, w ∉ block.inside ids → block.Beside ids w)
    (hrec : BlockRecord c codec (block.inside ids) (block.outside ids) block.blockType encode)
    (hsound : block.inside ids ≠ [] → codec.Sound (block.inside ids)) (tail : Nat → Byte)
    {w : Nat} (hw : w < 2 ^ 31) :
    Speaks false (w ∈ ids) (findNonDecodable c codec tail encode w) := by
  have hmem := mem_iff_inside_or_outside ids block w
  unfold findNonDecodable
  rw [hrec.size]
  by_cases hempty : block.inside ids = []
  · -- Every id is hashed behind the header.
    have hhash : w ∈ ids → encode.isOne (hash c w 8) = true := by
      intro hin
      have hout : w ∈ block.outside ids := (hmem.mp hin).resolve_left (by rw [hempty]; simp)
      have hper : (0 + 1) * 8 ≠ c.perEncodeBitSize := by
        have := c.perEncodeBitSize_ge
        omega
      have hone := hrec.hashed w hout
      rw [hempty, hnil] at hone
      exact hone hper
    simp only [hempty, List.length_nil, if_true]
    by_cases hone : encode.isOne (hash c w 8) = true
    · rw [if_pos hone]
      exact ⟨nofun, fun _ => nofun, nofun⟩
    · rw [if_neg hone]
      exact ⟨nofun, fun hin => absurd (hhash hin) hone, nofun⟩
  · have hstored := hrec.stored tail
    have hfind := (hsound hempty).find _ hstored w hw
    have hzero : (block.inside ids).length ≠ 0 := fun h => hempty (List.length_eq_zero_iff.mp h)
    have htype : block.blockType ≠ .fullHash := by
      intro hfull
      rw [length_inside hvalid.bound] at hzero
      exact hzero (hvalid.fullHash.mp hfull)
    simp only [if_neg hzero, FindRes.val_eq_zero, (hsound hempty).getEncodeLength _ hstored,
      hrec.model, if_neg htype, Nat.add_comm 1 (codec.encodeArray _).length]
    by_cases hin : w ∈ block.inside ids
    · rw [if_pos (hfind.mem_iff.mp hin)]
      exact ⟨fun _ => hmem.mpr (Or.inl hin), fun _ => nofun, nofun⟩
    · rw [if_neg fun heq => hin (hfind.mem_iff.mpr heq)]
      by_cases hout : w ∈ block.outside ids
      · -- no id outside gives the mask that would end the search
        have hmask := (find_of_beside hvalid htype (hbeside w hout hin) hfind).2
        rw [if_neg fun hne => hne hmask]
        by_cases hfull : ((codec.encodeArray (block.inside ids)).length + 1) * 8 =
            c.perEncodeBitSize
        · rw [if_pos (Or.inl hfull)]
          exact ⟨nofun, fun _ => nofun, nofun⟩
        · rw [if_pos (Or.inr (hrec.hashed w hout hfull))]
          exact ⟨nofun, fun _ => nofun, nofun⟩
      · have hnot : w ∉ ids := fun hw => (hmem.mp hw).elim hin hout
        split_ifs <;> exact ⟨nofun, fun hw => absurd hw hnot, nofun⟩

theorem speaks_of_splits {c : Config} {codec : Codec} (hnil : codec.encodeArray [] = [])
    {ids : List Nat} {block : BlockInfo} {encode : BitSetSIMD}
    (hvalid : ValidBlock c codec ids block) (hsplits : block.Splits ids)
    (hrec : BlockRecord c codec (block.inside ids) (block.outside ids) block.blockType encode)
    (hsound : block.inside ids ≠ [] → codec.Sound (block.inside ids)) (tail : Nat → Byte)
    {w : Nat} (hw : w < 2 ^ 31) :
    Speaks false (w ∈ ids) (findNonDecodable c codec tail encode w) :=
  speaks_of_beside hnil hvalid (fun id hid _ => hsplits id hid) hrec hsound tail hw

/-- The record of a block of a sorted list. -/
theorem speaks_findNonDecodable {c : Config} {codec : Codec} (hnil : codec.encodeArray [] = [])
    {ids : List Nat} (h : ids.Pairwise (· ≤ ·)) {block : BlockInfo} {encode : BitSetSIMD}
    (hvalid : ValidBlock c codec ids block)
    (hrec : BlockRecord c codec (block.inside ids) (block.outside ids) block.blockType encode)
    (hsound : block.inside ids ≠ [] → codec.Sound (block.inside ids)) (tail : Nat → Byte)
    {w : Nat} (hw : w < 2 ^ 31) :
    Speaks false (w ∈ ids) (findNonDecodable c codec tail encode w) :=
  speaks_of_beside hnil hvalid (fun _ => beside_of_sorted h hvalid) hrec hsound tail hw

/-! ## Section 6: `DynamicChoose` ends with a block that fits -/

/-- The fields of `ParseEncode`, for a list that continues behind `pre`. -/
theorem getD_parseEncode (i pre size : Nat) (ids : List Nat) {k : Nat} (hk : k < ids.length) :
    (parseEncode i pre size ids).getD k ⟨0, 0, 0⟩ =
      ⟨if i + k = 0 then 0 else byteLen ((genValues .v0 pre i ids).getD k 0),
        byteLen (ids.getD k 0), size + offset (genValues .v0 pre i ids) (k + 1)⟩ := by
  induction ids generalizing i pre size k with
  | nil => exact absurd hk (Nat.not_lt_zero k)
  | cons id ids ih =>
    have hoff : offset (genValues .v0 pre i (id :: ids)) (k + 1) =
        byteLen (sub32 id pre) + offset (genValues .v0 id (i + 1) ids) k := by
      simp [genValues, genValue, offset]
    rw [hoff]
    cases k with
    | zero =>
      simp only [offset_zero, Nat.add_zero]
      rfl
    | succ k =>
      rw [parseEncode, List.getD_cons_succ, ih _ _ _ (by simpa using hk)]
      simp only [List.getD_cons_succ, genValues, genValue, ← Nat.add_assoc, Nat.add_right_comm i 1 k]
      rfl

theorem length_parseEncode (i pre size : Nat) (ids : List Nat) :
    (parseEncode i pre size ids).length = ids.length := by
  induction ids generalizing i pre size with
  | nil => rfl
  | cons id ids ih => rw [parseEncode, List.length_cons, List.length_cons, ih]

/-- `V0` computes its length in another way. -/
theorem encodeByteLen_eq (ver : Version) {ids : List Nat} (hne : ids ≠ []) :
    encodeByteLen ver ids (parseEncode 0 0 0 ids) = getRequiredBytes ver ids := by
  cases ver with
  | v1 => rfl
  | v2 => rfl
  | v0 =>
    have hpos : 0 < ids.length := List.length_pos_iff.mpr hne
    have hlast : (parseEncode 0 0 0 ids).getLastD ⟨0, 0, 0⟩ =
        (parseEncode 0 0 0 ids).getD (ids.length - 1) ⟨0, 0, 0⟩ := by
      rw [List.getLastD_eq_getLast?, List.getLast?_eq_getElem?, length_parseEncode,
        List.getD_eq_getElem?_getD]
    rw [encodeByteLen, hlast, getD_parseEncode _ _ _ _ (by omega), length_parseEncode,
      getRequiredBytes_eq, groups, Nat.sub_add_cancel hpos, Nat.add_comm]
    simp only [Nat.zero_add]

section Choose

variable {c : Config} (hc : c.Narrow) {ver : Version} {ids : List Nat} (h : NonDecreasing ids)

/-- A block on its way through the `while` loop. -/
structure Growing (ver : Version) (ids : List Nat) (block : BlockInfo) (preBytes preVal : Nat) :
    Prop where
  size_pos : 1 ≤ block.blockSize
  bound : block.start + block.blockSize ≤ ids.length
  ne_fullHash : block.blockType ≠ .fullHash
  leftMost : block.blockType = .leftMost → block.start = 0
  rightMost : block.blockType = .rightMost → block.start + block.blockSize = ids.length
  preBytes_eq : preBytes = offset (genValues ver 0 0 (ids.drop block.start)) block.blockSize
  preVal_eq : ver = .v1 → preVal = ids.getD (block.start + 4 * ((block.blockSize - 1) / 4)) 0

include hc in
/-- A growing block that fits can be written. -/
theorem Growing.valid {block : BlockInfo} {preBytes preVal : Nat}
    (hg : Growing ver ids block preBytes preVal)
    (hfit : preBytes + (block.blockSize + 3) / 4 ≤ maxBytesLen c) :
    ValidBlock c (codecOf ver) ids block := by
  have hbound := hg.bound
  have hpos := hg.size_pos
  have hbytes : getRequiredBytes ver (block.inside ids) =
      groups block.blockSize + preBytes := by
    rw [hg.preBytes_eq]
    exact getRequiredBytes_take ver (by rw [List.length_drop]; omega)
  have hle := length_le_getRequiredBytes ver (block.inside ids)
  rw [length_inside hbound] at hle
  have hmax : maxBytesLen c ≤ 39 := by
    have hper := hc.perEncodeBitSize_le
    unfold maxBytesLen
    omega
  unfold groups at hbytes hle
  refine ⟨hbound, by omega, ?_, ?_, hg.leftMost, hg.rightMost⟩
  · exact (length_encodeArray ver (block.inside ids)).trans_le (by omega)
  · exact ⟨fun hfull => absurd hfull hg.ne_fullHash, fun hzero => by omega⟩

theorem getD_drop (ids : List Nat) (start k : Nat) :
    (ids.drop start).getD k 0 = ids.getD (start + k) 0 := by
  rw [List.getD_eq_getElem?_getD, List.getD_eq_getElem?_getD, List.getElem?_drop]

/-- What the running count adds is what the codec stores for the next neighbour. -/
theorem growBytes_eq {start size preVal : Nat} (hpos : 1 ≤ size) (hbound : start + size < ids.length)
    (hpre : ver = .v1 → preVal = ids.getD (start + 4 * ((size - 1) / 4)) 0) :
    (growBytes ver ids (parseEncode 0 0 0 ids) start (size + 1) preVal).1 =
      byteLen ((genValues ver 0 0 (ids.drop start)).getD size 0) ∧
    (ver = .v1 → (growBytes ver ids (parseEncode 0 0 0 ids) start (size + 1) preVal).2 =
      ids.getD (start + 4 * (size / 4)) 0) := by
  have hidx : size + 1 + start - 1 = start + size := by omega
  have hlen : size < (ids.drop start).length := by
    rw [List.length_drop]
    omega
  have hinfo := getD_parseEncode 0 0 0 ids hbound
  rw [getD_genValues_eq .v0 ids hbound, if_neg (by omega)] at hinfo
  simp only [genValue, preOf, if_neg (show ¬ start + size = 0 by omega)] at hinfo
  rw [getD_genValues_eq ver _ hlen]
  cases ver with
  | v0 =>
    simp only [growBytes, hidx, hinfo, genValue, preOf, getD_drop]
    refine ⟨?_, fun hver => Version.noConfusion hver⟩
    rw [if_neg (by omega), show start + (size - 1) = start + size - 1 by omega]
  | v1 =>
    simp only [growBytes, hidx, hinfo, genValue, preOf, getD_drop]
    by_cases hmod : (size + 1) % 4 = 1
    · rw [if_pos hmod, if_pos (by omega), show 4 * (size / 4) = size by omega]
      exact ⟨rfl, fun _ => rfl⟩
    · have hsame : 4 * ((size - 1) / 4) = 4 * (size / 4) := by omega
      rw [hpre rfl, hsame, if_neg hmod, if_neg (by omega), if_neg (by omega)]
      exact ⟨rfl, fun _ => rfl⟩
  | v2 =>
    simp only [growBytes, hidx, hinfo, genValue, preOf, getD_drop]
    refine ⟨?_, fun hver => Version.noConfusion hver⟩
    by_cases hmod : (size + 1) % 4 = 1
    · rw [if_pos hmod, if_pos (by omega)]
    · rw [if_neg hmod, if_neg (by omega), if_neg (by omega),
        show start + (size - 1) = start + size - 1 by omega]

/-- The block takes in the next neighbour. -/
theorem Growing.next {block : BlockInfo} {preBytes preVal : Nat}
    (hg : Growing ver ids block preBytes preVal)
    (hbound : block.start + block.blockSize < ids.length) :
    Growing ver ids { block with blockSize := block.blockSize + 1 }
      (preBytes + (growBytes ver ids (parseEncode 0 0 0 ids) block.start (block.blockSize + 1)
        preVal).1)
      (growBytes ver ids (parseEncode 0 0 0 ids) block.start (block.blockSize + 1) preVal).2 := by
  obtain ⟨hbytes, hval⟩ := growBytes_eq hg.size_pos hbound hg.preVal_eq
  have hlen : block.blockSize < (ids.drop block.start).length := by
    rw [List.length_drop]
    omega
  refine ⟨Nat.le_add_left _ _, hbound, hg.ne_fullHash, hg.leftMost, ?_, ?_, hval⟩
  · intro hright
    have := hg.rightMost hright
    omega
  · rw [offset_succ (by rw [length_genValues]; exact hlen), hg.preBytes_eq, hbytes]

include hc in
theorem valid_growBlock (rounds : Nat) {block : BlockInfo} {preBytes preVal : Nat}
    {best : Nat × BlockInfo} (hg : Growing ver ids block preBytes preVal)
    (hbest : ValidBlock c (codecOf ver) ids best.2) :
    ValidBlock c (codecOf ver) ids
      (growBlock c ver ids (parseEncode 0 0 0 ids) rounds block preBytes preVal best).2 := by
  induction rounds generalizing block preBytes preVal best with
  | zero => exact hbest
  | succ rounds ih =>
    rw [growBlock]
    split
    · rename_i hfit
      -- The block as it is scored, and what the score leaves as the best one.
      generalize hblock' : (if block.blockSize + block.start = ids.length then
        { block with blockType := .rightMost } else block : BlockInfo) = block'
      have hg' : Growing ver ids block' preBytes preVal := by
        rw [← hblock']
        split
        · rename_i hend
          exact ⟨hg.size_pos, hg.bound, nofun, nofun,
            fun _ => (Nat.add_comm _ _).trans hend, hg.preBytes_eq, hg.preVal_eq⟩
        · exact hg
      have hsize : block'.blockSize = block.blockSize := by
        rw [← hblock']
        split <;> rfl
      simp only
      generalize hbest' : (match scoreCount c block' ids ((maxBytesLen c - preBytes -
        (block'.blockSize + 3) / 4) * 8) best.1 with
        | some score => (score, block')
        | none => best : Nat × BlockInfo) = best'
      have hvalid' : ValidBlock c (codecOf ver) ids best'.2 := by
        rw [← hbest']
        split
        · exact hg'.valid hc (by rw [hsize]; exact hfit)
        · exact hbest
      split
      · exact hvalid'
      · rename_i hright
        refine ih (hg'.next ?_) hvalid'
        -- a block that does not reach the end of the list can grow
        have hne : block.blockSize + block.start ≠ ids.length := by
          intro hend
          apply hright
          rw [← hblock', if_pos hend]
        have heq : block' = block := by rw [← hblock', if_neg hne]
        have := hg.bound
        rw [heq]
        omega
    · exact hbest

/-- The block of one neighbour that the loop begins with. -/
theorem growing_one (hlt : ∀ id ∈ ids, id < 2 ^ 32) {i : Nat} (hi : i < ids.length)
    {type : BlockType} (hne : type ≠ .fullHash) (hleft : type = .leftMost → i = 0)
    (hright : type = .rightMost → i + 1 = ids.length) :
    Growing ver ids ⟨i, 1, type⟩ ((parseEncode 0 0 0 ids).getD i ⟨0, 0, 0⟩).valBits
      (ids.getD i 0) := by
  have hlen : 0 < (ids.drop i).length := by
    rw [List.length_drop]
    omega
  have hid : ids.getD i 0 < 2 ^ 32 := by
    rw [List.getD_eq_getElem _ _ hi]
    exact hlt _ (List.getElem_mem hi)
  -- the first neighbour of a block is stored as it is
  have hfirst : (genValues ver 0 0 (ids.drop i)).getD 0 0 = ids.getD i 0 := by
    rw [getD_genValues_eq ver _ hlen, getD_drop, Nat.add_zero]
    cases ver with
    | v0 => exact sub32_of_le (Nat.zero_le _) hid
    | v1 => rfl
    | v2 => rfl
  refine ⟨Nat.le_refl _, hi, hne, hleft, hright, ?_, fun _ => by simp⟩
  rw [getD_parseEncode _ _ _ _ hi]
  show byteLen (ids.getD i 0) = offset (genValues ver 0 0 (ids.drop i)) (0 + 1)
  rw [offset_succ (by rw [length_genValues]; exact hlen), offset_zero, Nat.zero_add, hfirst]

include hc h in
theorem valid_chooseFrom {best : Nat × BlockInfo} {i : Nat} (hi : i < ids.length)
    (hbest : ValidBlock c (codecOf ver) ids best.2) :
    ValidBlock c (codecOf ver) ids (chooseFrom c ver ids (parseEncode 0 0 0 ids) best i).2 := by
  have hlt : ∀ id ∈ ids, id < 2 ^ 32 := fun id hid => Nat.lt_trans (h.lt id hid) (by decide)
  simp only [chooseFrom]
  split
  · rename_i hzero
    exact valid_growBlock hc _ (growing_one hlt hi nofun (fun _ => hzero) nofun) hbest
  · split
    · have hone : Growing ver ids ⟨i, 1, .middle⟩ _ _ := growing_one hlt hi nofun nofun nofun
      exact valid_growBlock hc _ (hone.next (by show i + 1 < _; omega)) hbest
    · exact valid_growBlock hc _ (growing_one hlt hi nofun nofun (fun _ => by omega)) hbest

include hc h in
/-- Every candidate fits, and so does the block that wins. -/
theorem valid_dynamicChoose :
    ValidBlock c (codecOf ver) ids (dynamicChoose c ver ids (parseEncode 0 0 0 ids)) := by
  have hfold : ∀ (is : List Nat) (best : Nat × BlockInfo), (∀ i ∈ is, i < ids.length) →
      ValidBlock c (codecOf ver) ids best.2 →
      ValidBlock c (codecOf ver) ids
        (is.foldl (chooseFrom c ver ids (parseEncode 0 0 0 ids)) best).2 := by
    intro is
    induction is with
    | nil => exact fun best _ hbest => hbest
    | cons i is ih =>
      intro best his hbest
      exact ih _ (fun j hj => his j (by simp [hj])) (valid_chooseFrom hc h (his i (by simp)) hbest)
  exact hfold _ _ (fun i hi => List.mem_range.mp hi) (valid_fullHash rfl)

end Choose

/-! ## Section 7: The verdict of an encoded record -/

section Encode

variable {c : Config} (hc : c.Narrow) (ver : Version) {ids : List Nat}

theorem length_encodeBits (c : Config) (ver : Version) (ids : List Nat) (encode : BitSetSIMD) :
    (encodeBits c ver ids encode).data.length = encode.data.length := by
  unfold encodeBits setDecodable constructEncode
  simp only [setBlockModel, HybridEncode.setBlockModel_eq, setEncodeSize]
  split_ifs <;> simp

theorem fresh_header (c : Config) : (ofBitSize c.perEncodeBitSize).getFirstBit = false ∧
    (ofBitSize c.perEncodeBitSize).getEncodeSize = 0 := by
  have hbyte : (ofBitSize c.perEncodeBitSize).byte 0 = 0 := by
    have := c.perEncodeBitSize_ge
    rw [byte, ofBitSize, List.getD_eq_getElem _ _ (by rw [List.length_replicate]; omega)]
    simp
  unfold getFirstBit getEncodeSize
  rw [hbyte]
  decide

include hc

theorem length_lt_of_fits (hfit : getRequiredBytes ver ids ≤ maxBytesLen c) : ids.length < 32 := by
  have hle := length_le_getRequiredBytes ver ids
  have hper := hc.perEncodeBitSize_le
  unfold maxBytesLen at hfit
  unfold groups at hle
  omega

/-- A list that fits is stored as a whole. -/
theorem decodableRecord_encodeBits (hfit : getRequiredBytes ver ids ≤ maxBytesLen c) :
    DecodableRecord (codecOf ver) ids (encodeBits c ver ids (ofBitSize c.perEncodeBitSize)) := by
  have hrec := isRecord_ofBitSize c
  unfold encodeBits
  by_cases hnil : ids = []
  · have hpos : 0 < (ofBitSize c.perEncodeBitSize).data.length := by
      rw [length_of_isRecord hrec]
      omega
    rw [if_pos hnil]
    subst hnil
    refine ⟨getFirstBit_setOne hpos, ?_, fun _ _ hp => absurd hp (Nat.not_lt_zero _)⟩
    rw [getEncodeSize_setOne hpos, (fresh_header c).2]
    rfl
  · simp only [if_neg hnil, encodeByteLen_eq ver hnil, if_pos hfit]
    refine decodableRecord_setDecodable hrec (length_lt_of_fits hc ver hfit) ?_
    exact (length_encodeArray ver ids).trans_le hfit

section NonDecreasing

variable (h : NonDecreasing ids)
include h

/-- A list that does not fit is stored as a block and hash bits. -/
theorem blockRecord_of_nonDecreasing (hnot : ¬ getRequiredBytes ver ids ≤ maxBytesLen c) :
    ∃ block, block = dynamicChoose c ver ids (parseEncode 0 0 0 ids) ∧
      ValidBlock c (codecOf ver) ids block ∧
      BlockRecord c (codecOf ver) (block.inside ids) (block.outside ids) block.blockType
        (encodeBits c ver ids (ofBitSize c.perEncodeBitSize)) := by
  have hper := hc.perEncodeBitSize_le
  have hnil : ids ≠ [] := by
    rintro rfl
    exact hnot (Nat.zero_le _)
  have hvalid : ValidBlock c (codecOf ver) ids _ := valid_dynamicChoose hc h
  refine ⟨_, rfl, hvalid, ?_⟩
  unfold encodeBits
  simp only [if_neg hnil, encodeByteLen_eq ver hnil, if_neg hnot]
  exact blockRecord_constructEncode rfl (isRecord_ofBitSize c) hvalid (fun _ => (fresh_header c).2)
    (by omega) (fresh_header c).1

/-- The flag says whether the list fits. -/
theorem getFirstBit_of_nonDecreasing :
    (encodeBits c ver ids (ofBitSize c.perEncodeBitSize)).getFirstBit =
      decide (getRequiredBytes ver ids ≤ maxBytesLen c) := by
  by_cases hfit : getRequiredBytes ver ids ≤ maxBytesLen c
  · rw [(decodableRecord_encodeBits hc ver hfit).flag, decide_eq_true hfit]
  · obtain ⟨block, -, -, hblock⟩ := blockRecord_of_nonDecreasing hc ver h hfit
    rw [hblock.flag, decide_eq_false hfit]

/-- A record written on cleared bits is exact up to `Uncertain`. -/
theorem speaks_of_nonDecreasing (tail : Nat → Byte) {w : Nat} (hw : w < 2 ^ 31) :
    Speaks (decide (getRequiredBytes ver ids ≤ maxBytesLen c)) (w ∈ ids)
      (testBits c (codecOf ver) tail (encodeBits c ver ids (ofBitSize c.perEncodeBitSize)) w) := by
  unfold testBits
  rw [getFirstBit_of_nonDecreasing hc ver h]
  by_cases hfit : getRequiredBytes ver ids ≤ maxBytesLen c
  · have hlen := length_lt_of_fits hc ver hfit
    simp only [hfit, decide_true, if_true]
    exact speaks_findDecodable (decodableRecord_encodeBits hc ver hfit)
      (sound_of_nonDecreasing ver h (by omega)) tail hw
  · obtain ⟨block, -, hvalid, hblock⟩ := blockRecord_of_nonDecreasing hc ver h hfit
    have hlen := length_inside hvalid.bound
    have hsize := hvalid.size_lt
    have hinside : NonDecreasing (block.inside ids) := (h.drop block.start).take block.blockSize
    simp only [hfit, decide_false, Bool.false_eq_true, if_false]
    exact speaks_findNonDecodable rfl h.sorted hvalid hblock
      (sound_of_nonDecreasing ver hinside (by omega)) tail hw

end NonDecreasing

section Ascending

variable (h : Ascending ids)
include h

theorem blockRecord_encodeBits (hnot : ¬ getRequiredBytes ver ids ≤ maxBytesLen c) :
    ∃ block, block = dynamicChoose c ver ids (parseEncode 0 0 0 ids) ∧
      ValidBlock c (codecOf ver) ids block ∧
      BlockRecord c (codecOf ver) (block.inside ids) (block.outside ids) block.blockType
        (encodeBits c ver ids (ofBitSize c.perEncodeBitSize)) :=
  blockRecord_of_nonDecreasing hc ver h.nonDecreasing hnot

theorem getFirstBit_encodeBits :
    (encodeBits c ver ids (ofBitSize c.perEncodeBitSize)).getFirstBit =
      decide (getRequiredBytes ver ids ≤ maxBytesLen c) :=
  getFirstBit_of_nonDecreasing hc ver h.nonDecreasing

theorem speaks_encodeBits (tail : Nat → Byte) {w : Nat} (hw : w < 2 ^ 31) :
    Speaks (decide (getRequiredBytes ver ids ≤ maxBytesLen c)) (w ∈ ids)
      (testBits c (codecOf ver) tail (encodeBits c ver ids (ofBitSize c.perEncodeBitSize)) w) :=
  speaks_of_nonDecreasing hc ver h.nonDecreasing tail hw

theorem speaks_of_not_fits (hnot : ¬ getRequiredBytes ver ids ≤ maxBytesLen c)
    (tail : Nat → Byte) {w : Nat} (hw : w < 2 ^ 31) :
    Speaks false (w ∈ ids) (findNonDecodable c (codecOf ver) tail
      (encodeBits c ver ids (ofBitSize c.perEncodeBitSize)) w) := by
  have hspeaks := speaks_encodeBits hc ver h tail hw
  unfold testBits at hspeaks
  rw [getFirstBit_encodeBits hc ver h, decide_eq_false hnot] at hspeaks
  exact hspeaks

end Ascending

end Encode

end DeltaSIMDEncode

end Vend
