import Vend.Common.Config
import Vend.Lib.BitField
import Mathlib.Algebra.GroupWithZero.Nat
import Mathlib.Data.List.Induction
import Mathlib.Tactic.IntervalCases

/-! # `BitSetSIMD`

    `util/bitset_simd.h`: a record of bytes read and written in bit fields of
    up to 32 bits. Bit `0` is the most significant bit of byte `0`.

    The model keeps the byte-wise loops and the mask tables of the source,
    and the `uint8_t begin_idx` of `BlockSet`, which is cut to eight bits.
    `bit_blockSet` and `blockGet_eq` restate both operations in terms of
    `BitField`; the encoders only use these.
-/

namespace Vend

open BitField

/-- `uint8_t`. -/
abbrev Byte : Type := BitVec 8

/-- `class BitSetSIMD`: `data_`, whose length is `size_`. -/
structure BitSetSIMD where
  data : List Byte
  deriving DecidableEq, Repr

namespace BitSetSIMD

/-! ## Section 1: Model -/

/-- `IS_ONE_MASK`. -/
def isOneMask : List Byte := [0x80, 0x40, 0x20, 0x10, 0x08, 0x04, 0x02, 0x01]

/-- `ZERO_BLOCK_MASK[8][9]`; the entries the source leaves out are zero. -/
def zeroBlockMask : List (List Byte) :=
  [[0xFF, 0x7F, 0x3F, 0x1F, 0x0F, 0x07, 0x03, 0x01, 0x00],
   [0xFF, 0xBF, 0x9F, 0x8F, 0x87, 0x83, 0x81, 0x80],
   [0xFF, 0xDF, 0xCF, 0xC7, 0xC3, 0xC1, 0xC0],
   [0xFF, 0xEF, 0xE7, 0xE3, 0xE1, 0xE0],
   [0xFF, 0xF7, 0xF3, 0xF1, 0xF0],
   [0xFF, 0xFB, 0xF9, 0xF8],
   [0xFF, 0xFD, 0xFC],
   [0xFF, 0xFE]]

/-- `ONE_BLOCK_MASK[8][9]`; the entries the source leaves out are zero. -/
def oneBlockMask : List (List Byte) :=
  [[0x00, 0x80, 0xC0, 0xE0, 0xF0, 0xF8, 0xFC, 0xFE, 0xFF],
   [0x00, 0x40, 0x60, 0x70, 0x78, 0x7C, 0x7E, 0x7F],
   [0x00, 0x20, 0x30, 0x38, 0x3C, 0x3E, 0x3F],
   [0x00, 0x10, 0x18, 0x1C, 0x1E, 0x1F],
   [0x00, 0x08, 0x0C, 0x0E, 0x0F],
   [0x00, 0x04, 0x06, 0x07],
   [0x00, 0x02, 0x03],
   [0x00, 0x01]]

/-- `LEFT_ONE_MASK`. -/
def leftOneMask : List Byte := [0x00, 0x01, 0x03, 0x07, 0x0F, 0x1F, 0x3F, 0x7F, 0x00]

/-- `BitSetSIMD(size_t size)`: a cleared record of `size / 8` bytes. -/
def ofBitSize (size : Nat) : BitSetSIMD := ⟨List.replicate (size / 8) 0⟩

/-- The number of bits of the record. -/
def bitLength (bs : BitSetSIMD) : Nat := 8 * bs.data.length

/-- `data_[i]`. -/
def byte (bs : BitSetSIMD) (i : Nat) : Byte := bs.data.getD i 0

/-- `data_[i] = b`. -/
def setByte (bs : BitSetSIMD) (i : Nat) (b : Byte) : BitSetSIMD := ⟨bs.data.set i b⟩

def setOne (bs : BitSetSIMD) (pos : Nat) : BitSetSIMD :=
  bs.setByte (pos >>> 3) (bs.byte (pos >>> 3) ||| (1 : Byte) <<< (7 - pos % 8))

def setZero (bs : BitSetSIMD) (pos : Nat) : BitSetSIMD :=
  bs.setByte (pos >>> 3) (bs.byte (pos >>> 3) &&& (0xFF ^^^ (1 : Byte) <<< (7 - pos % 8)))

def isOne (bs : BitSetSIMD) (pos : Nat) : Bool :=
  bs.byte (pos >>> 3) &&& isOneMask.getD (pos % 8) 0 ≠ 0

def clear (bs : BitSetSIMD) : BitSetSIMD := ⟨List.replicate bs.data.length 0⟩

/-- The `while (block_size > 8)` loop of `BlockSet`, whole bytes from the last
    one down. Returns the record and the remaining `block_size` and `value`. -/
def blockSetLoop : Nat → BitSetSIMD → Nat → Nat → Nat → BitSetSIMD × Nat × Nat
  | 0, bs, _, blockSize, value => (bs, blockSize, value)
  | fuel + 1, bs, endIdx, blockSize, value =>
    if blockSize > 8 then
      blockSetLoop fuel (bs.setByte (endIdx - 1) (BitVec.ofNat 8 value)) (endIdx - 1)
        (blockSize - 8) (value >>> 8)
    else (bs, blockSize, value)

/-- `BlockSet(size_t begin, uint32_t block_size, uint32_t value)`. -/
def blockSet (bs : BitSetSIMD) (start blockSize value : Nat) : BitSetSIMD :=
  -- `uint8_t begin_idx`: the byte index is cut to eight bits
  let beginIdx := (start >>> 3) % 256
  let endIdx := (start + blockSize - 1) / 8
  let left := 7 - (start + blockSize - 1) % 8
  if beginIdx ≠ endIdx then
    let bs := bs.setByte endIdx
      (bs.byte endIdx &&& leftOneMask.getD left 0 ||| BitVec.ofNat 8 (value <<< left))
    let rest := (blockSize + 2 ^ 32 - (8 - left)) % 2 ^ 32
    let inner := blockSetLoop rest bs endIdx rest (value >>> (8 - left))
    inner.1.setByte beginIdx
      (inner.1.byte beginIdx &&& (zeroBlockMask.getD (start % 8) []).getD inner.2.1 0
        ||| BitVec.ofNat 8 inner.2.2)
  else
    bs.setByte beginIdx
      (bs.byte beginIdx &&& (zeroBlockMask.getD (start % 8) []).getD blockSize 0
        ||| BitVec.ofNat 8 (value <<< left))

/-- Bytes written through a pointer, from `data_ + i` on. -/
def setBytes : BitSetSIMD → Nat → List Byte → BitSetSIMD
  | bs, _, [] => bs
  | bs, i, b :: bytes => setBytes (bs.setByte i b) (i + 1) bytes

/-- The encoders' loops over `BlockSet`: fields of `blockSize` bits, one behind the
    other. -/
def blockSetList (blockSize : Nat) : BitSetSIMD → Nat → List Nat → BitSetSIMD
  | bs, _, [] => bs
  | bs, start, value :: values =>
    blockSetList blockSize (bs.blockSet start blockSize value) (start + blockSize) values

/-- `BlockSet` where all its bytes are in the record. -/
def blockSetAt (bs : BitSetSIMD) (start blockSize value : Nat) : Option BitSetSIMD :=
  if start + blockSize ≤ bs.bitLength then some (bs.blockSet start blockSize value) else none

/-- Fields of different sizes, one behind the other. -/
def blockSetFields : BitSetSIMD → Nat → List (Nat × Nat) → Option BitSetSIMD
  | bs, _, [] => some bs
  | bs, start, (blockSize, value) :: fields =>
    (bs.blockSetAt start blockSize value).bind fun bs =>
      blockSetFields bs (start + blockSize) fields

/-- The loop over the inner bytes in `BlockGet`, from byte `j - 1` down. -/
def blockGetLoop (bs : BitSetSIMD) (j lastMod : Nat) : Nat → Nat
  | 0 => 0
  | idx + 1 =>
    blockGetLoop bs j lastMod idx + (bs.byte (j - (idx + 1))).toNat <<< (8 * idx + lastMod + 1)

/-- `BlockGet(size_t begin, uint32_t block_size)`. The shift count of the first
    byte, `block_size - 8 + MOD8(begin)`, wraps for short fields; the machine
    takes it modulo 32. -/
def blockGet (bs : BitSetSIMD) (start blockSize : Nat) : Nat :=
  let i := start >>> 3
  let last := start + blockSize - 1
  let j := last >>> 3
  if i = j then
    (bs.byte i &&& (oneBlockMask.getD (start % 8) []).getD blockSize 0).toNat >>> (7 - last % 8)
  else
    ((bs.byte j).toNat >>> (7 - last % 8) + blockGetLoop bs j (last % 8) (j - i - 1)
      + (bs.byte i &&& (oneBlockMask.getD (start % 8) []).getD (8 - start % 8) 0).toNat
          <<< (((blockSize + 2 ^ 32 - 8) % 2 ^ 32 + start % 8) % 32)) % 2 ^ 32

/-- `BlockGet` where all its bytes are in the record. -/
def blockGetAt (bs : BitSetSIMD) (start blockSize : Nat) : Option Nat :=
  if start + blockSize ≤ bs.bitLength then some (bs.blockGet start blockSize) else none

/-- `BlockFind(size_t begin, size_t block_size, uint32_t block_num, uint32_t value)`:
    a scan over `blockNum` slots that stops at the first larger one. -/
def blockFind (bs : BitSetSIMD) (start blockSize : Nat) : Nat → Nat → PairType
  | 0, _ => .nonNeighbor
  | blockNum + 1, value =>
    let val := bs.blockGet start blockSize
    if val = value then .neighbor
    else if value < val then .nonNeighbor
    else blockFind bs (start + blockSize) blockSize blockNum value

/-- The group loop of `BlockFindSIMD`: four slots are compared at once. Returns
    whether a lane matched. -/
def blockFindGroups (bs : BitSetSIMD) (start blockSize : Nat) : Nat → Nat → Bool
  | 0, _ => false
  | groups + 1, value =>
    [bs.blockGet start blockSize, bs.blockGet (start + blockSize) blockSize,
      bs.blockGet (start + blockSize * 2) blockSize,
      bs.blockGet (start + blockSize * 3) blockSize].contains value
    || blockFindGroups bs (start + blockSize * 4) blockSize groups value

/-- The lanes that `BlockFindSIMD` loads for the last, incomplete group. -/
def blockFindRest (bs : BitSetSIMD) (start blockSize : Nat) : Nat → List Nat
  | 1 => [bs.blockGet start blockSize, 0, 0, 0]
  | 2 => [bs.blockGet start blockSize, bs.blockGet (start + blockSize) blockSize, 0, 0]
  | 3 => [bs.blockGet start blockSize, bs.blockGet (start + blockSize) blockSize,
      bs.blockGet (start + blockSize * 2) blockSize, 0]
  | _ => []

/-- `BlockFindSIMD`. -/
def blockFindSIMD (bs : BitSetSIMD) (start blockSize blockNum value : Nat) : PairType :=
  if bs.blockFindGroups start blockSize (blockNum / 4) value then .neighbor
  else if (bs.blockFindRest (start + blockSize * 4 * (blockNum / 4)) blockSize
      (blockNum % 4)).contains value then .neighbor
  else .nonNeighbor

/-- `GetFirstBit`, `GetSecondBit`, `GetThridBit`. -/
def getFirstBit (bs : BitSetSIMD) : Bool := bs.byte 0 &&& 0x80 ≠ 0

def getSecondBit (bs : BitSetSIMD) : Bool := bs.byte 0 &&& 0x40 ≠ 0

def getThridBit (bs : BitSetSIMD) : Bool := bs.byte 0 &&& 0x20 ≠ 0

/-- `GetEncodeSize`: the low five bits of the header byte. -/
def getEncodeSize (bs : BitSetSIMD) : Nat := (bs.byte 0 &&& 0x1F).toNat

/-! ## Section 2: The record as a bit sequence -/

/-- Bit `p` of the record. -/
def bit (bs : BitSetSIMD) (p : Nat) : Bool := byteBit bs.data p

theorem bit_setByte (bs : BitSetSIMD) {i : Nat} (b : Byte) (hi : i < bs.data.length) (p : Nat) :
    (bs.setByte i b).bit p = if p / 8 = i then b.getLsbD (7 - p % 8) else bs.bit p :=
  byteBit_set bs.data b hi p

@[simp] theorem length_setByte (bs : BitSetSIMD) (i : Nat) (b : Byte) :
    (bs.setByte i b).data.length = bs.data.length := by
  simp [setByte]

@[simp] theorem bitLength_setByte (bs : BitSetSIMD) (i : Nat) (b : Byte) :
    (bs.setByte i b).bitLength = bs.bitLength := by
  simp [bitLength]

theorem getLsbD_byte (bs : BitSetSIMD) {i j : Nat} (hj : j < 8) :
    (bs.byte i).getLsbD j = bs.bit (8 * i + (7 - j)) := by
  have hdiv : (8 * i + (7 - j)) / 8 = i := by omega
  have hmod : 7 - (8 * i + (7 - j)) % 8 = j := by omega
  unfold bit byteBit byte
  rw [hdiv, hmod]

theorem bit_eq_getLsbD (bs : BitSetSIMD) (p : Nat) :
    bs.bit p = (bs.byte (p / 8)).getLsbD (7 - p % 8) := rfl

/-- The masks of `ZERO_BLOCK_MASK` keep the bits outside the field. -/
theorem getLsbD_zeroBlockMask {m s j : Nat} (hm : m < 8) (hs : m + s ≤ 8) (hj : j < 8) :
    ((zeroBlockMask.getD m []).getD s 0).getLsbD j = decide (j < 8 - m - s ∨ 8 - m ≤ j) := by
  have key : ∀ m < 8, ∀ s < 9, m + s ≤ 8 → ∀ j < 8,
      ((zeroBlockMask.getD m []).getD s 0).getLsbD j = decide (j < 8 - m - s ∨ 8 - m ≤ j) := by
    decide
  exact key m hm s (by omega) hs j hj

/-- The masks of `ONE_BLOCK_MASK` keep the bits inside the field. -/
theorem getLsbD_oneBlockMask {m s j : Nat} (hm : m < 8) (hs : m + s ≤ 8) (hj : j < 8) :
    ((oneBlockMask.getD m []).getD s 0).getLsbD j = decide (8 - m - s ≤ j ∧ j < 8 - m) := by
  have key : ∀ m < 8, ∀ s < 9, m + s ≤ 8 → ∀ j < 8,
      ((oneBlockMask.getD m []).getD s 0).getLsbD j = decide (8 - m - s ≤ j ∧ j < 8 - m) := by
    decide
  exact key m hm s (by omega) hs j hj

theorem getLsbD_leftOneMask {l j : Nat} (hl : l < 8) (hj : j < 8) :
    (leftOneMask.getD l 0).getLsbD j = decide (j < l) := by
  have key : ∀ l < 8, ∀ j < 8, (leftOneMask.getD l 0).getLsbD j = decide (j < l) := by decide
  exact key l hl j hj

/-! ## Section 3: Single bits -/

theorem shiftRight_three (p : Nat) : p >>> 3 = p / 8 := by
  simp [Nat.shiftRight_eq_div_pow]

theorem getLsbD_one_shiftLeft {k j : Nat} (hk : k < 8) :
    ((1 : Byte) <<< k).getLsbD j = decide (j = k) := by
  have h := BitVec.getLsbD_twoPow (w := 8) k j
  rw [decide_eq_true hk, Bool.true_and] at h
  exact h.trans (decide_eq_decide.mpr eq_comm)

@[simp] theorem length_setOne (bs : BitSetSIMD) (pos : Nat) :
    (bs.setOne pos).data.length = bs.data.length := by
  simp [setOne]

@[simp] theorem length_foldl_setOne (ids : List Nat) (pos : Nat → Nat) (bs : BitSetSIMD) :
    (ids.foldl (fun bs id => bs.setOne (pos id)) bs).data.length = bs.data.length := by
  induction ids generalizing bs with
  | nil => rfl
  | cons id ids ih => rw [List.foldl_cons, ih, length_setOne]

@[simp] theorem length_setZero (bs : BitSetSIMD) (pos : Nat) :
    (bs.setZero pos).data.length = bs.data.length := by
  simp [setZero]

@[simp] theorem length_clear (bs : BitSetSIMD) : bs.clear.data.length = bs.data.length := by
  simp [clear]

theorem bit_setOne (bs : BitSetSIMD) {pos : Nat} (h : pos < bs.bitLength) (p : Nat) :
    (bs.setOne pos).bit p = (decide (p = pos) || bs.bit p) := by
  unfold bitLength at h
  unfold setOne
  rw [shiftRight_three, bit_setByte _ _ (by omega)]
  by_cases hp : p / 8 = pos / 8
  · rw [if_pos hp, BitVec.getLsbD_or, getLsbD_one_shiftLeft (by omega),
      bit_eq_getLsbD, hp, Bool.or_comm]
    congr 1
    rw [decide_eq_decide]
    omega
  · have hne : p ≠ pos := by rintro rfl; exact hp rfl
    rw [if_neg hp]
    simp [hne]

theorem bit_setZero (bs : BitSetSIMD) {pos : Nat} (h : pos < bs.bitLength) (p : Nat) :
    (bs.setZero pos).bit p = (bs.bit p && !decide (p = pos)) := by
  unfold bitLength at h
  unfold setZero
  rw [shiftRight_three, bit_setByte _ _ (by omega)]
  by_cases hp : p / 8 = pos / 8
  · have hones : (0xFF : Byte).getLsbD (7 - p % 8) = true := by
      have key : ∀ j < 8, (0xFF : Byte).getLsbD j = true := by decide
      exact key _ (by omega)
    rw [if_pos hp, BitVec.getLsbD_and, BitVec.getLsbD_xor,
      getLsbD_one_shiftLeft (by omega), hones, bit_eq_getLsbD, hp, Bool.true_xor]
    congr 2
    rw [decide_eq_decide]
    omega
  · have hne : p ≠ pos := by rintro rfl; exact hp rfl
    rw [if_neg hp]
    simp [hne]

theorem isOne_eq_bit (bs : BitSetSIMD) (p : Nat) : bs.isOne p = bs.bit p := by
  have hmask : ∀ m < 8, isOneMask.getD m 0 = BitVec.twoPow 8 (7 - m) ∧
      BitVec.twoPow 8 (7 - m) ≠ 0#8 := by decide
  obtain ⟨heq, hne⟩ := hmask (p % 8) (by omega)
  unfold isOne
  rw [shiftRight_three, bit_eq_getLsbD, heq, BitVec.and_twoPow]
  cases (bs.byte (p / 8)).getLsbD (7 - p % 8) with
  | false => rfl
  | true => exact decide_eq_true hne

@[simp] theorem bit_clear (bs : BitSetSIMD) (p : Nat) : bs.clear.bit p = false := by
  unfold bit clear byteBit
  by_cases h : p / 8 < bs.data.length
  · simp [h]
  · simp [h]

theorem byte_ofBitSize (size i : Nat) : (ofBitSize size).byte i = 0 := by
  simp only [byte, ofBitSize, List.getD_eq_getElem?_getD, List.getElem?_replicate]
  split <;> rfl

theorem blockGet_ofBitSize (size start blockSize : Nat) :
    (ofBitSize size).blockGet start blockSize = 0 := by
  have hloop : ∀ j lastMod n, blockGetLoop (ofBitSize size) j lastMod n = 0 := by
    intro j lastMod n
    induction n with
    | zero => rfl
    | succ n ih => simp [blockGetLoop, ih, byte_ofBitSize]
  simp [blockGet, byte_ofBitSize, hloop]

@[simp] theorem bit_ofBitSize (size p : Nat) : (ofBitSize size).bit p = false := by
  unfold bit ofBitSize byteBit
  by_cases h : p / 8 < size / 8
  · simp [h]
  · simp [h]

@[simp] theorem length_ofBitSize (size : Nat) : (ofBitSize size).data.length = size / 8 := by
  simp [ofBitSize]

/-- A bitset is its bits. -/
theorem eq_of_bit {bs bs' : BitSetSIMD} (hlen : bs.data.length = bs'.data.length)
    (hbit : ∀ p, bs.bit p = bs'.bit p) : bs = bs' := by
  have hbyte : ∀ i, bs.byte i = bs'.byte i := by
    intro i
    apply BitVec.eq_of_getLsbD_eq
    intro j hj
    rw [getLsbD_byte bs hj, getLsbD_byte bs' hj]
    exact hbit _
  obtain ⟨data⟩ := bs
  obtain ⟨data'⟩ := bs'
  congr 1
  apply List.ext_getElem hlen
  intro i hi hi'
  have := hbyte i
  rwa [byte, byte, List.getD_eq_getElem _ _ hi, List.getD_eq_getElem _ _ hi'] at this

/-- Clearing gives the bitset that the constructor makes. -/
theorem clear_ofBitSize (size : Nat) : (ofBitSize size).clear = ofBitSize size := by
  simp [ofBitSize, clear]

/-- Setting a list of bits. -/
theorem bit_foldl_setOne (bitset : BitSetSIMD) (ids : List Nat) (pos : Nat → Nat)
    (hlt : ∀ id ∈ ids, pos id < bitset.bitLength) :
    (ids.foldl (fun bs id => bs.setOne (pos id)) bitset).data.length = bitset.data.length ∧
    (∀ p, bitset.bit p = true → (ids.foldl (fun bs id => bs.setOne (pos id)) bitset).bit p = true) ∧
    (∀ id ∈ ids, (ids.foldl (fun bs id => bs.setOne (pos id)) bitset).bit (pos id) = true) ∧
    ∀ p, (∀ id ∈ ids, pos id ≠ p) →
      (ids.foldl (fun bs id => bs.setOne (pos id)) bitset).bit p = bitset.bit p := by
  induction ids generalizing bitset with
  | nil => simp
  | cons id ids ih =>
    have hid := hlt id (by simp)
    obtain ⟨hlen, hmono, hset, hother⟩ := ih (bitset.setOne (pos id)) (by
      intro x hx
      simpa [bitLength] using hlt x (by simp [hx]))
    simp only [List.foldl_cons]
    refine ⟨by rw [hlen, length_setOne], ?_, ?_, ?_⟩
    · intro p hp
      exact hmono p (by rw [bit_setOne _ hid, hp]; simp)
    · intro x hx
      rcases List.mem_cons.mp hx with rfl | hx
      · exact hmono _ (by rw [bit_setOne _ hid]; simp)
      · exact hset x hx
    · intro p hp
      have hne : pos id ≠ p := hp id (by simp)
      rw [hother p fun x hx => hp x (by simp [hx]), bit_setOne _ hid]
      simp [Ne.symm hne]

/-- The bits of a list of positions are set, and no others. -/
theorem bit_setOnes (bitset : BitSetSIMD) {ps : List Nat} (hlt : ∀ p ∈ ps, p < bitset.bitLength) :
    (ps.foldl setOne bitset).data.length = bitset.data.length ∧
    ∀ p, (ps.foldl setOne bitset).bit p = (bitset.bit p || decide (p ∈ ps)) := by
  obtain ⟨hlen, -, hset, hother⟩ := bit_foldl_setOne bitset ps (fun p => p) hlt
  refine ⟨hlen, fun p => ?_⟩
  by_cases hp : p ∈ ps
  · rw [hset p hp, decide_eq_true hp, Bool.or_true]
  · rw [hother p fun q hq heq => hp (heq ▸ hq), decide_eq_false hp, Bool.or_false]

/-- Setting bits depends on the set of their positions only. -/
theorem setOnes_congr (bitset : BitSetSIMD) {ps qs : List Nat}
    (hlt : ∀ p ∈ ps, p < bitset.bitLength) (hmem : ∀ p, p ∈ ps ↔ p ∈ qs) :
    ps.foldl setOne bitset = qs.foldl setOne bitset := by
  obtain ⟨hlen, hbit⟩ := bit_setOnes bitset hlt
  obtain ⟨hlen', hbit'⟩ := bit_setOnes bitset fun p hp => hlt p ((hmem p).mpr hp)
  apply eq_of_bit
  · rw [hlen, hlen']
  · intro p
    rw [hbit, hbit', decide_eq_decide.mpr (hmem p)]

/-- Writing one byte. -/
theorem byte_setByte (bs : BitSetSIMD) {i : Nat} (b : Byte) (hi : i < bs.data.length) (j : Nat) :
    (bs.setByte i b).byte j = if j = i then b else bs.byte j := by
  unfold byte setByte
  by_cases hj : j = i
  · subst hj
    simp [List.getD_eq_getElem?_getD, hi]
  · have hne : i ≠ j := fun h => hj h.symm
    simp [List.getD_eq_getElem?_getD, hj, hne]

theorem byte_setOne_of_ne (bs : BitSetSIMD) {pos j : Nat} (hj : pos / 8 ≠ j) :
    (bs.setOne pos).byte j = bs.byte j := by
  unfold setOne byte setByte
  rw [shiftRight_three]
  simp [List.getD_eq_getElem?_getD, List.getElem?_set_ne hj]

@[simp] theorem length_setBytes (bs : BitSetSIMD) (i : Nat) (bytes : List Byte) :
    (bs.setBytes i bytes).data.length = bs.data.length := by
  induction bytes generalizing bs i with
  | nil => rfl
  | cons b bytes ih => rw [setBytes, ih, length_setByte]

/-- Written bytes read back, and the others are as before. -/
theorem byte_setBytes (bs : BitSetSIMD) (i : Nat) (bytes : List Byte)
    (hle : i + bytes.length ≤ bs.data.length) (j : Nat) :
    (bs.setBytes i bytes).byte j =
      if i ≤ j ∧ j < i + bytes.length then bytes.getD (j - i) 0 else bs.byte j := by
  induction bytes generalizing bs i with
  | nil => rw [setBytes, if_neg (by simp)]
  | cons b bytes ih =>
    rw [List.length_cons] at hle ⊢
    rw [setBytes, ih _ _ (by rw [length_setByte]; omega), byte_setByte _ _ (by omega)]
    rcases Nat.lt_trichotomy j i with hlt | rfl | hgt
    · rw [if_neg (by omega), if_neg (by omega), if_neg (by omega)]
    · rw [if_neg (by omega), if_pos rfl, if_pos (by omega), Nat.sub_self, List.getD_cons_zero]
    · rw [if_neg (show j ≠ i by omega), show j - i = (j - (i + 1)) + 1 by omega,
        List.getD_cons_succ]
      by_cases hin : j < i + (bytes.length + 1)
      · rw [if_pos (by omega), if_pos (by omega)]
      · rw [if_neg (by omega), if_neg (by omega)]

/-! ## Section 4: `BlockGet` reads a field -/

/-- The masked first byte of a field that begins at bit `m` of byte `i`. -/
theorem toNat_and_oneBlockMask (bs : BitSetSIMD) {i m s : Nat} (hm : m < 8) (hs : m + s ≤ 8) :
    (bs.byte i &&& (oneBlockMask.getD m []).getD s 0).toNat >>> (8 - m - s) =
      field bs.bit (8 * i + m) s := by
  apply Nat.eq_of_testBit_eq
  intro k
  rw [Nat.testBit_shiftRight, testBit_field]
  by_cases hk : k < s
  · have hpos : 8 * i + m + s - 1 - k = 8 * i + (7 - (8 - m - s + k)) := by omega
    have hj : 8 - m - s + k < 8 := by omega
    rw [hpos, ← getLsbD_byte bs hj]
    change (bs.byte i &&& _).getLsbD _ = _
    rw [BitVec.getLsbD_and, getLsbD_oneBlockMask hm hs hj]
    have hin : 8 - m - s ≤ 8 - m - s + k ∧ 8 - m - s + k < 8 - m := by omega
    simp [hk, hin]
  · by_cases hj : 8 - m - s + k < 8
    · change (bs.byte i &&& _).getLsbD _ = _
      rw [BitVec.getLsbD_and, getLsbD_oneBlockMask hm hs hj]
      have hout : ¬ (8 - m - s + k < 8 - m) := by omega
      simp [hk, hout]
    · change (bs.byte i &&& _).getLsbD _ = _
      rw [BitVec.getLsbD_of_ge _ _ (by omega)]
      simp [hk]

/-- The leading bits of byte `j` as a field. -/
theorem toNat_byte_shiftRight (bs : BitSetSIMD) {j l : Nat} (hl : l < 8) :
    (bs.byte j).toNat >>> (7 - l) = field bs.bit (8 * j) (l + 1) := by
  have h := field_within bs.data (i := j) (m := 0) (s := l + 1) (by omega)
  have hlt : (bs.byte j).toNat >>> (7 - l) < 2 ^ (l + 1) := by
    have hb : (bs.byte j).toNat < 2 ^ 8 := (bs.byte j).isLt
    rw [Nat.shiftRight_eq_div_pow]
    apply Nat.div_lt_of_lt_mul
    rw [← pow_add]
    have : 7 - l + (l + 1) = 8 := by omega
    rw [this]
    exact hb
  have hsub : 8 - 0 - (l + 1) = 7 - l := by omega
  rw [Nat.add_zero, hsub] at h
  change field bs.bit (8 * j) (l + 1) = ((bs.byte j).toNat >>> (7 - l)) % 2 ^ (l + 1) at h
  rw [h, Nat.mod_eq_of_lt hlt]

/-- The tail of a field from byte `j - n` on, as `BlockGet` adds it up. -/
theorem blockGetLoop_eq (bs : BitSetSIMD) {j l n : Nat} (hl : l < 8) (hn : n ≤ j) :
    (bs.byte j).toNat >>> (7 - l) + blockGetLoop bs j l n =
      field bs.bit (8 * (j - n)) (8 * n + l + 1) := by
  induction n with
  | zero => simpa [blockGetLoop] using toNat_byte_shiftRight bs hl
  | succ n ih =>
    have ih' := ih (by omega)
    have hsplit : 8 * (n + 1) + l + 1 = 8 + (8 * n + l + 1) := by omega
    have hnext : 8 * (j - (n + 1)) + 8 = 8 * (j - n) := by omega
    have hbyte : field bs.bit (8 * (j - (n + 1))) 8 = (bs.byte (j - (n + 1))).toNat :=
      field_byte bs.data _
    rw [hsplit, field_add, hnext, hbyte, ← ih']
    simp only [blockGetLoop, Nat.shiftLeft_eq]
    omega

theorem blockGet_eq (bs : BitSetSIMD) {start size : Nat} (hpos : 0 < size) (hle : size ≤ 32) :
    bs.blockGet start size = field bs.bit start size := by
  have hstart : 8 * (start / 8) + start % 8 = start := Nat.div_add_mod start 8
  unfold blockGet
  simp only [shiftRight_three]
  by_cases hij : start / 8 = (start + size - 1) / 8
  · rw [if_pos hij]
    have hm : start % 8 < 8 := by omega
    have hs : start % 8 + size ≤ 8 := by omega
    have hshift : 7 - (start + size - 1) % 8 = 8 - start % 8 - size := by omega
    rw [hshift, toNat_and_oneBlockMask bs hm hs, hstart]
  · rw [if_neg hij]
    have hlt : start / 8 < (start + size - 1) / 8 := by omega
    -- first byte, then the tail that `blockGetLoop_eq` describes
    have hm : start % 8 + (8 - start % 8) ≤ 8 := by omega
    have hfirst := toNat_and_oneBlockMask bs (i := start / 8) (by omega) hm
    rw [show 8 - start % 8 - (8 - start % 8) = 0 by omega, Nat.shiftRight_zero, hstart] at hfirst
    have htail := blockGetLoop_eq bs (j := (start + size - 1) / 8)
      (l := (start + size - 1) % 8) (n := (start + size - 1) / 8 - start / 8 - 1)
      (by omega) (by omega)
    have hsplit : size = (8 - start % 8) + (size - (8 - start % 8)) := by omega
    have hbegin : 8 * ((start + size - 1) / 8 - ((start + size - 1) / 8 - start / 8 - 1)) =
        start + (8 - start % 8) := by omega
    have hlen : 8 * ((start + size - 1) / 8 - start / 8 - 1) + (start + size - 1) % 8 + 1 =
        size - (8 - start % 8) := by omega
    have hshift : ((size + 2 ^ 32 - 8) % 2 ^ 32 + start % 8) % 32 = size - (8 - start % 8) := by
      omega
    rw [htail, hfirst, hbegin, hlen, hshift, Nat.shiftLeft_eq]
    have hfield : field bs.bit start size = field bs.bit start (8 - start % 8) *
        2 ^ (size - (8 - start % 8)) +
          field bs.bit (start + (8 - start % 8)) (size - (8 - start % 8)) := by
      conv_lhs => rw [hsplit]
      exact field_add _ _ _ _
    rw [Nat.add_comm, ← hfield]
    exact Nat.mod_eq_of_lt (Nat.lt_of_lt_of_le (field_lt _ _ _)
      (Nat.pow_le_pow_right (by omega) hle))

/-! ## Section 5: `BlockSet` stores a field -/

theorem getLsbD_ofNat_shiftLeft (v l : Nat) {j : Nat} (hj : j < 8) :
    (BitVec.ofNat 8 (v <<< l)).getLsbD j = (decide (l ≤ j) && v.testBit (j - l)) := by
  rw [BitVec.getLsbD_ofNat, Nat.testBit_shiftLeft]
  simp [hj]

/-- The inner bytes of `BlockSet`: `k` whole bytes below byte `e`. -/
theorem blockSetLoop_spec (k : Nat) (bs : BitSetSIMD) (fuel : Nat) {e r : Nat} (v : Nat)
    (hr : r ≤ 8) (hr' : 1 ≤ r) (hfuel : k ≤ fuel) (hk : k ≤ e) (hlen : e ≤ bs.data.length) :
    ∃ bs', blockSetLoop fuel bs e (r + 8 * k) v = (bs', r, v >>> (8 * k)) ∧
      bs'.data.length = bs.data.length ∧
      ∀ p, bs'.bit p = if e - k ≤ p / 8 ∧ p / 8 < e then v.testBit (8 * e - 1 - p) else bs.bit p := by
  induction k generalizing bs fuel e v with
  | zero =>
    refine ⟨bs, ?_, rfl, fun p => by rw [if_neg (by omega)]⟩
    cases fuel with
    | zero => simp [blockSetLoop]
    | succ fuel => simp [blockSetLoop, show ¬ r > 8 by omega]
  | succ k ih =>
    obtain ⟨fuel, rfl⟩ : ∃ f, fuel = f + 1 := ⟨fuel - 1, by omega⟩
    obtain ⟨bs', heq, hlen', hbit⟩ := ih (bs.setByte (e - 1) (BitVec.ofNat 8 v)) fuel
      (e := e - 1) (v >>> 8) (by omega) (by omega) (by simp; omega)
    refine ⟨bs', ?_, by simpa using hlen', ?_⟩
    · have hgt : r + 8 * (k + 1) > 8 := by omega
      have hsub : r + 8 * (k + 1) - 8 = r + 8 * k := by omega
      simp only [blockSetLoop, if_pos hgt, hsub, heq, ← Nat.shiftRight_add]
      rw [show 8 + 8 * k = 8 * (k + 1) by omega]
    · intro p
      rw [hbit, bit_setByte _ _ (by omega), Nat.testBit_shiftRight]
      by_cases hin : e - 1 - k ≤ p / 8 ∧ p / 8 < e - 1
      · rw [if_pos hin, if_pos (by omega)]
        congr 1
        omega
      · rw [if_neg hin]
        by_cases hlast : p / 8 = e - 1
        · rw [if_pos hlast, if_pos (by omega), BitVec.getLsbD_ofNat]
          have hidx : 7 - p % 8 = 8 * e - 1 - p := by omega
          simp [← hidx, show 7 - p % 8 < 8 by omega]
        · rw [if_neg hlast, if_neg (by omega)]

@[simp] theorem length_blockSetLoop (fuel : Nat) (bs : BitSetSIMD) (e b v : Nat) :
    (blockSetLoop fuel bs e b v).1.data.length = bs.data.length := by
  induction fuel generalizing bs e b v with
  | zero => rfl
  | succ fuel ih =>
    simp only [blockSetLoop]
    split
    · rw [ih]; simp
    · rfl

@[simp] theorem length_blockSet (bs : BitSetSIMD) (start size value : Nat) :
    (bs.blockSet start size value).data.length = bs.data.length := by
  unfold blockSet
  dsimp only
  split
  · rw [length_setByte, length_blockSetLoop, length_setByte]
  · rw [length_setByte]

@[simp] theorem bitLength_blockSet (bs : BitSetSIMD) (start size value : Nat) :
    (bs.blockSet start size value).bitLength = bs.bitLength := by
  simp [bitLength]

/-- Inside one byte. -/
theorem bit_blockSet_within (bs : BitSetSIMD) {start size value : Nat}
    (hone : start / 8 = (start + size - 1) / 8) (hpos : 0 < size)
    (hlen : start / 8 < bs.data.length) (hv : value < 2 ^ size) (p : Nat) :
    (bs.setByte (start / 8) (bs.byte (start / 8) &&& (zeroBlockMask.getD (start % 8) []).getD size 0
      ||| BitVec.ofNat 8 (value <<< (7 - (start + size - 1) % 8)))).bit p =
      store bs.bit start size value p := by
  rw [bit_setByte _ _ hlen]
  by_cases hp : p / 8 = start / 8
  · have hj : 7 - p % 8 < 8 := by omega
    rw [if_pos hp, BitVec.getLsbD_or, BitVec.getLsbD_and,
      getLsbD_zeroBlockMask (by omega) (by omega) hj, getLsbD_ofNat_shiftLeft _ _ hj, ← hp,
      ← bit_eq_getLsbD]
    by_cases hin : start ≤ p ∧ p < start + size
    · have hnot : ¬ (7 - p % 8 < 8 - start % 8 - size ∨ 8 - start % 8 ≤ 7 - p % 8) := by omega
      have hidx : 7 - p % 8 - (7 - (start + size - 1) % 8) = start + size - 1 - p := by omega
      have hge : 7 - (start + size - 1) % 8 ≤ 7 - p % 8 := by omega
      rw [decide_eq_false hnot, hidx]
      simp [store, hin, hge]
    · have hmask : 7 - p % 8 < 8 - start % 8 - size ∨ 8 - start % 8 ≤ 7 - p % 8 := by omega
      have hzero : (decide (7 - (start + size - 1) % 8 ≤ 7 - p % 8) &&
          value.testBit (7 - p % 8 - (7 - (start + size - 1) % 8))) = false := by
        by_cases hge : 7 - (start + size - 1) % 8 ≤ 7 - p % 8
        · rw [Nat.testBit_lt_two_pow (Nat.lt_of_lt_of_le hv
            (Nat.pow_le_pow_right (by omega) (by omega)))]
          simp
        · simp [hge]
      rw [hzero, store_outside _ (by omega), decide_eq_true hmask]
      simp
  · rw [if_neg hp, store_outside _ (by omega)]

/-- The last byte of a field that spans bytes holds the low end of the value. -/
theorem getLsbD_last_byte (bs : BitSetSIMD) {start size value p : Nat}
    (hspan : start / 8 < (start + size - 1) / 8) (hend : p / 8 = (start + size - 1) / 8) :
    (bs.byte ((start + size - 1) / 8) &&& leftOneMask.getD (7 - (start + size - 1) % 8) 0 |||
      BitVec.ofNat 8 (value <<< (7 - (start + size - 1) % 8))).getLsbD (7 - p % 8) =
      store bs.bit start size value p := by
  have hj : 7 - p % 8 < 8 := by omega
  rw [BitVec.getLsbD_or, BitVec.getLsbD_and, getLsbD_leftOneMask (by omega) hj,
    getLsbD_ofNat_shiftLeft _ _ hj, ← hend, ← bit_eq_getLsbD]
  by_cases hin : p < start + size
  · have hidx : 7 - p % 8 - (7 - (start + size - 1) % 8) = start + size - 1 - p := by omega
    have hge : 7 - (start + size - 1) % 8 ≤ 7 - p % 8 := by omega
    have hin' : start ≤ p ∧ p < start + size := by omega
    simp [store, hin', hidx, hge, Nat.not_lt.mpr hge]
  · have hlt : 7 - p % 8 < 7 - (start + size - 1) % 8 := by omega
    rw [store_outside _ (by omega)]
    simp [hlt, Nat.not_le.mpr hlt]

/-- The first byte of such a field holds its high end, and keeps what stood in front of it. -/
theorem getLsbD_first_byte (bs : BitSetSIMD) {start size value p : Nat}
    (hspan : start / 8 < (start + size - 1) / 8) (hfirst : p / 8 = start / 8)
    (hv : value < 2 ^ size) :
    (bs.byte (start / 8) &&& (zeroBlockMask.getD (start % 8) []).getD (8 - start % 8) 0 |||
      BitVec.ofNat 8 (value >>> (8 - (7 - (start + size - 1) % 8)) >>>
        (8 * ((start + size - 1) / 8 - start / 8 - 1)))).getLsbD (7 - p % 8) =
      store bs.bit start size value p := by
  have hj : 7 - p % 8 < 8 := by omega
  rw [BitVec.getLsbD_or, BitVec.getLsbD_and, getLsbD_zeroBlockMask (by omega) (by omega) hj,
    BitVec.getLsbD_ofNat, ← hfirst, ← bit_eq_getLsbD, Nat.testBit_shiftRight,
    Nat.testBit_shiftRight]
  by_cases hin : start ≤ p
  · have hidx : 8 - (7 - (start + size - 1) % 8) +
        (8 * ((start + size - 1) / 8 - p / 8 - 1) + (7 - p % 8)) = start + size - 1 - p := by
      omega
    have hnot : ¬ (7 - p % 8 < 8 - start % 8 - (8 - start % 8) ∨
        8 - start % 8 ≤ 7 - p % 8) := by omega
    have hin' : start ≤ p ∧ p < start + size := by omega
    rw [decide_eq_false hnot, hidx]
    simp [store, hin', hj]
  · have hmask : 7 - p % 8 < 8 - start % 8 - (8 - start % 8) ∨
        8 - start % 8 ≤ 7 - p % 8 := by omega
    rw [Nat.testBit_lt_two_pow (Nat.lt_of_lt_of_le hv
      (Nat.pow_le_pow_right (by omega) (by omega))), store_outside _ (by omega),
      decide_eq_true hmask]
    simp

/-- `BlockSet` over several bytes: the record before its last write, with the last byte and the
    whole bytes in front of it. -/
theorem blockSet_spanning (bs : BitSetSIMD) {start size : Nat} (value : Nat)
    (hspan : start / 8 < (start + size - 1) / 8)
    (hne : start / 8 % 256 ≠ (start + size - 1) / 8) (hlt : size < 2 ^ 32)
    (hlen : start + size ≤ 8 * bs.data.length) :
    ∃ bs' : BitSetSIMD, bs'.data.length = bs.data.length ∧
      bs.blockSet start size value = bs'.setByte (start / 8 % 256)
        (bs'.byte (start / 8 % 256) &&& (zeroBlockMask.getD (start % 8) []).getD (8 - start % 8) 0
          ||| BitVec.ofNat 8 (value >>> (8 - (7 - (start + size - 1) % 8)) >>>
            (8 * ((start + size - 1) / 8 - start / 8 - 1)))) ∧
      ∀ p, bs'.bit p =
        if (start + size - 1) / 8 - ((start + size - 1) / 8 - start / 8 - 1) ≤ p / 8 ∧
            p / 8 < (start + size - 1) / 8 then
          (value >>> (8 - (7 - (start + size - 1) % 8))).testBit
            (8 * ((start + size - 1) / 8) - 1 - p)
        else if p / 8 = (start + size - 1) / 8 then
          (bs.byte ((start + size - 1) / 8) &&& leftOneMask.getD (7 - (start + size - 1) % 8) 0 |||
            BitVec.ofNat 8 (value <<< (7 - (start + size - 1) % 8))).getLsbD (7 - p % 8)
        else bs.bit p := by
  have hrest : (size + 2 ^ 32 - (8 - (7 - (start + size - 1) % 8))) % 2 ^ 32 =
      (8 - start % 8) + 8 * ((start + size - 1) / 8 - start / 8 - 1) := by omega
  obtain ⟨bs', heq, hlen', hbit⟩ := blockSetLoop_spec
    ((start + size - 1) / 8 - start / 8 - 1)
    (bs.setByte ((start + size - 1) / 8) (bs.byte ((start + size - 1) / 8) &&&
      leftOneMask.getD (7 - (start + size - 1) % 8) 0 |||
        BitVec.ofNat 8 (value <<< (7 - (start + size - 1) % 8))))
    ((8 - start % 8) + 8 * ((start + size - 1) / 8 - start / 8 - 1))
    (e := (start + size - 1) / 8) (r := 8 - start % 8)
    (value >>> (8 - (7 - (start + size - 1) % 8)))
    (by omega) (by omega) (by omega) (by omega) (by simp; omega)
  refine ⟨bs', by rwa [length_setByte] at hlen', ?_, fun p => ?_⟩
  · unfold blockSet
    simp only [shiftRight_three, if_pos hne, hrest, heq]
  · rw [hbit, bit_setByte _ _ (by omega)]

/-- `BlockSet` overwrites exactly its field, as long as the byte index of the
    field fits the eight bits of `begin_idx`. -/
theorem bit_blockSet (bs : BitSetSIMD) {start size value : Nat} (hbyte : start / 8 < 256)
    (hpos : 0 < size) (hlt : size < 2 ^ 32) (hlen : start + size ≤ bs.bitLength)
    (hv : value < 2 ^ size) :
    (bs.blockSet start size value).bit = store bs.bit start size value := by
  unfold bitLength at hlen
  funext p
  have hmod : start / 8 % 256 = start / 8 := Nat.mod_eq_of_lt hbyte
  by_cases hone : start / 8 = (start + size - 1) / 8
  · unfold blockSet
    simp only [shiftRight_three, hmod]
    rw [if_neg (by simpa using hone)]
    exact bit_blockSet_within bs hone hpos (by omega) hv p
  · have hspan : start / 8 < (start + size - 1) / 8 := by omega
    obtain ⟨bs', hlen', heq, hbit⟩ := blockSet_spanning bs value hspan (by omega) hlt hlen
    rw [heq, hmod, bit_setByte _ _ (by omega)]
    by_cases hfirst : p / 8 = start / 8
    · -- the loop has not touched the first byte
      have hsame : bs'.bit p = bs.bit p := by
        rw [hbit, if_neg (by omega), if_neg (by omega)]
      rw [if_pos hfirst, getLsbD_first_byte bs' hspan hfirst hv, store, store, hsame]
    · rw [if_neg hfirst, hbit, Nat.testBit_shiftRight]
      by_cases hmid : (start + size - 1) / 8 - ((start + size - 1) / 8 - start / 8 - 1) ≤ p / 8 ∧
          p / 8 < (start + size - 1) / 8
      · -- a whole byte of the loop
        have hidx : 8 - (7 - (start + size - 1) % 8) + (8 * ((start + size - 1) / 8) - 1 - p) =
            start + size - 1 - p := by omega
        have hin : start ≤ p ∧ p < start + size := by omega
        rw [if_pos hmid, hidx]
        simp [store, hin]
      · rw [if_neg hmid]
        by_cases hend : p / 8 = (start + size - 1) / 8
        · rw [if_pos hend, getLsbD_last_byte bs hspan hend]
        · rw [if_neg hend, store_outside _ (by omega)]

/-- The fields read back what was stored and nothing else changes. -/
theorem bit_blockSetList {size : Nat} (hpos : 0 < size) (hsize : size < 2 ^ 32)
    (bs : BitSetSIMD) (start : Nat) {values : List Nat} (hvalues : ∀ v ∈ values, v < 2 ^ size)
    (hbytes : bs.bitLength ≤ 2048) (hlen : start + values.length * size ≤ bs.bitLength) :
    (∀ i (hi : i < values.length),
      field (blockSetList size bs start values).bit (start + i * size) size = values[i]) ∧
    ∀ p, p < start ∨ start + values.length * size ≤ p →
      (blockSetList size bs start values).bit p = bs.bit p := by
  induction values generalizing bs start with
  | nil => simp [blockSetList]
  | cons v values ih =>
    have hmul : (v :: values).length * size = size + values.length * size := by
      rw [List.length_cons]; ring
    rw [hmul] at hlen ⊢
    have hv : v < 2 ^ size := hvalues v (by simp)
    have hstore : (bs.blockSet start size v).bit = store bs.bit start size v :=
      bit_blockSet bs (by omega) hpos hsize (by omega) hv
    obtain ⟨hfields, hrest⟩ := ih (bs.blockSet start size v) (start + size)
      (fun x hx => hvalues x (by simp [hx])) (by simpa using hbytes) (by
        rw [bitLength_blockSet]
        omega)
    rw [blockSetList]
    constructor
    · intro i hi
      cases i with
      | zero =>
        -- the later fields start behind the first
        rw [Nat.zero_mul, Nat.add_zero, field_congr fun p h₁ h₂ => hrest p (by omega), hstore]
        exact field_store_self _ hv
      | succ i =>
        have hidx : start + (i + 1) * size = start + size + i * size := by ring
        rw [hidx]
        exact hfields i (by simpa using hi)
    · intro p hp
      rw [hrest p (by omega), hstore, store_outside _ (by omega)]

@[simp] theorem length_blockSetList (size : Nat) (bs : BitSetSIMD) (start : Nat)
    (values : List Nat) : (blockSetList size bs start values).data.length = bs.data.length := by
  induction values generalizing bs start with
  | nil => rfl
  | cons v values ih => rw [blockSetList, ih, length_blockSet]

/-- The `n` bytes of a number, the most significant one first. -/
def bigEndian (n value : Nat) : List Byte :=
  (List.range n).map fun k => BitVec.ofNat 8 (value >>> (8 * (n - 1 - k)))

@[simp] theorem length_bigEndian (n value : Nat) : (bigEndian n value).length = n := by
  simp [bigEndian]

/-- One more byte at the end. -/
theorem bigEndian_succ (n value : Nat) (b : Byte) :
    bigEndian (n + 1) (value <<< 8 ||| b.toNat) = bigEndian n value ++ [b] := by
  have hb : b.toNat < 2 ^ 8 := b.isLt
  have hsum : value <<< 8 ||| b.toNat = value * 256 + b.toNat := by
    rw [← Nat.shiftLeft_add_eq_or_of_lt hb, Nat.shiftLeft_eq]
  rw [hsum, bigEndian, List.range_succ, List.map_append, List.map_singleton]
  congr 1
  · apply List.map_congr_left
    intro k hk
    have hk := List.mem_range.mp hk
    congr 1
    rw [Nat.shiftRight_eq_div_pow, Nat.shiftRight_eq_div_pow,
      show 8 * (n + 1 - 1 - k) = 8 + 8 * (n - 1 - k) by omega, Nat.pow_add,
      ← Nat.div_div_eq_div_mul]
    congr 1
    omega
  · rw [show n + 1 - 1 - n = 0 by omega, Nat.mul_zero, Nat.shiftRight_zero]
    congr 1
    apply BitVec.eq_of_toNat_eq
    rw [BitVec.toNat_ofNat]
    omega

/-- The number that the bytes spell. -/
def number (bytes : List Byte) : Nat := bytes.foldl (fun value b => value <<< 8 ||| b.toNat) 0

theorem number_concat (bytes : List Byte) (b : Byte) :
    number (bytes ++ [b]) = number bytes <<< 8 ||| b.toNat := by
  rw [number, List.foldl_append]
  rfl

theorem bigEndian_number (bytes : List Byte) : bigEndian bytes.length (number bytes) = bytes := by
  induction bytes using List.reverseRecOn with
  | nil => rfl
  | append_singleton bytes b ih =>
    rw [number_concat, List.length_append, List.length_singleton, bigEndian_succ, ih]

theorem number_lt (bytes : List Byte) : number bytes < 2 ^ (8 * bytes.length) := by
  induction bytes using List.reverseRecOn with
  | nil => exact Nat.zero_lt_one
  | append_singleton bytes b ih =>
    have hb : b.toNat < 2 ^ 8 := b.isLt
    rw [number_concat, ← Nat.shiftLeft_add_eq_or_of_lt hb, Nat.shiftLeft_eq, List.length_append,
      List.length_singleton, Nat.mul_add, Nat.pow_add]
    omega

/-- A field of whole bytes. -/
theorem blockSet_eq_setBytes (bs : BitSetSIMD) {i n value : Nat} (hbyte : i < 256) (hpos : 0 < n)
    (hn : n ≤ 4) (hlen : i + n ≤ bs.data.length) (hv : value < 2 ^ (8 * n)) :
    bs.blockSet (8 * i) (8 * n) value = bs.setBytes i (bigEndian n value) := by
  have hbytes := byte_setBytes bs i (bigEndian n value) (by rwa [length_bigEndian])
  rw [length_bigEndian] at hbytes
  apply eq_of_bit
  · rw [length_blockSet, length_setBytes]
  · intro p
    rw [bit_blockSet bs (by omega) (by omega) (by omega) (by unfold bitLength; omega) hv,
      bit_eq_getLsbD, hbytes, store]
    by_cases hin : i ≤ p / 8 ∧ p / 8 < i + n
    · have hk : p / 8 - i < (bigEndian n value).length := by
        rw [length_bigEndian]
        omega
      have hidx : 8 * (n - 1 - (p / 8 - i)) + (7 - p % 8) = 8 * i + 8 * n - 1 - p := by omega
      rw [if_pos (by omega), if_pos hin, List.getD_eq_getElem _ _ hk]
      simp only [bigEndian, List.getElem_map, List.getElem_range, BitVec.getLsbD_ofNat,
        Nat.testBit_shiftRight, hidx]
      rw [decide_eq_true (show 7 - p % 8 < 8 by omega), Bool.true_and]
    · rw [if_neg (by omega), if_neg hin]
      rfl

/-- Bytes in front of the written ones, the written ones and the bytes behind them. -/
theorem data_setBytes (bs : BitSetSIMD) {i : Nat} {bytes : List Byte}
    (hle : i + bytes.length ≤ bs.data.length) :
    (bs.setBytes i bytes).data =
      bs.data.take i ++ (bytes ++ bs.data.drop (i + bytes.length)) := by
  apply List.ext_getElem
  · simp
    omega
  · intro j h₁ h₂
    have hbyte := byte_setBytes bs i bytes hle j
    rw [length_setBytes] at h₁
    rw [byte, List.getD_eq_getElem _ _ (by rwa [length_setBytes])] at hbyte
    rw [hbyte, byte, List.getD_eq_getElem _ _ h₁]
    rcases Nat.lt_or_ge j i with hlt | hge
    · rw [if_neg (by omega), List.getElem_append_left (by simp; omega), List.getElem_take]
    · rw [List.getElem_append_right (by simp; omega)]
      simp only [List.length_take, Nat.min_eq_left (show i ≤ bs.data.length by omega)]
      by_cases hin : j < i + bytes.length
      · rw [if_pos ⟨hge, hin⟩, List.getElem_append_left (by omega),
          List.getD_eq_getElem _ _ (by omega)]
      · rw [if_neg (by omega), List.getElem_append_right (by omega), List.getElem_drop]
        congr 1
        omega

/-- What is read from the first written byte on. -/
theorem drop_data_setBytes (bs : BitSetSIMD) {i : Nat} {bytes : List Byte}
    (hle : i + bytes.length ≤ bs.data.length) :
    (bs.setBytes i bytes).data.drop i = bytes ++ bs.data.drop (i + bytes.length) := by
  rw [data_setBytes bs hle]
  exact List.drop_left' (by rw [List.length_take]; omega)

theorem setBytes_append (bs : BitSetSIMD) (i : Nat) (bytes bytes' : List Byte) :
    bs.setBytes i (bytes ++ bytes') = (bs.setBytes i bytes).setBytes (i + bytes.length) bytes' := by
  induction bytes generalizing bs i with
  | nil => rfl
  | cons b bytes ih =>
    rw [List.cons_append, setBytes, ih, setBytes, List.length_cons]
    congr 1
    omega

/-- The fields are written exactly when there is room for all of them. -/
theorem blockSetFields_eq_none (bs : BitSetSIMD) {start : Nat} {fields : List (Nat × Nat)}
    (hfar : bs.bitLength < start + (fields.map Prod.fst).sum) (hstart : start ≤ bs.bitLength) :
    blockSetFields bs start fields = none := by
  induction fields generalizing bs start with
  | nil => simp at hfar; omega
  | cons f fields ih =>
    obtain ⟨size, value⟩ := f
    rw [List.map_cons, List.sum_cons] at hfar
    rw [blockSetFields, blockSetAt]
    by_cases hfit : start + size ≤ bs.bitLength
    · rw [if_pos hfit]
      exact ih _ (by rw [bitLength_blockSet]; omega) (by rwa [bitLength_blockSet])
    · rw [if_neg hfit]
      rfl

/-- Fields of one size, for which there is room. -/
theorem blockSetFields_const (bs : BitSetSIMD) {size start : Nat} {values : List Nat}
    (hroom : start + values.length * size ≤ bs.bitLength) :
    blockSetFields bs start (values.map fun v => (size, v)) =
      some (blockSetList size bs start values) := by
  induction values generalizing bs start with
  | nil => rfl
  | cons v values ih =>
    have hmul : (v :: values).length * size = size + values.length * size := by
      rw [List.length_cons]
      ring
    rw [hmul] at hroom
    rw [List.map_cons, blockSetFields, blockSetAt, if_pos (by omega), Option.bind_some, blockSetList]
    exact ih _ (by rw [bitLength_blockSet]; omega)

/-! ## Section 6: Counters -/

/-- A loop that reads one cell after the other and writes it back changed: every cell is
    changed as often as it is named, and the bits of no other cell are touched. -/
theorem cell_foldl_change {size : Nat} (hpos : 0 < size) (hsize : size ≤ 32)
    (change : Nat → Nat) (bs : BitSetSIMD) {idxs : List Nat}
    (hidxs : ∀ i ∈ idxs, i * size + size ≤ bs.bitLength ∧ i * size / 8 < 256)
    (hroom : ∀ j, ∀ k ≤ idxs.count j, change^[k] (cell bs.bit size j) < 2 ^ size)
    {bs' : BitSetSIMD} (hbs' : idxs.foldl (fun bs i =>
      bs.blockSet (i * size) size (change (bs.blockGet (i * size) size))) bs = bs') :
    bs'.bitLength = bs.bitLength ∧
    (∀ j, cell bs'.bit size j = change^[idxs.count j] (cell bs.bit size j)) ∧
    ∀ p, (∀ i ∈ idxs, p < i * size ∨ i * size + size ≤ p) → bs'.bit p = bs.bit p := by
  induction idxs generalizing bs with
  | nil =>
    obtain rfl : bs = bs' := hbs'
    exact ⟨rfl, fun _ => rfl, fun _ _ => rfl⟩
  | cons i idxs ih =>
    obtain ⟨hle, hbyte⟩ := hidxs i (by simp)
    have hself : (i :: idxs).count i = idxs.count i + 1 := List.count_cons_self
    have hfit : change (cell bs.bit size i) < 2 ^ size := hroom i 1 (by omega)
    have hread : bs.blockGet (i * size) size = cell bs.bit size i := blockGet_eq _ hpos hsize
    rw [List.foldl_cons, hread] at hbs'
    have hstore := bit_blockSet bs hbyte hpos (by omega) hle hfit
    -- one round and `k` later ones are `k + 1` rounds for cell `i`, `k` for the others
    have hiter : ∀ j k, change^[k] (cell (bs.blockSet (i * size) size
        (change (cell bs.bit size i))).bit size j) =
        change^[if j = i then k + 1 else k] (cell bs.bit size j) := by
      intro j k
      rw [hstore, cell_store _ hfit]
      split
      next hji => rw [hji, Function.iterate_succ_apply]
      next => rfl
    have hcount : ∀ j, (i :: idxs).count j =
        if j = i then idxs.count j + 1 else idxs.count j := by
      intro j
      by_cases hji : j = i
      · rw [hji, if_pos rfl, hself]
      · rw [if_neg hji, List.count_cons_of_ne (Ne.symm hji)]
    obtain ⟨hlen, hcells, hframe⟩ := ih _
      (by
        intro k hk
        rw [bitLength_blockSet]
        exact hidxs k (by simp [hk]))
      (by
        intro j k hk
        rw [hiter]
        apply hroom
        rw [hcount]
        split <;> omega)
      hbs'
    refine ⟨by rw [hlen, bitLength_blockSet], ?_, ?_⟩
    · intro j
      rw [hcells j, hiter, hcount]
    · intro p hp
      rw [hframe p fun k hk => hp k (by simp [hk]), hstore, store_outside _ (hp i (by simp))]

/-- The order in which such a loop names its cells does not matter. -/
theorem cell_foldl_perm {size : Nat} (hpos : 0 < size) (hsize : size ≤ 32)
    (change : Nat → Nat) (bs : BitSetSIMD) {idxs idxs' : List Nat} (hperm : idxs.Perm idxs')
    (hidxs : ∀ i ∈ idxs, i * size + size ≤ bs.bitLength ∧ i * size / 8 < 256)
    (hroom : ∀ j, ∀ k ≤ idxs.count j, change^[k] (cell bs.bit size j) < 2 ^ size) :
    idxs.foldl (fun bs i => bs.blockSet (i * size) size (change (bs.blockGet (i * size) size))) bs =
    idxs'.foldl (fun bs i => bs.blockSet (i * size) size (change (bs.blockGet (i * size) size))) bs
    := by
  obtain ⟨hlen, hcells, hframe⟩ := cell_foldl_change hpos hsize change bs hidxs hroom rfl
  obtain ⟨hlen', hcells', hframe'⟩ := cell_foldl_change hpos hsize change bs
    (fun i hi => hidxs i (hperm.mem_iff.mpr hi))
    (fun j k hk => hroom j k (by rwa [hperm.count_eq])) rfl
  unfold bitLength at hlen hlen'
  apply eq_of_bit (by omega)
  intro p
  by_cases hp : ∃ i ∈ idxs, i * size ≤ p ∧ p < i * size + size
  · -- a bit of a named cell
    obtain ⟨i, -, hge, hlt⟩ := hp
    have hcell := (hcells i).trans ((congrArg (fun n => change^[n] (cell bs.bit size i))
      (hperm.count_eq i)).trans (hcells' i).symm)
    have hbit := congrArg (fun v => v.testBit (i * size + size - 1 - p)) hcell
    simp only [cell, testBit_field] at hbit
    rwa [show i * size + size - 1 - (i * size + size - 1 - p) = p by omega,
      decide_eq_true (show i * size + size - 1 - p < size by omega), Bool.true_and,
      Bool.true_and] at hbit
  · have hout : ∀ i ∈ idxs, p < i * size ∨ i * size + size ≤ p := by
      intro i hi
      by_contra hin
      exact hp ⟨i, hi, by omega⟩
    rw [hframe p hout, hframe' p fun i hi => hout i (hperm.mem_iff.mpr hi)]

theorem iterate_succ_mod {k x : Nat} (h : x + k < 2 ^ 32) :
    (fun count => (count + 1) % 2 ^ 32)^[k] x = x + k := by
  induction k with
  | zero => rfl
  | succ k ih =>
    rw [Function.iterate_succ_apply', ih (by omega), Nat.mod_eq_of_lt (by omega)]
    omega

/-! ## Section 7: Searching the slots -/

theorem blockFind_ne_uncertain (bs : BitSetSIMD) (start size n value : Nat) :
    bs.blockFind start size n value ≠ .uncertain := by
  induction n generalizing start with
  | zero => simp [blockFind]
  | succ n ih =>
    simp only [blockFind]
    split
    · simp
    · split
      · simp
      · exact ih _

/-- The scalar search finds a slot when every slot before it is smaller. -/
theorem blockFind_eq_neighbor_iff (bs : BitSetSIMD) (start size n value : Nat) :
    bs.blockFind start size n value = .neighbor ↔
      ∃ i < n, bs.blockGet (start + i * size) size = value ∧
        ∀ j < i, bs.blockGet (start + j * size) size < value := by
  induction n generalizing start with
  | zero => simp [blockFind]
  | succ n ih =>
    have hshift : ∀ i, start + size + i * size = start + (i + 1) * size := by intro i; ring
    have hzero : start + 0 * size = start := by ring
    simp only [blockFind]
    split
    next heq => exact iff_of_true rfl ⟨0, by omega, by rw [hzero]; exact heq, by omega⟩
    next hne =>
      split
      next hlt =>
        refine iff_of_false (by simp) ?_
        rintro ⟨i, -, hi, hbelow⟩
        cases i with
        | zero => rw [hzero] at hi; exact hne hi
        | succ i =>
          have h := hbelow 0 (by omega)
          rw [hzero] at h
          omega
      next hge =>
        rw [ih]
        constructor
        · rintro ⟨i, hi, heq, hbelow⟩
          refine ⟨i + 1, by omega, by rw [← hshift]; exact heq, ?_⟩
          intro j hj
          cases j with
          | zero => rw [hzero]; omega
          | succ j => rw [← hshift]; exact hbelow j (by omega)
        · rintro ⟨i, hi, heq, hbelow⟩
          cases i with
          | zero => rw [hzero] at heq; exact absurd heq hne
          | succ i =>
            refine ⟨i, by omega, by rw [hshift]; exact heq, ?_⟩
            intro j hj
            rw [hshift]
            exact hbelow (j + 1) (by omega)

theorem blockFindGroups_iff (bs : BitSetSIMD) (start size g value : Nat) :
    bs.blockFindGroups start size g value = true ↔
      ∃ i < 4 * g, bs.blockGet (start + i * size) size = value := by
  induction g generalizing start with
  | zero => simp [blockFindGroups]
  | succ g ih =>
    have hshift : ∀ i, start + size * 4 + i * size = start + (i + 4) * size := by intro i; ring
    simp only [blockFindGroups, Bool.or_eq_true, ih, List.contains_iff_mem, List.mem_cons,
      List.not_mem_nil, or_false, hshift]
    constructor
    · rintro ((h | h | h | h) | ⟨i, hi, h⟩)
      · exact ⟨0, by omega, by rw [h]; congr 1; ring⟩
      · exact ⟨1, by omega, by rw [h]; congr 1; ring⟩
      · exact ⟨2, by omega, by rw [h]; congr 1; ring⟩
      · exact ⟨3, by omega, by rw [h]; congr 1; ring⟩
      · exact ⟨i + 4, by omega, h⟩
    · rintro ⟨i, hi, h⟩
      rcases Nat.lt_or_ge i 4 with hlt | hge
      · left
        interval_cases i
        · left; rw [← h]; congr 1; ring
        · right; left; rw [← h]; congr 1; ring
        · right; right; left; rw [← h]; congr 1; ring
        · right; right; right; rw [← h]; congr 1; ring
      · exact Or.inr ⟨i - 4, by omega, by rw [show i - 4 + 4 = i by omega]; exact h⟩

theorem mem_blockFindRest_iff (bs : BitSetSIMD) (start size : Nat) {r value : Nat} (hr : r < 4)
    (hv : 1 ≤ value) :
    value ∈ bs.blockFindRest start size r ↔
      ∃ i < r, bs.blockGet (start + i * size) size = value := by
  have hne : value ≠ 0 := by omega
  have hcomm : ∀ i, i * size = size * i := fun i => Nat.mul_comm i size
  have hone : ∀ P : Nat → Prop, (∃ i < 1, P i) ↔ P 0 := by
    intro P
    rw [Nat.exists_lt_succ_right]
    simp
  have htwo : ∀ P : Nat → Prop, (∃ i < 2, P i) ↔ P 0 ∨ P 1 := by
    intro P
    rw [Nat.exists_lt_succ_right, hone]
  have hthree : ∀ P : Nat → Prop, (∃ i < 3, P i) ↔ (P 0 ∨ P 1) ∨ P 2 := by
    intro P
    rw [Nat.exists_lt_succ_right, htwo]
  interval_cases r
  · simp [blockFindRest]
  · rw [hone]
    simp [blockFindRest, hne, eq_comm]
  · rw [htwo]
    simp [blockFindRest, hne, eq_comm]
  · rw [hthree]
    simp [blockFindRest, hne, eq_comm, hcomm, or_assoc]

/-- The vectorised search finds a positive value in any slot. -/
theorem blockFindSIMD_eq_neighbor_iff (bs : BitSetSIMD) (start size n : Nat) {value : Nat}
    (hv : 1 ≤ value) :
    bs.blockFindSIMD start size n value = .neighbor ↔
      ∃ i < n, bs.blockGet (start + i * size) size = value := by
  have hgroups := blockFindGroups_iff bs start size (n / 4) value
  have hrest := mem_blockFindRest_iff bs (start + size * 4 * (n / 4)) size (r := n % 4)
    (Nat.mod_lt _ (by omega)) hv
  have hshift : ∀ i, start + size * 4 * (n / 4) + i * size = start + (4 * (n / 4) + i) * size := by
    intro i; ring
  simp only [hshift, ← List.contains_iff_mem] at hrest
  unfold blockFindSIMD
  split
  next hg =>
    obtain ⟨i, hi, h⟩ := hgroups.mp hg
    exact iff_of_true rfl ⟨i, by omega, h⟩
  next hg =>
    split
    next hr =>
      obtain ⟨i, hi, h⟩ := hrest.mp hr
      exact iff_of_true rfl ⟨4 * (n / 4) + i, by omega, h⟩
    next hr =>
      refine iff_of_false (by simp) ?_
      rintro ⟨i, hi, h⟩
      by_cases hlt : i < 4 * (n / 4)
      · exact hg (hgroups.mpr ⟨i, hlt, h⟩)
      · exact hr (hrest.mpr ⟨i - 4 * (n / 4), by omega, by
          rw [show 4 * (n / 4) + (i - 4 * (n / 4)) = i by omega]; exact h⟩)

theorem blockFindSIMD_ne_uncertain (bs : BitSetSIMD) (start size n value : Nat) :
    bs.blockFindSIMD start size n value ≠ .uncertain := by
  unfold blockFindSIMD
  split
  · simp
  · split <;> simp

/-- The slots hold an ascending list of positive values, and zeros behind it. -/
structure HoldsSorted (bs : BitSetSIMD) (start size n : Nat) (values : List Nat) : Prop where
  size_pos : 1 ≤ size
  size_le : size ≤ 32
  within : start + size * n ≤ bs.bitLength
  length_le : values.length ≤ n
  sorted : values.Pairwise (· ≤ ·)
  pos : ∀ v ∈ values, 1 ≤ v
  slot : ∀ i < n, field bs.bit (start + i * size) size = values.getD i 0

namespace HoldsSorted

variable {bs : BitSetSIMD} {start size n : Nat} {values : List Nat}
  (h : HoldsSorted bs start size n values)
include h

theorem blockGet_slot {i : Nat} (hi : i < n) :
    bs.blockGet (start + i * size) size = values.getD i 0 := by
  rw [blockGet_eq _ h.size_pos h.size_le, h.slot i hi]

/-- Some slot holds a positive value exactly when it is one of the list. -/
theorem exists_slot_iff {value : Nat} (hv : 1 ≤ value) :
    (∃ i < n, bs.blockGet (start + i * size) size = value) ↔ value ∈ values := by
  constructor
  · rintro ⟨i, hi, heq⟩
    rw [h.blockGet_slot hi] at heq
    -- the slots behind the list hold zero
    have hlt : i < values.length := by
      by_contra hge
      rw [List.getD_eq_default _ _ (by omega)] at heq
      omega
    rw [← heq, List.getD_eq_getElem _ _ hlt]
    exact List.getElem_mem hlt
  · intro hmem
    obtain ⟨i, hi, heq⟩ := List.getElem_of_mem hmem
    have hin : i < n := Nat.lt_of_lt_of_le hi h.length_le
    exact ⟨i, hin, by rw [h.blockGet_slot hin, List.getD_eq_getElem _ _ hi, heq]⟩

/-- The scalar search does not stop too early: all slots before the first one with the
    value hold smaller ones. -/
theorem blockFind_iff {value : Nat} (hv : 1 ≤ value) :
    bs.blockFind start size n value = .neighbor ↔ value ∈ values := by
  rw [blockFind_eq_neighbor_iff, ← h.exists_slot_iff hv]
  constructor
  · rintro ⟨i, hi, heq, -⟩
    exact ⟨i, hi, heq⟩
  · intro hexists
    -- the first slot that holds the value
    have hfirst := Nat.find_spec hexists
    have hmin := fun j => @Nat.find_min _ _ hexists j
    generalize Nat.find hexists = i at hfirst hmin
    obtain ⟨hi, heq⟩ := hfirst
    refine ⟨i, hi, heq, fun j hj => ?_⟩
    have hne : bs.blockGet (start + j * size) size ≠ value := fun heq' =>
      hmin j hj ⟨by omega, heq'⟩
    rw [h.blockGet_slot (by omega)] at hne ⊢
    rw [h.blockGet_slot hi] at heq
    have hlt : i < values.length := by
      by_contra hge
      rw [List.getD_eq_default _ _ (by omega)] at heq
      omega
    have hle := List.pairwise_iff_getElem.mp h.sorted j i (by omega) hlt hj
    rw [List.getD_eq_getElem _ _ hlt] at heq
    rw [List.getD_eq_getElem _ _ (by omega)] at hne ⊢
    omega

end HoldsSorted

/-- The two searches agree on ascending slots, and both find exactly what was stored. -/
theorem blockFindSIMD_eq_blockFind {bs : BitSetSIMD} {start size n : Nat} {values : List Nat}
    (h : HoldsSorted bs start size n values) {value : Nat} (hv : 1 ≤ value) :
    bs.blockFindSIMD start size n value = bs.blockFind start size n value ∧
      (bs.blockFind start size n value = .neighbor ↔ value ∈ values) := by
  have hscalar := h.blockFind_iff hv
  have hvector := (blockFindSIMD_eq_neighbor_iff bs start size n hv).trans (h.exists_slot_iff hv)
  have hne := bs.blockFind_ne_uncertain start size n value
  have hne' := bs.blockFindSIMD_ne_uncertain start size n value
  refine ⟨?_, hscalar⟩
  rw [← hscalar] at hvector
  generalize bs.blockFind start size n value = found at *
  generalize bs.blockFindSIMD start size n value = found' at *
  cases found <;> cases found' <;> simp_all

/-- Two values across the bounds of bytes, and an empty slot. -/
theorem blockFindSIMD_eq_blockFind_two :
    HoldsSorted (⟨[0x00, 0x35, 0x80, 0x00]⟩ : BitSetSIMD) 7 5 3 [3, 11] ∧
      (⟨[0x00, 0x35, 0x80, 0x00]⟩ : BitSetSIMD).blockFindSIMD 7 5 3 11 = .neighbor := by
  have h : HoldsSorted (⟨[0x00, 0x35, 0x80, 0x00]⟩ : BitSetSIMD) 7 5 3 [3, 11] :=
    ⟨by decide, by decide, by decide, by decide, by decide, by decide, by decide⟩
  obtain ⟨heq, hiff⟩ := @blockFindSIMD_eq_blockFind _ _ _ _ _ h 11 (by decide)
  exact ⟨h, heq.trans (hiff.mpr (by decide))⟩

end BitSetSIMD

end Vend
