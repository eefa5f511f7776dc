import Vend.Util.BitSetSIMD

/-! # Where `BlockSet` stores a field

    `util/bitset_simd.h` uses one class for the record of a vertex and for the bitset of a
    whole graph. `BlockSet` keeps the index of the first byte of a field in a `uint8_t`,
    so in a bitset of more than 256 bytes the first byte of a field is looked for at its
    index modulo 256, while the last byte and the inner bytes are found.

    `blockSet_stores_iff` says which fields are stored all the same: those behind byte 255
    that begin a byte and end in it, since there the last byte is all there is to write.
-/

namespace Vend

namespace BitSetSIMD

open BitField

/-! ## Section 1: Fields behind byte 255 -/

/-- In a bitset of `bytes` bytes every value of the field reads back and no bit outside the
    field changes. -/
def BlockStores (bytes start size : Nat) : Prop :=
  ∀ bs : BitSetSIMD, bs.data.length = bytes → ∀ value < 2 ^ size,
    (bs.blockSet start size value).blockGet start size = value ∧
    ∀ p < 8 * bytes, ¬ (start ≤ p ∧ p < start + size) →
      (bs.blockSet start size value).isOne p = bs.isOne p

theorem blockStores_of_store {bytes start size : Nat} (hpos : 1 ≤ size) (hle : size ≤ 32)
    (h : ∀ bs : BitSetSIMD, bs.data.length = bytes → ∀ value < 2 ^ size,
      (bs.blockSet start size value).bit = store bs.bit start size value) :
    BlockStores bytes start size := by
  intro bs hlen value hv
  have hbit := h bs hlen value hv
  constructor
  · rw [blockGet_eq _ hpos hle, hbit, field_store_self _ hv]
  · intro p _ hout
    rw [isOne_eq_bit, isOne_eq_bit, hbit, store_outside _ (by omega)]

/-- A field of one byte that begins the byte: nothing is left to write when the last byte
    is done. -/
theorem bit_blockSet_aligned (bs : BitSetSIMD) {start size value : Nat} (hbyte : 256 ≤ start / 8)
    (hmod : start % 8 = 0) (hpos : 1 ≤ size) (hle : size ≤ 8) (hlen : start + size ≤ bs.bitLength)
    (hv : value < 2 ^ size) :
    (bs.blockSet start size value).bit = store bs.bit start size value := by
  unfold bitLength at hlen
  have hend : (start + size - 1) / 8 = start / 8 := by omega
  have hleft : 7 - (start + size - 1) % 8 = 8 - size := by omega
  have hrest : (size + 2 ^ 32 - (8 - (8 - size))) % 2 ^ 32 = 0 := by omega
  have hvalue : value >>> (8 - (8 - size)) = 0 := by
    rw [Nat.shiftRight_eq_div_pow, show 8 - (8 - size) = size by omega]
    exact Nat.div_eq_of_lt hv
  have hne : start / 8 % 256 ≠ start / 8 := by omega
  funext p
  unfold blockSet
  simp only [shiftRight_three, hend, hleft, hrest, if_pos hne, blockSetLoop, hvalue, hmod]
  -- the byte that is taken for the first one is written as it was
  have hsame : ∀ b : Byte, b &&& (zeroBlockMask.getD 0 []).getD 0 0 ||| BitVec.ofNat 8 0 = b := by
    decide +kernel
  rw [hsame]
  have hkeep : ∀ (x : BitSetSIMD) (i : Nat), i < x.data.length →
      (x.setByte i (x.byte i)).bit p = x.bit p := by
    intro x i hi
    rw [bit_setByte _ _ hi]
    split
    · rename_i hp
      rw [← hp, ← bit_eq_getLsbD]
    · rfl
  rw [hkeep _ _ (by rw [length_setByte]; omega), bit_setByte _ _ (by omega)]
  by_cases hp : p / 8 = start / 8
  · have hj : 7 - p % 8 < 8 := by omega
    rw [if_pos hp, BitVec.getLsbD_or, BitVec.getLsbD_and, getLsbD_leftOneMask (by omega) hj,
      getLsbD_ofNat_shiftLeft _ _ hj, ← hp, ← bit_eq_getLsbD]
    by_cases hin : p < start + size
    · have hidx : 7 - p % 8 - (8 - size) = start + size - 1 - p := by omega
      have hge : 8 - size ≤ 7 - p % 8 := by omega
      have hin' : start ≤ p ∧ p < start + size := by omega
      simp [store, hin', hidx, hge, Nat.not_lt.mpr hge]
    · have hlt : 7 - p % 8 < 8 - size := by omega
      rw [store_outside _ (by omega)]
      simp [hlt, Nat.not_le.mpr hlt]
  · rw [if_neg hp, store_outside _ (by omega)]

/-! ## Section 2: Fields that are lost -/

/-- A field over several bytes: the first byte keeps its bits. -/
theorem bit_blockSet_first (bs : BitSetSIMD) {start size value : Nat} (hbyte : 256 ≤ start / 8)
    (hmore : 8 < start % 8 + size) (hle : size ≤ 32) (hlen : start + size ≤ bs.bitLength) :
    (bs.blockSet start size value).bit start = bs.bit start := by
  unfold bitLength at hlen
  obtain ⟨bs', hlen', heq, hbit⟩ := blockSet_spanning bs value (by omega) (by omega) (by omega) hlen
  -- the index of the first byte is cut, so its bits go to another byte
  rw [heq, bit_setByte _ _ (by omega), if_neg (by omega), hbit, if_neg (by omega),
    if_neg (by omega)]

/-- The inner loop never sets a bit when it writes zeros. -/
theorem bit_blockSetLoop_zero (fuel : Nat) (bs : BitSetSIMD) {e size p : Nat}
    (hlen : e ≤ bs.data.length) (hpos : 0 < bs.data.length) (hp : bs.bit p = false) :
    (blockSetLoop fuel bs e size 0).1.bit p = false := by
  induction fuel generalizing bs e size with
  | zero => exact hp
  | succ fuel ih =>
    rw [blockSetLoop]
    split
    · rw [Nat.zero_shiftRight]
      apply ih
      · rw [length_setByte]
        omega
      · rw [length_setByte]
        exact hpos
      · rw [bit_setByte _ _ (by omega)]
        split
        · simp
        · exact hp
    · exact hp

/-- A field inside one byte behind its first bit: the number of bits left wraps around, and
    the loop goes on writing bytes in front of the field. -/
theorem bit_blockSet_before (bs : BitSetSIMD) {start size : Nat} (hbyte : 256 ≤ start / 8)
    (hmod : start % 8 ≠ 0) (hone : start % 8 + size ≤ 8) (hpos : 1 ≤ size)
    (hlen : start + size ≤ bs.bitLength) :
    (bs.blockSet start size 0).bit (8 * (start / 8) - 1) = false := by
  unfold bitLength at hlen
  have hend : (start + size - 1) / 8 = start / 8 := by omega
  have hne : start / 8 % 256 ≠ start / 8 := by omega
  obtain ⟨fuel, hrest⟩ : ∃ fuel, (size + 2 ^ 32 - (8 - (7 - (start + size - 1) % 8))) % 2 ^ 32 =
      fuel + 1 ∧ 8 < fuel + 1 :=
    ⟨2 ^ 32 - start % 8 - 1, by omega, by omega⟩
  unfold blockSet
  simp only [shiftRight_three, hend, if_pos hne, hrest.1, blockSetLoop, if_pos hrest.2,
    Nat.zero_shiftRight]
  rw [bit_setByte _ _ (by rw [length_blockSetLoop]; simp only [length_setByte]; omega),
    if_neg (by omega)]
  apply bit_blockSetLoop_zero
  · simp only [length_setByte]
    omega
  · simp only [length_setByte]
    omega
  · rw [bit_setByte _ _ (by rw [length_setByte]; omega), if_pos (by omega)]
    simp

/-! ## Section 3: Which fields are stored -/

theorem isOne_replicate_ones {bytes p : Nat} (hp : p < 8 * bytes) :
    (⟨List.replicate bytes 0xFF⟩ : BitSetSIMD).isOne p = true := by
  have hones : ∀ j < 8, (0xFF : Byte).getLsbD j = true := by decide
  rw [isOne_eq_bit, bit_eq_getLsbD, byte, List.getD_eq_getElem _ _ (by simp; omega),
    List.getElem_replicate]
  exact hones _ (by omega)

/-- A field is stored exactly when it begins in one of the first 256 bytes, or begins a
    byte and ends in it. -/
theorem blockSet_stores_iff {bytes start size : Nat} (hpos : 1 ≤ size) (hle : size ≤ 32)
    (hlen : start + size ≤ 8 * bytes) :
    BlockStores bytes start size ↔ start < 2048 ∨ (start % 8 = 0 ∧ size ≤ 8) := by
  constructor
  · intro hstores
    by_contra hnot
    have hbyte : 256 ≤ start / 8 := by omega
    rcases Nat.lt_or_ge 8 (start % 8 + size) with hmore | hone
    · -- the first bit of a field of ones stays zero in a cleared bitset
      have hlength : (ofBitSize (8 * bytes)).data.length = bytes := by simp
      have hget := (hstores _ hlength (2 ^ size - 1) (by have := Nat.two_pow_pos size; omega)).1
      have hfirst : ((ofBitSize (8 * bytes)).blockSet start size (2 ^ size - 1)).bit start = _ :=
        bit_blockSet_first _ hbyte hmore hle (by unfold bitLength; omega)
      have htop := congrArg (fun v => v.testBit (size - 1)) hget
      simp only [blockGet_eq _ hpos hle, testBit_field, Nat.testBit_two_pow_sub_one] at htop
      rw [show start + size - 1 - (size - 1) = start by omega, hfirst, bit_ofBitSize] at htop
      simp [show size - 1 < size by omega] at htop
    · -- the bit in front of the byte is cleared in a bitset of ones
      have hlength : (⟨List.replicate bytes 0xFF⟩ : BitSetSIMD).data.length = bytes := by simp
      have hother := (hstores _ hlength 0 (Nat.two_pow_pos size)).2 (8 * (start / 8) - 1)
        (by omega) (by omega)
      rw [isOne_replicate_ones (by omega), isOne_eq_bit,
        bit_blockSet_before _ hbyte (by omega) hone hpos (by unfold bitLength; omega)] at hother
      cases hother
  · intro hwhere
    apply blockStores_of_store hpos hle
    intro bs hlength value hv
    have hbits : start + size ≤ bs.bitLength := by
      unfold bitLength
      omega
    by_cases hsmall : start / 8 < 256
    · exact bit_blockSet bs hsmall hpos (by omega) hbits hv
    · obtain ⟨hmod, hsize⟩ := hwhere.resolve_left (by omega)
      exact bit_blockSet_aligned bs (by omega) hmod hpos hsize hbits hv

theorem blockSet_stores_iff_header :
    BlockStores 4 3 5 ↔ 3 < 2048 ∨ (3 % 8 = 0 ∧ 5 ≤ 8) :=
  blockSet_stores_iff (by decide) (by decide) (by decide)

/-- A field over bytes 256 and 257: its leading four bits are lost, and byte 0 changes. -/
theorem field_of_byte_256_lost :
    (ofBitSize 2080).data.length = 260 ∧ 2052 + 8 ≤ 8 * 260 ∧ 255 < 2 ^ 8 ∧
    ((ofBitSize 2080).blockSet 2052 8 255).blockGet 2052 8 = 15 ∧
    (ofBitSize 2080).isOne 4 = false ∧
    ((ofBitSize 2080).blockSet 2052 8 255).isOne 4 = true := by
  decide +kernel

end BitSetSIMD

end Vend
