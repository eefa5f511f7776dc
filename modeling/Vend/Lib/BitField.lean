import Mathlib.Data.Nat.Bitwise
import Mathlib.Tactic.Ring

/-! # Big-endian bit fields

    A sequence of bits is a function `f : Nat → Bool`; bit `0` comes first
    and the first bit of a field is its most significant one.

    * `field f start size` reads the field of `size` bits at `start`.
    * `store f start size v` overwrites that field with `v`.
    * `byteBit data` is the bit sequence of a list of bytes, the most
      significant bit of each byte first.

    Reads and writes are related through `testBit_field`, so callers never
    need the recursion of `field`.
-/

namespace BitField

/-! ## Section 1: Fields of a bit sequence -/

/-- The value of the `size` bits of `f` from `start` on. -/
def field (f : Nat → Bool) (start : Nat) : Nat → Nat
  | 0 => 0
  | size + 1 => 2 * field f start size + (f (start + size)).toNat

/-- Overwrite the field of `size` bits at `start` with `v`. -/
def store (f : Nat → Bool) (start size v : Nat) : Nat → Bool :=
  fun p => if start ≤ p ∧ p < start + size then v.testBit (start + size - 1 - p) else f p

theorem field_lt (f : Nat → Bool) (start size : Nat) :
    field f start size < 2 ^ size := by
  induction size with
  | zero => simp [field]
  | succ size ih =>
    have hbit : (f (start + size)).toNat ≤ 1 := Bool.toNat_le _
    have hpow : 2 ^ (size + 1) = 2 * 2 ^ size := by ring
    simp only [field]
    omega

/-- A field splits at any inner position. -/
theorem field_add (f : Nat → Bool) (start s t : Nat) :
    field f start (s + t) = field f start s * 2 ^ t + field f (start + s) t := by
  induction t with
  | zero => simp [field]
  | succ t ih =>
    rw [← Nat.add_assoc]
    simp only [field, ih, pow_succ, Nat.add_assoc]
    ring

/-- The end of a field holds its low bits. -/
theorem field_low (f : Nat → Bool) (start s t : Nat) :
    field f (start + s) t = field f start (s + t) % 2 ^ t := by
  have hlt := field_lt f (start + s) t
  rw [field_add, Nat.mul_comm, Nat.mul_add_mod, Nat.mod_eq_of_lt hlt]

theorem field_congr {f g : Nat → Bool} {start size : Nat}
    (h : ∀ p, start ≤ p → p < start + size → f p = g p) :
    field f start size = field g start size := by
  induction size with
  | zero => rfl
  | succ size ih =>
    simp only [field]
    rw [ih fun p h₁ h₂ => h p h₁ (by omega), h (start + size) (by omega) (by omega)]

/-- The bits of a field, least significant first. -/
theorem testBit_field (f : Nat → Bool) (start size i : Nat) :
    (field f start size).testBit i = (decide (i < size) && f (start + size - 1 - i)) := by
  induction size generalizing i with
  | zero => simp [field]
  | succ size ih =>
    simp only [field]
    cases i with
    | zero =>
      have hidx : start + (size + 1) - 1 - 0 = start + size := by omega
      rw [Nat.testBit_zero, hidx]
      cases f (start + size) <;> simp [Nat.add_mod]
    | succ i =>
      have hdiv : (2 * field f start size + (f (start + size)).toNat) / 2 =
          field f start size := by
        have hbit : (f (start + size)).toNat ≤ 1 := Bool.toNat_le _
        omega
      rw [Nat.testBit_succ, hdiv, ih]
      have hidx : start + (size + 1) - 1 - (i + 1) = start + size - 1 - i := by omega
      rw [hidx]
      simp

/-- A field whose bits are those of `v` reads `v`. -/
theorem field_eq_of_testBit {f : Nat → Bool} {start size v : Nat} (hv : v < 2 ^ size)
    (h : ∀ p, start ≤ p → p < start + size → f p = v.testBit (start + size - 1 - p)) :
    field f start size = v := by
  apply Nat.eq_of_testBit_eq
  intro i
  rw [testBit_field]
  by_cases hi : i < size
  · rw [h _ (by omega) (by omega)]
    have hidx : start + size - 1 - (start + size - 1 - i) = i := by omega
    simp [hi, hidx]
  · have hbig : v < 2 ^ i :=
      Nat.lt_of_lt_of_le hv (Nat.pow_le_pow_right (by omega) (by omega))
    simp [hi, Nat.testBit_lt_two_pow hbig]

@[simp] theorem field_store_self (f : Nat → Bool) {start size v : Nat} (hv : v < 2 ^ size) :
    field (store f start size v) start size = v := by
  apply field_eq_of_testBit hv
  intro p h₁ h₂
  simp [store, h₁, h₂]

theorem store_outside (f : Nat → Bool) {start size v p : Nat}
    (h : p < start ∨ start + size ≤ p) : store f start size v p = f p := by
  have hnot : ¬ (start ≤ p ∧ p < start + size) := by omega
  simp [store, hnot]

/-- Writing one field leaves every disjoint field alone. -/
theorem field_store_disjoint (f : Nat → Bool) {start size v start' size' : Nat}
    (h : start' + size' ≤ start ∨ start + size ≤ start') :
    field (store f start size v) start' size' = field f start' size' := by
  apply field_congr
  intro p h₁ h₂
  exact store_outside f (by omega)

/-- Cell `i` of an array of fields of `size` bits each. -/
def cell (f : Nat → Bool) (size i : Nat) : Nat := field f (i * size) size

theorem cell_store (f : Nat → Bool) {size i v : Nat} (hv : v < 2 ^ size) (j : Nat) :
    cell (store f (i * size) size v) size j = if j = i then v else cell f size j := by
  unfold cell
  split
  next heq => rw [heq, field_store_self f hv]
  next hne =>
    -- distinct cells do not overlap
    apply field_store_disjoint
    rcases Nat.lt_or_gt_of_ne hne with hlt | hgt
    · left
      have := Nat.mul_le_mul_right size hlt
      rw [Nat.succ_mul] at this
      omega
    · right
      have := Nat.mul_le_mul_right size hgt
      rw [Nat.succ_mul] at this
      omega

theorem field_eq_zero {f : Nat → Bool} {start size : Nat}
    (h : ∀ p, start ≤ p → p < start + size → f p = false) : field f start size = 0 := by
  apply field_eq_of_testBit (Nat.two_pow_pos size)
  intro p h₁ h₂
  simp [h p h₁ h₂]

/-! ## Section 2: Bits of a byte list -/

/-- Bit `p` of a byte list, the most significant bit of a byte first. -/
def byteBit (data : List (BitVec 8)) (p : Nat) : Bool :=
  (data.getD (p / 8) 0).getLsbD (7 - p % 8)

/-- A field inside byte `i` is a shifted slice of that byte. -/
theorem field_within (data : List (BitVec 8)) {i m s : Nat} (h : m + s ≤ 8) :
    field (byteBit data) (8 * i + m) s = ((data.getD i 0).toNat >>> (8 - m - s)) % 2 ^ s := by
  apply Nat.eq_of_testBit_eq
  intro j
  rw [testBit_field, Nat.testBit_mod_two_pow, Nat.testBit_shiftRight]
  by_cases hj : j < s
  · have hdiv : (8 * i + m + s - 1 - j) / 8 = i := by omega
    have hmod : 7 - (8 * i + m + s - 1 - j) % 8 = 8 - m - s + j := by omega
    simp [byteBit, hj, hdiv, hmod, BitVec.getLsbD]
  · simp [hj]

theorem field_byte (data : List (BitVec 8)) (i : Nat) :
    field (byteBit data) (8 * i) 8 = (data.getD i 0).toNat := by
  have h := field_within data (i := i) (m := 0) (s := 8) (by omega)
  have hlt : (data.getD i 0).toNat < 2 ^ 8 := (data.getD i 0).isLt
  rw [Nat.add_zero, Nat.sub_zero, Nat.sub_self, Nat.shiftRight_zero, Nat.mod_eq_of_lt hlt] at h
  exact h

/-- Replacing byte `i` changes only the bits of that byte. -/
theorem byteBit_set (data : List (BitVec 8)) {i : Nat} (b : BitVec 8) (hi : i < data.length)
    (p : Nat) :
    byteBit (data.set i b) p = if p / 8 = i then b.getLsbD (7 - p % 8) else byteBit data p := by
  unfold byteBit
  by_cases hp : p / 8 = i
  · simp [hp, List.getD_eq_getElem?_getD, hi]
  · have hne : ¬ i = p / 8 := fun h => hp h.symm
    simp [hp, List.getD_eq_getElem?_getD, hne]

end BitField
