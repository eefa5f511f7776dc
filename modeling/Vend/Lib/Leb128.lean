import Mathlib.Algebra.Order.Ring.Nat
import Mathlib.Data.BitVec

/-! # Groups of seven bits, the lowest first

    A number is written in bytes of seven payload bits each, the lowest group first, and the
    top bit is set in every byte but the last. `encode n v` writes `n + 1` groups. A reader
    stops at the first byte without the top bit, so the number of groups need not be known,
    and what stands behind the number is not looked at (`decode_encode`).
-/

namespace Leb128

/-- The lowest `n` groups and what is left of the number above them. -/
def encode : Nat → Nat → List (BitVec 8)
  | 0, v => [BitVec.ofNat 8 v]
  | n + 1, v => BitVec.ofNat 8 (128 + v % 128) :: encode n (v / 128)

/-- The number in front of some bytes, and the bytes behind it. -/
def decode : List (BitVec 8) → Option (Nat × List (BitVec 8))
  | [] => none
  | b :: bytes =>
    if b.toNat < 128 then some (b.toNat, bytes)
    else (decode bytes).map fun r => (b.toNat % 128 + 128 * r.1, r.2)

@[simp] theorem length_encode (n v : Nat) : (encode n v).length = n + 1 := by
  induction n generalizing v with
  | zero => rfl
  | succ n ih => rw [encode, List.length_cons, ih]

theorem decode_encode {n v : Nat} (h : v < 128 ^ (n + 1)) (bytes : List (BitVec 8)) :
    decode (encode n v ++ bytes) = some (v, bytes) := by
  induction n generalizing v with
  | zero =>
    have hbyte : (BitVec.ofNat 8 v).toNat = v := by
      rw [BitVec.toNat_ofNat]
      exact Nat.mod_eq_of_lt (by omega)
    rw [encode, List.singleton_append, decode, hbyte, if_pos (by omega)]
  | succ n ih =>
    have hbyte : (BitVec.ofNat 8 (128 + v % 128)).toNat = 128 + v % 128 := by
      rw [BitVec.toNat_ofNat]
      exact Nat.mod_eq_of_lt (by omega)
    have hrest : v / 128 < 128 ^ (n + 1) := by
      rw [Nat.div_lt_iff_lt_mul (by decide), ← pow_succ]
      exact h
    rw [encode, List.cons_append, decode, hbyte, if_neg (by omega), ih hrest, Option.map_some]
    congr 2
    omega

/-- What the first byte says. -/
theorem decode_cons {b : BitVec 8} {bytes rest : List (BitVec 8)} {v : Nat}
    (h : decode (b :: bytes) = some (v, rest)) :
    (b.toNat < 128 ∧ v = b.toNat ∧ rest = bytes) ∨
    (128 ≤ b.toNat ∧ ∃ v', decode bytes = some (v', rest) ∧ v = b.toNat % 128 + 128 * v') := by
  rw [decode] at h
  split at h
  next hlast =>
    cases h
    exact Or.inl ⟨hlast, rfl, rfl⟩
  next hmore =>
    obtain ⟨⟨v', rest'⟩, hrest, hv⟩ := Option.map_eq_some_iff.mp h
    cases hv
    exact Or.inr ⟨Nat.le_of_not_lt hmore, v', hrest, rfl⟩

/-- Reading goes on. -/
theorem length_lt_of_decode {bytes rest : List (BitVec 8)} {v : Nat}
    (h : decode bytes = some (v, rest)) : rest.length < bytes.length := by
  induction bytes generalizing v with
  | nil => cases h
  | cons b bytes ih =>
    rw [List.length_cons]
    rcases decode_cons h with ⟨-, -, rfl⟩ | ⟨-, v', hrest, -⟩
    · exact Nat.lt_succ_self _
    · exact Nat.lt_succ_of_lt (ih hrest)

end Leb128
