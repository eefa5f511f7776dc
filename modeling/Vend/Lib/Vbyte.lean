import Mathlib.Algebra.GroupWithZero.Nat
import Mathlib.Data.Nat.Bitwise
import Mathlib.Tactic.Ring

/-! # Groups of seven bits

    A number is written in bytes of seven payload bits each, the highest group first; the
    top bit is set in every byte but the last. `encode n v` writes the lowest `n + 1` groups
    of `v`, and reading gives back what these groups hold (`decode_encode`), whatever stands
    behind them. Several numbers are written one behind the other, each in a number of
    bytes of its own (`stream`).
-/

namespace Vbyte

/-! ## Section 1: One number -/

/-- Group `k` of seven bits, from the lowest on. -/
def group (v k : Nat) : Nat := v / 128 ^ k % 128

/-- The lowest `n + 1` groups. -/
def encode : Nat → Nat → List (BitVec 8)
  | 0, v => [BitVec.ofNat 8 (group v 0)]
  | n + 1, v => BitVec.ofNat 8 (128 + group v (n + 1)) :: encode n v

/-- Collect groups up to a byte without the top bit: the number and the bytes behind it. -/
def decode : Nat → List (BitVec 8) → Option (Nat × List (BitVec 8))
  | _, [] => none
  | acc, b :: bytes =>
    if b.toNat < 128 then some (acc * 128 + b.toNat % 128, bytes)
    else decode (acc * 128 + b.toNat % 128) bytes

theorem group_lt (v k : Nat) : group v k < 128 := Nat.mod_lt _ (by decide)

@[simp] theorem length_encode (n v : Nat) : (encode n v).length = n + 1 := by
  induction n with
  | zero => rfl
  | succ n ih => rw [encode, List.length_cons, ih]

/-- The groups of a number add up to it. -/
theorem mod_pow_succ (v n : Nat) :
    v % 128 ^ (n + 1) = group v n * 128 ^ n + v % 128 ^ n := by
  rw [pow_succ, Nat.mod_mul, group]
  ring

theorem decode_encode (acc n v : Nat) (bytes : List (BitVec 8)) :
    decode acc (encode n v ++ bytes) = some (acc * 128 ^ (n + 1) + v % 128 ^ (n + 1), bytes) := by
  induction n generalizing acc with
  | zero =>
    have hlt := group_lt v 0
    have hbyte : (BitVec.ofNat 8 (group v 0)).toNat = group v 0 := by
      rw [BitVec.toNat_ofNat]
      exact Nat.mod_eq_of_lt (by omega)
    rw [encode, List.singleton_append, decode, hbyte, if_pos hlt, Nat.mod_eq_of_lt hlt, group]
    simp
  | succ n ih =>
    have hlt := group_lt v (n + 1)
    have hbyte : (BitVec.ofNat 8 (128 + group v (n + 1))).toNat = 128 + group v (n + 1) := by
      rw [BitVec.toNat_ofNat]
      exact Nat.mod_eq_of_lt (by omega)
    rw [encode, List.cons_append, decode, hbyte, if_neg (by omega), ih,
      show (128 + group v (n + 1)) % 128 = group v (n + 1) by omega, mod_pow_succ v (n + 1)]
    congr 2
    ring

/-- Reading goes on, and what is collected only grows. -/
theorem le_of_decode {acc x : Nat} {ptr bytes : List (BitVec 8)}
    (h : decode acc ptr = some (x, bytes)) :
    acc * 128 + (ptr.headD 0).toNat % 128 ≤ x ∧ bytes.length < ptr.length := by
  induction ptr generalizing acc with
  | nil => cases h
  | cons b ptr ih =>
    rw [decode] at h
    split at h
    · cases h
      exact ⟨Nat.le_refl _, Nat.lt_succ_self _⟩
    · obtain ⟨hle, hlt⟩ := ih h
      rw [List.headD_cons, List.length_cons]
      omega

/-! ## Section 2: A sequence of numbers -/

/-- The numbers one behind the other, each in `size v + 1` bytes. -/
def stream (size : Nat → Nat) (values : List Nat) : List (BitVec 8) :=
  values.flatMap fun v => encode (size v) v

@[simp] theorem stream_nil (size : Nat → Nat) : stream size [] = [] := rfl

@[simp] theorem stream_cons (size : Nat → Nat) (v : Nat) (values : List Nat) :
    stream size (v :: values) = encode (size v) v ++ stream size values := rfl

theorem stream_append (size : Nat → Nat) (values values' : List Nat) :
    stream size (values ++ values') = stream size values ++ stream size values' :=
  List.flatMap_append

@[simp] theorem length_stream (size : Nat → Nat) (values : List Nat) :
    (stream size values).length = (values.map fun v => size v + 1).sum := by
  induction values with
  | nil => rfl
  | cons v values ih => rw [stream_cons, List.length_append, length_encode, ih]; rfl

end Vbyte
