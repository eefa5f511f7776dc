import Mathlib.Algebra.Order.BigOperators.Group.Multiset
import Mathlib.Data.List.GetD

/-! # Counting filters

    A counting filter stands for a multiset of elements. Each element names counters, one
    for each hash function and some of them perhaps twice, and a counter is to hold the
    number of times it is named by the elements that are present (`incidences`).

    This file has the arithmetic of that number and, for counters in an array, the loop
    that changes every counter an element names.
-/

namespace CountingFilter

/-! ## Section 1: Incidences -/

section

variable {α : Type} (counters : α → List Nat)

/-- How often counter `i` is named by the elements that are present. -/
def incidences (present : Multiset α) (i : Nat) : Nat :=
  (present.map fun a => (counters a).count i).sum

@[simp] theorem incidences_zero (i : Nat) : incidences counters 0 i = 0 := rfl

theorem incidences_cons (a : α) (present : Multiset α) (i : Nat) :
    incidences counters (a ::ₘ present) i =
      (counters a).count i + incidences counters present i := by
  simp [incidences]

theorem incidences_erase [DecidableEq α] {a : α} {present : Multiset α} (h : a ∈ present)
    (i : Nat) : incidences counters (present.erase a) i + (counters a).count i =
      incidences counters present i := by
  have hcons := incidences_cons counters a (present.erase a) i
  rw [Multiset.cons_erase h] at hcons
  omega

theorem count_le_incidences {a : α} {present : Multiset α} (h : a ∈ present) (i : Nat) :
    (counters a).count i ≤ incidences counters present i := by
  obtain ⟨rest, rfl⟩ := Multiset.exists_cons_of_mem h
  rw [incidences_cons]
  omega

/-- A counter at zero is named by no element that is present. -/
theorem incidences_eq_zero_iff {present : Multiset α} {i : Nat} :
    incidences counters present i = 0 ↔ ∀ a ∈ present, i ∉ counters a := by
  induction present using Multiset.induction_on with
  | empty => simp
  | cons a present ih =>
    rw [incidences_cons, Nat.add_eq_zero_iff, ih, Multiset.forall_mem_cons, List.count_eq_zero]

/-- Few elements need no large counter. -/
theorem incidences_le {n : Nat} (hn : ∀ a, (counters a).length ≤ n) (present : Multiset α)
    (i : Nat) : incidences counters present i ≤ Multiset.card present * n := by
  induction present using Multiset.induction_on with
  | empty => simp
  | cons a present ih =>
    have hone : (counters a).count i ≤ n := List.count_le_length.trans (hn a)
    rw [incidences_cons, Multiset.card_cons, Nat.succ_mul]
    omega

end

/-! ## Section 2: Counters in an array -/

/-- A loop that reads one counter after the other and writes it back changed: every
    counter is changed as often as it is named. -/
theorem foldl_change (change : Nat → Nat) {idxs : List Nat} (xs : List Nat)
    (hidxs : ∀ i ∈ idxs, i < xs.length) :
    (idxs.foldl (fun xs i => xs.set i (change (xs.getD i 0))) xs).length = xs.length ∧
    ∀ j, (idxs.foldl (fun xs i => xs.set i (change (xs.getD i 0))) xs).getD j 0 =
      change^[idxs.count j] (xs.getD j 0) := by
  induction idxs generalizing xs with
  | nil => exact ⟨rfl, fun _ => rfl⟩
  | cons i idxs ih =>
    have hi := hidxs i (by simp)
    obtain ⟨hlen, hget⟩ := ih (xs.set i (change (xs.getD i 0))) (by
      intro k hk
      rw [List.length_set]
      exact hidxs k (by simp [hk]))
    rw [List.foldl_cons]
    refine ⟨by rw [hlen, List.length_set], fun j => ?_⟩
    rw [hget j]
    by_cases hj : j = i
    · subst hj
      rw [List.count_cons_self, Function.iterate_succ_apply]
      simp [List.getD_eq_getElem?_getD, hi]
    · have hne : i ≠ j := fun heq => hj heq.symm
      rw [List.count_cons_of_ne hne]
      simp [List.getD_eq_getElem?_getD, List.getElem?_set_ne hne]

/-- A decrement that passes over counters at zero is a truncated decrement. -/
theorem foldl_saturating {idxs : List Nat} (xs : List Nat) (hidxs : ∀ i ∈ idxs, i < xs.length) :
    idxs.foldl (fun xs i => if 0 < xs.getD i 0 then xs.set i (xs.getD i 0 - 1) else xs) xs =
      idxs.foldl (fun xs i => xs.set i (xs.getD i 0 - 1)) xs := by
  induction idxs generalizing xs with
  | nil => rfl
  | cons i idxs ih =>
    have hi := hidxs i (by simp)
    have hone : (if 0 < xs.getD i 0 then xs.set i (xs.getD i 0 - 1) else xs) =
        xs.set i (xs.getD i 0 - 1) := by
      split
      · rfl
      · rename_i hzero
        rw [List.getD_eq_getElem _ _ hi] at hzero ⊢
        rw [show xs[i] - 1 = xs[i] by omega, List.set_getElem_self]
    rw [List.foldl_cons, List.foldl_cons, hone]
    apply ih
    intro k hk
    rw [List.length_set]
    exact hidxs k (by simp [hk])

theorem iterate_pred (k x : Nat) : (· - 1)^[k] x = x - k := by
  induction k with
  | zero => rfl
  | succ k ih =>
    rw [Function.iterate_succ_apply', ih]
    omega

end CountingFilter
