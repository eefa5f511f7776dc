import Mathlib.Order.Lattice
import Mathlib.Data.List.Basic

/-! # Searching an ascending list

    A search that goes through a list from the front and gives up at the first element that
    is larger than the value. On an ascending list it finds exactly the elements
    (`found_iff`). Elements behind the list do not matter as long as none of them is larger
    than all of the list and not below the value (`found_append`): padding with zeros, or
    with the last element once more.
-/

namespace OrderedSearch

variable {α : Type*} [LinearOrder α]

/-- Whether the search ends at the value. -/
def found (value : α) : List α → Bool
  | [] => false
  | x :: xs => if value = x then true else if value < x then false else found value xs

variable {value : α}

@[simp] theorem found_nil : found value [] = false := rfl

theorem found_cons_self (xs : List α) : found value (value :: xs) = true := if_pos rfl

theorem found_cons_of_lt {x : α} (h : value < x) (xs : List α) : found value (x :: xs) = false := by
  rw [found, if_neg (ne_of_lt h), if_pos h]

theorem found_cons_of_gt {x : α} (h : x < value) (xs : List α) :
    found value (x :: xs) = found value xs := by
  rw [found, if_neg (ne_of_gt h), if_neg (not_lt_of_gt h)]

theorem mem_of_found {xs : List α} (h : found value xs = true) : value ∈ xs := by
  induction xs with
  | nil => cases h
  | cons x xs ih =>
    rcases lt_trichotomy value x with hlt | rfl | hgt
    · rw [found_cons_of_lt hlt] at h
      cases h
    · exact List.mem_cons_self
    · rw [found_cons_of_gt hgt] at h
      exact List.mem_cons_of_mem _ (ih h)

theorem found_iff {xs : List α} (hsorted : xs.Pairwise (· ≤ ·)) :
    found value xs = true ↔ value ∈ xs := by
  refine ⟨mem_of_found, fun hmem => ?_⟩
  induction xs with
  | nil => cases hmem
  | cons x xs ih =>
    obtain ⟨hhead, htail⟩ := List.pairwise_cons.mp hsorted
    rcases List.mem_cons.mp hmem with rfl | hmem'
    · exact found_cons_self xs
    · -- the head is not larger than the value behind it
      rcases lt_or_eq_of_le (hhead value hmem') with hlt | rfl
      · rw [found_cons_of_gt hlt]
        exact ih htail hmem'
      · exact found_cons_self xs

theorem found_eq_false_of_lt {ys : List α} (h : ∀ y ∈ ys, y < value) : found value ys = false := by
  induction ys with
  | nil => rfl
  | cons y ys ih =>
    rw [found_cons_of_gt (h y List.mem_cons_self)]
    exact ih fun y' hy' => h y' (List.mem_cons_of_mem _ hy')

/-- What stands behind the list is not looked at or is passed over. -/
theorem found_append {xs ys : List α} (h : ∀ y ∈ ys, y < value ∨ ∃ x ∈ xs, y ≤ x) :
    found value (xs ++ ys) = found value xs := by
  induction xs with
  | nil =>
    apply found_eq_false_of_lt
    intro y hy
    rcases h y hy with hlt | ⟨x, hx, -⟩
    · exact hlt
    · cases hx
  | cons x xs ih =>
    rw [List.cons_append]
    rcases lt_trichotomy value x with hlt | rfl | hgt
    · rw [found_cons_of_lt hlt, found_cons_of_lt hlt]
    · rw [found_cons_self, found_cons_self]
    · rw [found_cons_of_gt hgt, found_cons_of_gt hgt]
      apply ih
      intro y hy
      rcases h y hy with hy' | ⟨x', hx', hle⟩
      · exact Or.inl hy'
      · rcases List.mem_cons.mp hx' with rfl | hx'
        · exact Or.inl (lt_of_le_of_lt hle hgt)
        · exact Or.inr ⟨x', hx', hle⟩

end OrderedSearch
