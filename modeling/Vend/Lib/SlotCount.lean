import Mathlib.Data.Finset.Card
import Mathlib.Data.Finset.Range
import Mathlib.Data.List.Count
import Mathlib.Data.List.GetD

/-! # Counting the hits of slots

    An array has one counter for each slot, and a list names the slots that were hit,
    with repetitions. `Counts` says that every counter holds the number of hits of its
    slot. A hit raises one counter, and a hit that is taken back lowers it again, in any
    order. The slots that are hit are counted by `used`, and `used_cons` says when a hit
    reaches a new one.
-/

namespace SlotCount

/-! ## Section 1: Counters -/

/-- Counter `i` holds the number of hits of slot `i`. -/
structure Counts (xs : List Nat) (size : Nat) (hits : List Nat) : Prop where
  size_le : size ≤ xs.length
  getD_eq : ∀ i < size, xs.getD i 0 = hits.count i

theorem counts_replicate {size n : Nat} (h : size ≤ n) : Counts (List.replicate n 0) size [] := by
  refine ⟨by rw [List.length_replicate]; exact h, fun i hi => ?_⟩
  simp [List.getD_eq_getElem?_getD, show i < n by omega]

variable {xs hits hits' : List Nat} {size v : Nat}

/-- The order of the hits does not matter. -/
theorem Counts.perm (h : Counts xs size hits) (hperm : hits.Perm hits') : Counts xs size hits' :=
  ⟨h.size_le, fun i hi => (h.getD_eq i hi).trans (hperm.count_eq i)⟩

theorem getD_set (xs : List Nat) {v : Nat} (hv : v < xs.length) (a i : Nat) :
    (xs.set v a).getD i 0 = if i = v then a else xs.getD i 0 := by
  by_cases hi : i = v
  · subst hi
    simp [List.getD_eq_getElem?_getD, hv]
  · have hne : v ≠ i := fun heq => hi heq.symm
    simp [List.getD_eq_getElem?_getD, hi, hne]

/-- A hit raises the counter of its slot. -/
theorem Counts.add (h : Counts xs size hits) (hv : v < size) :
    Counts (xs.set v (xs.getD v 0 + 1)) size (v :: hits) := by
  have hle := h.size_le
  refine ⟨by rw [List.length_set]; exact hle, fun i hi => ?_⟩
  rw [getD_set xs (by omega), List.count_cons]
  by_cases hiv : i = v
  · subst hiv
    rw [if_pos rfl, h.getD_eq i hi]
    simp
  · have hne : (v == i) = false := by simpa using fun heq : v = i => hiv heq.symm
    rw [if_neg hiv, h.getD_eq i hi, hne]
    rfl

/-- A hit that is taken back lowers it. -/
theorem Counts.remove (h : Counts xs size (v :: hits)) (hv : v < size) :
    Counts (xs.set v (xs.getD v 0 - 1)) size hits := by
  have hle := h.size_le
  refine ⟨by rw [List.length_set]; exact hle, fun i hi => ?_⟩
  have hget := h.getD_eq i hi
  rw [List.count_cons] at hget
  rw [getD_set xs (by omega)]
  by_cases hiv : i = v
  · subst hiv
    rw [if_pos rfl, hget]
    simp
  · have hne : (v == i) = false := by simpa using fun heq : v = i => hiv heq.symm
    rw [if_neg hiv, hget, hne]
    rfl

theorem Counts.getD_eq_zero_iff (h : Counts xs size hits) (hv : v < size) :
    xs.getD v 0 = 0 ↔ v ∉ hits := by
  rw [h.getD_eq v hv, List.count_eq_zero]

/-! ## Section 2: The slots that are hit -/

/-- The number of slots that are hit. -/
def used (hits : List Nat) : Nat := hits.toFinset.card

theorem used_congr (h : ∀ i, i ∈ hits ↔ i ∈ hits') : used hits = used hits' := by
  have hset : hits.toFinset = hits'.toFinset := by
    ext i
    rw [List.mem_toFinset, List.mem_toFinset, h]
  rw [used, used, hset]

/-- A hit counts when its slot was not hit before. -/
theorem used_cons (v : Nat) (hits : List Nat) :
    used (v :: hits) = if v ∈ hits then used hits else used hits + 1 := by
  unfold used
  rw [List.toFinset_cons]
  split
  · rename_i hmem
    rw [Finset.insert_eq_of_mem (List.mem_toFinset.mpr hmem)]
  · rename_i hmem
    rw [Finset.card_insert_of_notMem (by rwa [List.mem_toFinset])]

theorem used_le_used (h : ∀ i ∈ hits, i ∈ hits') : used hits ≤ used hits' := by
  apply Finset.card_le_card
  intro i hi
  exact List.mem_toFinset.mpr (h i (List.mem_toFinset.mp hi))

theorem used_le (h : ∀ i ∈ hits, i < size) : used hits ≤ size := by
  have hsub : hits.toFinset ⊆ Finset.range size := by
    intro i hi
    exact Finset.mem_range.mpr (h i (List.mem_toFinset.mp hi))
  exact (Finset.card_le_card hsub).trans (Finset.card_range size).le

/-- The slots below `size` that are not hit. -/
def free (size : Nat) (hits : List Nat) : Nat :=
  ((Finset.range size).filter fun i => i ∉ hits).card

theorem free_add_used (h : ∀ i ∈ hits, i < size) : free size hits + used hits = size := by
  have hhit : (Finset.range size).filter (fun i => ¬ i ∉ hits) = hits.toFinset := by
    ext i
    simp only [Finset.mem_filter, Finset.mem_range, not_not, List.mem_toFinset]
    exact ⟨fun hi => hi.2, fun hi => ⟨h i hi, hi⟩⟩
  have hsplit := Finset.card_filter_add_card_filter_not (s := Finset.range size) fun i => i ∉ hits
  rw [hhit, Finset.card_range] at hsplit
  exact hsplit

theorem free_le (size : Nat) (hits : List Nat) : free size hits ≤ size :=
  (Finset.card_filter_le _ _).trans (Finset.card_range size).le

end SlotCount
