import Mathlib.Order.Lattice
import Mathlib.Data.List.Basic

/-! # Binary search

    `std::lower_bound` and `std::binary_search` of libstdc++ on a list over any
    linear order: the search keeps a window `[first, first + len)` and halves it.
-/

namespace BinarySearch

variable {α : Type} [LinearOrder α]

/-- The loop of `std::lower_bound`, at most `fuel` rounds. -/
def lowerBoundFrom (l : List α) (val : α) : Nat → Nat → Nat → Nat
  | 0, first, _ => first
  | fuel + 1, first, len =>
    if len = 0 then first
    else
      let half := len / 2
      match l[first + half]? with
      | none => first
      | some middle =>
        if middle < val then lowerBoundFrom l val fuel (first + half + 1) (len - half - 1)
        else lowerBoundFrom l val fuel first half

/-- `std::lower_bound(l.begin(), l.end(), val)` as an index. The window shrinks in every
    round, so as many rounds as there are elements are enough. -/
def lowerBound (l : List α) (val : α) : Nat := lowerBoundFrom l val l.length 0 l.length

/-- `std::binary_search(l.begin(), l.end(), val)`. -/
def binarySearch (l : List α) (val : α) : Bool :=
  match l[lowerBound l val]? with
  | none => false
  | some x => !decide (val < x)

/-- The elements in front of `i` are below `val` and no other is. -/
def Splits (l : List α) (val : α) (i : Nat) : Prop :=
  (∀ j x, l[j]? = some x → j < i → x < val) ∧ ∀ j x, l[j]? = some x → i ≤ j → ¬ x < val

theorem getElem?_le {l : List α} (hl : l.Pairwise (· ≤ ·)) {i j : Nat} {x y : α}
    (hx : l[i]? = some x) (hy : l[j]? = some y) (hij : i ≤ j) : x ≤ y := by
  obtain ⟨hi, rfl⟩ := List.getElem?_eq_some_iff.mp hx
  obtain ⟨hj, rfl⟩ := List.getElem?_eq_some_iff.mp hy
  rcases Nat.lt_or_eq_of_le hij with hlt | rfl
  · exact List.pairwise_iff_getElem.mp hl i j hi hj hlt
  · exact le_rfl

/-- The loop closes in on the split. -/
theorem splits_lowerBoundFrom {l : List α} (hl : l.Pairwise (· ≤ ·)) (val : α) :
    ∀ fuel first len, len ≤ fuel → first + len ≤ l.length →
      (∀ j x, l[j]? = some x → j < first → x < val) →
      (∀ j x, l[j]? = some x → first + len ≤ j → ¬ x < val) →
      Splits l val (lowerBoundFrom l val fuel first len) := by
  intro fuel
  induction fuel with
  | zero =>
    intro first len hfuel _ hbelow habove
    obtain rfl : len = 0 := by omega
    exact ⟨hbelow, habove⟩
  | succ fuel ih =>
    intro first len hfuel hlen hbelow habove
    unfold lowerBoundFrom
    split
    next hzero =>
      subst hzero
      exact ⟨hbelow, habove⟩
    next hne =>
      have hlt : first + len / 2 < l.length := by omega
      obtain ⟨middle, hmiddle⟩ : ∃ middle, l[first + len / 2]? = some middle :=
        ⟨_, List.getElem?_eq_getElem hlt⟩
      simp only [hmiddle]
      split
      next hless =>
        -- everything up to the middle is below `val`
        apply ih
        · omega
        · omega
        · intro j x hx hj
          exact lt_of_le_of_lt (getElem?_le hl hx hmiddle (by omega)) hless
        · intro j x hx hj
          exact habove j x hx (by omega)
      next hnot =>
        -- nothing from the middle on is
        apply ih
        · omega
        · omega
        · exact hbelow
        · intro j x hx hj hless
          exact hnot (lt_of_le_of_lt (getElem?_le hl hmiddle hx hj) hless)

theorem splits_lowerBound {l : List α} (hl : l.Pairwise (· ≤ ·)) (val : α) :
    Splits l val (lowerBound l val) := by
  apply splits_lowerBoundFrom hl val l.length 0 l.length (Nat.le_refl _) (by omega)
  · intro j x _ hj
    omega
  · intro j x hx hj
    obtain ⟨hlt, -⟩ := List.getElem?_eq_some_iff.mp hx
    omega

/-- Binary search decides membership in a sorted list. -/
theorem binarySearch_iff {l : List α} (hl : l.Pairwise (· ≤ ·)) (val : α) :
    binarySearch l val = true ↔ val ∈ l := by
  obtain ⟨hbelow, habove⟩ := splits_lowerBound hl val
  unfold binarySearch
  constructor
  · intro hfound
    split at hfound
    · cases hfound
    next x hx =>
      have hge : ¬ x < val := habove _ x hx (Nat.le_refl _)
      have hle : ¬ val < x := by simpa using hfound
      have heq : val = x := le_antisymm (le_of_not_gt hge) (le_of_not_gt hle)
      exact heq ▸ List.mem_of_getElem? hx
  · intro hmem
    obtain ⟨j, hj⟩ := List.mem_iff_getElem?.mp hmem
    -- the split stands at or in front of an occurrence
    have hle : lowerBound l val ≤ j := by
      by_contra hlt
      exact lt_irrefl val (hbelow j val hj (by omega))
    have hlen : lowerBound l val < l.length := by
      obtain ⟨hlt, -⟩ := List.getElem?_eq_some_iff.mp hj
      omega
    have hx := List.getElem?_eq_getElem hlen
    have hge := getElem?_le hl hx hj hle
    rw [hx]
    simpa using hge

end BinarySearch
