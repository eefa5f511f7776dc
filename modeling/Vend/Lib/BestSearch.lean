import Mathlib.Data.List.Basic

/-! # Searching for the best of several growing windows

    A search that looks at windows of growing size, scores each and keeps the best one.
    `grow` lists the sizes it looks at: it stops at the first size that does not fit, or
    at a limit. `keepBest` is the step that replaces the best one by a better one. The
    search ends with what it began with exactly when nothing it saw is better
    (`foldl_keepBest_eq`, `exists_foldl_keepBest`).

    A search through the indices from 0 on that keeps the first best one ends at the
    leftmost index of the largest score (`firstBest_foldl`).
-/

namespace BestSearch

/-! ## Section 1: The sizes -/

/-- The sizes from `size` on, until one does not fit or is the limit. -/
def grow (fits : Nat → Prop) [DecidablePred fits] (limit : Nat) : Nat → Nat → List Nat
  | 0, _ => []
  | rounds + 1, size =>
    if fits size then
      size :: if size = limit then [] else grow fits limit rounds (size + 1)
    else []

/-- With enough rounds the search sees every size below which all sizes fit. -/
theorem mem_grow_iff {fits : Nat → Prop} [DecidablePred fits] {limit rounds size s : Nat}
    (hle : size ≤ limit) (hrounds : limit < size + rounds) :
    s ∈ grow fits limit rounds size ↔
      size ≤ s ∧ s ≤ limit ∧ ∀ t, size ≤ t → t ≤ s → fits t := by
  induction rounds generalizing size with
  | zero => omega
  | succ rounds ih =>
    rw [grow]
    by_cases hfit : fits size
    · rw [if_pos hfit, List.mem_cons]
      by_cases hend : size = limit
      · -- the limit is the last size
        rw [if_pos hend]
        constructor
        · intro h
          have hs : s = size := by simpa using h
          refine ⟨by omega, by omega, fun t ht ht' => ?_⟩
          rwa [show t = size by omega]
        · intro h
          exact Or.inl (by omega)
      · rw [if_neg hend, ih (by omega) (by omega)]
        constructor
        · intro h
          rcases h with rfl | ⟨hlow, hhigh, hall⟩
          · exact ⟨Nat.le_refl _, hle, fun t ht ht' => by rwa [show t = s by omega]⟩
          · refine ⟨by omega, hhigh, fun t ht ht' => ?_⟩
            rcases Nat.eq_or_lt_of_le ht with rfl | hlt
            · exact hfit
            · exact hall t hlt ht'
        · intro h
          obtain ⟨hlow, hhigh, hall⟩ := h
          rcases Nat.eq_or_lt_of_le hlow with rfl | hlt
          · exact Or.inl rfl
          · exact Or.inr ⟨hlt, hhigh, fun t ht ht' => hall t (by omega) ht'⟩
    · rw [if_neg hfit]
      constructor
      · intro h
        cases h
      · intro h
        exact absurd (h.2.2 size (Nat.le_refl _) h.1) hfit

/-! ## Section 2: The best one -/

section KeepBest

variable {α β : Type*} (score : α → Nat) (val : α → β)

/-- A better one replaces the best one. -/
def keepBest (best : Nat × β) (x : α) : Nat × β :=
  if best.1 < score x then (score x, val x) else best

/-- Nothing better was seen. -/
theorem foldl_keepBest_eq {best : Nat × β} {xs : List α} (h : ∀ x ∈ xs, score x ≤ best.1) :
    xs.foldl (keepBest score val) best = best := by
  induction xs with
  | nil => rfl
  | cons x xs ih =>
    rw [List.foldl_cons, keepBest, if_neg (Nat.not_lt.mpr (h x (by simp)))]
    exact ih fun y hy => h y (by simp [hy])

/-- The search ends with what it began with or with something it saw. -/
theorem foldl_keepBest_cases (best : Nat × β) (xs : List α) :
    xs.foldl (keepBest score val) best = best ∨
      ∃ x ∈ xs, xs.foldl (keepBest score val) best = (score x, val x) := by
  induction xs generalizing best with
  | nil => exact Or.inl rfl
  | cons x xs ih =>
    rw [List.foldl_cons]
    rcases ih (keepBest score val best x) with heq | ⟨y, hy, heq⟩
    · rw [heq, keepBest]
      split
      · exact Or.inr ⟨x, by simp, rfl⟩
      · exact Or.inl rfl
    · exact Or.inr ⟨y, by simp [hy], heq⟩

theorem le_keepBest (best : Nat × β) (x : α) : best.1 ≤ (keepBest score val best x).1 := by
  unfold keepBest
  split
  · exact Nat.le_of_lt ‹_›
  · exact Nat.le_refl _

theorem le_foldl_keepBest (best : Nat × β) (xs : List α) :
    best.1 ≤ (xs.foldl (keepBest score val) best).1 := by
  induction xs generalizing best with
  | nil => exact Nat.le_refl _
  | cons x xs ih => exact Nat.le_trans (le_keepBest score val best x) (ih _)

/-- Something better was seen, and the search ends with something it saw. -/
theorem exists_foldl_keepBest {best : Nat × β} {xs : List α} {x : α} (hx : x ∈ xs)
    (hlt : best.1 < score x) :
    ∃ y ∈ xs, xs.foldl (keepBest score val) best = (score y, val y) := by
  rcases foldl_keepBest_cases score val best xs with heq | hseen
  · -- the score of `x` would not be below the one the search ends with
    exfalso
    obtain ⟨before, after, rfl⟩ := List.append_of_mem hx
    have hbefore := le_foldl_keepBest score val best before
    have hafter := le_foldl_keepBest score val
      (keepBest score val (before.foldl (keepBest score val) best) x) after
    rw [List.foldl_append, List.foldl_cons] at heq
    rw [heq] at hafter
    have hstep : score x ≤ (keepBest score val (before.foldl (keepBest score val) best) x).1 := by
      unfold keepBest
      split
      · exact Nat.le_refl _
      · exact Nat.not_lt.mp ‹_›
    omega
  · exact hseen

end KeepBest

/-! ## Section 3: The first best index -/

section KeepFirst

variable (score : Nat → Nat)

/-- A better index replaces the best one; `none` stands for the bound to beat. -/
def keepFirst (best : Option Nat × Nat) (i : Nat) : Option Nat × Nat :=
  if best.2 < score i then (some i, score i) else best

/-- The outcome of a search through `0 .. n - 1` with `base` to beat. -/
inductive FirstBest (base n : Nat) : Option Nat × Nat → Prop where
  | none (hle : ∀ i < n, score i ≤ base) : FirstBest base n (none, base)
  | some {k : Nat} (hk : k < n) (hbase : base < score k) (hle : ∀ i < n, score i ≤ score k)
      (hfirst : ∀ i < k, score i < score k) : FirstBest base n (some k, score k)

theorem firstBest_foldl (base n : Nat) :
    FirstBest score base n ((List.range n).foldl (keepFirst score) (none, base)) := by
  induction n with
  | zero => exact .none fun i hi => absurd hi (Nat.not_lt_zero i)
  | succ n ih =>
    rw [List.range_succ, List.foldl_append, List.foldl_cons, List.foldl_nil]
    generalize (List.range n).foldl (keepFirst score) (none, base) = best at ih
    cases ih with
    | none hle =>
      unfold keepFirst
      split
      next hlt =>
        have hless : ∀ i < n, score i < score n := fun i hi => Nat.lt_of_le_of_lt (hle i hi) hlt
        exact .some (Nat.lt_succ_self n) hlt
          (Nat.forall_lt_succ_right.mpr ⟨fun i hi => Nat.le_of_lt (hless i hi), Nat.le_refl _⟩)
          hless
      next hge =>
        exact .none (Nat.forall_lt_succ_right.mpr ⟨hle, Nat.not_lt.mp hge⟩)
    | some hk hbase hle hfirst =>
      unfold keepFirst
      split
      next hlt =>
        -- the new index beats the best one, and with it all before
        have hless : ∀ i < n, score i < score n := fun i hi => Nat.lt_of_le_of_lt (hle i hi) hlt
        exact .some (Nat.lt_succ_self n) (Nat.lt_trans hbase hlt)
          (Nat.forall_lt_succ_right.mpr ⟨fun i hi => Nat.le_of_lt (hless i hi), Nat.le_refl _⟩)
          hless
      next hge =>
        exact .some (Nat.lt_succ_of_lt hk) hbase
          (Nat.forall_lt_succ_right.mpr ⟨hle, Nat.not_lt.mp hge⟩) hfirst

end KeepFirst

end BestSearch
