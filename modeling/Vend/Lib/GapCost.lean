import Mathlib.Algebra.GroupWithZero.Nat
import Mathlib.Algebra.Order.BigOperators.Group.List
import Mathlib.Data.List.Sort

/-! # The cost of gaps

    An ascending list is stored as its gaps, each at a cost of its own. Taking an element
    out merges two gaps into one. When the cost `w` of a sum is at most that of its parts, the
    whole list never costs more for it (`cost_sublist`).

    A cost that is counted modulo `m` keeps this property as long as it never reaches `m`;
    `exists_wrap` is the converse for a cost that grows in small steps.
-/

namespace GapCost

/-! ## Section 1: Gaps -/

/-- The gaps of a list that ascends from `pre`. -/
def gaps : Nat → List Nat → List Nat
  | _, [] => []
  | pre, id :: ids => (id - pre) :: gaps id ids

/-- What the gaps cost. -/
def cost (w : Nat → Nat) (pre : Nat) (ids : List Nat) : Nat := ((gaps pre ids).map w).sum

section

variable {w : Nat → Nat} {pre id : Nat} {ids ids' : List Nat}

@[simp] theorem cost_nil : cost w pre [] = 0 := rfl

@[simp] theorem cost_cons : cost w pre (id :: ids) = w (id - pre) + cost w id ids := rfl

/-- The first gap behind `pre` takes in the one in front of it. -/
theorem cost_skip (hw : ∀ a b, w (a + b) ≤ w a + w b) (hpre : pre ≤ id)
    (hid : ∀ x ∈ ids, id ≤ x) :
    cost w pre ids ≤ w (id - pre) + cost w id ids := by
  cases ids with
  | nil => exact Nat.zero_le _
  | cons next ids =>
    have hnext := hid next (by simp)
    have hsplit := hw (id - pre) (next - id)
    rw [show id - pre + (next - id) = next - pre by omega] at hsplit
    rw [cost_cons, cost_cons]
    omega

theorem cost_sublist (hw : ∀ a b, w (a + b) ≤ w a + w b) (hsub : ids'.Sublist ids)
    (h : ids.Pairwise (· ≤ ·)) (hpre : ∀ x ∈ ids, pre ≤ x) : cost w pre ids' ≤ cost w pre ids := by
  induction hsub generalizing pre with
  | slnil => exact Nat.le_refl _
  | @cons ids' ids id hsub ih =>
    obtain ⟨hhead, htail⟩ := List.pairwise_cons.mp h
    calc cost w pre ids'
        ≤ w (id - pre) + cost w id ids' :=
          cost_skip hw (hpre id (by simp)) fun x hx => hhead x (hsub.subset hx)
      _ ≤ w (id - pre) + cost w id ids := Nat.add_le_add_left (ih htail hhead) _
  | @cons_cons ids' ids id hsub ih =>
    obtain ⟨hhead, htail⟩ := List.pairwise_cons.mp h
    rw [cost_cons, cost_cons]
    exact Nat.add_le_add_left (ih htail hhead) _

/-- The gaps of a run of consecutive elements, each from the one in front of it. -/
theorem gaps_map_range' (f : Nat → Nat) (a n : Nat) :
    gaps (f a) ((List.range' (a + 1) n).map f) =
      (List.range' (a + 1) n).map fun i => f i - f (i - 1) := by
  induction n generalizing a with
  | zero => rfl
  | succ n ih =>
    rw [List.range'_succ, List.map_cons, List.map_cons, gaps, ih, Nat.add_sub_cancel]

/-- The consecutive numbers behind `pre`. -/
theorem cost_range' (n : Nat) : cost w pre (List.range' (pre + 1) n) = n * w 1 := by
  induction n generalizing pre with
  | zero => simp
  | succ n ih =>
    rw [List.range'_succ, cost_cons, ih, Nat.add_sub_cancel_left, Nat.add_mul, Nat.one_mul]
    exact Nat.add_comm _ _

end

/-! ## Section 2: Counting modulo `m` -/

/-- Where a count first reaches `m`, it falls. -/
theorem exists_wrap {f : Nat → Nat} {m k n : Nat} (hzero : f 0 < m) (hk : k < m)
    (hstep : ∀ i, f (i + 1) ≤ f i + k) (hn : m ≤ f n) :
    ∃ i < n, f (i + 1) % m < f i % m := by
  induction n with
  | zero => omega
  | succ n ih =>
    rcases Nat.lt_or_ge (f n) m with hlt | hge
    · -- the first value from `m` on is less than `k` above it
      have hle := hstep n
      refine ⟨n, Nat.lt_succ_self n, ?_⟩
      rw [Nat.mod_eq_of_lt hlt, Nat.mod_eq_sub_mod hn, Nat.mod_eq_of_lt (by omega)]
      omega
    · obtain ⟨i, hi, hwrap⟩ := ih hge
      exact ⟨i, Nat.lt_succ_of_lt hi, hwrap⟩

/-- An ascending list of numbers in `1 .. n` is part of the whole range. -/
theorem sublist_range' {n : Nat} {ids : List Nat} (h : ids.Pairwise (· < ·))
    (hrange : ∀ x ∈ ids, 1 ≤ x ∧ x ≤ n) : ids.Sublist (List.range' 1 n) := by
  have hnodup : ids.Nodup := h.imp Nat.ne_of_lt
  have hsub : ids.Subperm (List.range' 1 n) := by
    apply List.subperm_of_subset hnodup
    intro x hx
    have hx' := hrange x hx
    rw [List.mem_range'_1]
    omega
  apply List.sublist_of_subperm_of_sortedLE hsub
  · exact (h.imp Nat.le_of_lt).sortedLE
  · exact (List.pairwise_le_range' 1).sortedLE

end GapCost
