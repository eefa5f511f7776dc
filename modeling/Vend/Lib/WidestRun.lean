import Mathlib.Tactic.ByContra

/-! # Widest runs

    A run of a list is `m` consecutive elements of it, named by its position, and its width
    is the last element less the first. No other widest run is to the left of the first one
    (`FirstWidest.le`).
-/

namespace WidestRun

variable (m : Nat) (xs : List Nat)

/-- The `m` elements from position `p` on. -/
def run (p : Nat) : List Nat := (xs.drop p).take m

/-- There are `m` elements from position `p` on. -/
def IsRun (p : Nat) : Prop := p + m ≤ xs.length

/-- The last element of a run less the first. -/
def width (p : Nat) : Nat := xs.getD (p + m - 1) 0 - xs.getD p 0

/-- No run is wider than the one at `p`. -/
structure Widest (p : Nat) : Prop where
  isRun : IsRun m xs p
  width_le : ∀ q, IsRun m xs q → width m xs q ≤ width m xs p

/-- The leftmost one of the widest runs. -/
structure FirstWidest (p : Nat) : Prop extends Widest m xs p where
  width_lt : ∀ q < p, width m xs q < width m xs p

variable {m xs}

theorem FirstWidest.le {p q : Nat} (h : FirstWidest m xs p) (hq : Widest m xs q) : p ≤ q := by
  by_contra hlt
  have hless := h.width_lt q (by omega)
  have hle := hq.width_le p h.isRun
  omega

end WidestRun
