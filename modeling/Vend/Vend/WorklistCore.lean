import Vend.Vend.WorklistPeeling

/-! # What the worklist leaves

    A set of vertices is stuck when none of them has lists that fit, counting only
    neighbours inside the set. When lists that fit keep fitting as they become shorter,
    the worklist build never takes a vertex of a stuck set out. The vertices it leaves
    are stuck themselves. So they are the union of all stuck sets, whatever the order in
    which the build goes through its sets.
-/

namespace Vend

namespace WorklistPeeling

/-! ## Section 1: Stuck sets -/

/-- The lists of a vertex within a set of vertices. -/
def within (lists : Nat → List (List Nat)) (core : Nat → Bool) (v : Nat) : List (List Nat) :=
  (lists v).map fun l => l.filter core

/-- No vertex of the set has lists that fit within the set. -/
def Stuck (vertexSize : Nat) (lists : Nat → List (List Nat)) (fits : List (List Nat) → Bool)
    (core : Nat → Bool) : Prop :=
  ∀ v, core v = true → (1 ≤ v ∧ v ≤ vertexSize) ∧ fits (within lists core v) = false

/-- The union of the stuck sets. -/
def InCore (vertexSize : Nat) (lists : Nat → List (List Nat)) (fits : List (List Nat) → Bool)
    (v : Nat) : Prop :=
  ∃ core, Stuck vertexSize lists fits core ∧ core v = true

/-- Lists that fit still fit when neighbours are taken out. -/
def Shrinks (lists : Nat → List (List Nat)) (fits : List (List Nat) → Bool) : Prop :=
  ∀ v (p q : Nat → Bool), (∀ w, p w = true → q w = true) →
    fits (within lists q v) = true → fits (within lists p v) = true

/-! ## Section 2: The vertices that are left -/

section

variable {vertexSize : Nat} {lists : Nat → List (List Nat)} {fits : List (List Nat) → Bool}
variable {p : Peeling} {keep : Nat → Nat → Bool}

/-- No call of the peeling is made for a vertex of a stuck set. -/
theorem Peeled.call_not_stuck (h : Peeled vertexSize lists fits p keep)
    (hshrinks : Shrinks lists fits) {core : Nat → Bool}
    (hstuck : Stuck vertexSize lists fits core) (n : Nat) :
    ∀ before c after, before.length = n → p.calls = before ++ c :: after →
      core c.vertex = false := by
  -- the induction is on the number of calls before
  induction n using Nat.strong_induction_on with
  | _ n ih =>
    intro before c after hlen hsplit
    by_contra hcore
    have hin : core c.vertex = true := by simpa using hcore
    have hcall : c ∈ p.calls := by rw [hsplit]; simp
    -- the first call for a vertex of the set keeps the whole set
    have hkeep : ∀ w, core w = true → keep c.vertex w = true := by
      intro w hw
      by_contra hout
      obtain ⟨hbefore, -⟩ := h.omitted before c after hsplit w (by simpa using hout)
      obtain ⟨c', hc', rfl⟩ := List.mem_map.mp hbefore
      obtain ⟨front, back, hfront⟩ := List.append_of_mem hc'
      have hshorter : front.length < n := by
        rw [← hlen, hfront]
        simp
      have hearlier := ih front.length hshorter front c' (back ++ c :: after) rfl
        (by rw [hsplit, hfront]; simp)
      rw [hw] at hearlier
      cases hearlier
    obtain ⟨-, hfits, hneighbors⟩ := h.call c hcall
    rw [hneighbors] at hfits
    have hfits' := hshrinks c.vertex core (keep c.vertex) hkeep hfits
    rw [(hstuck c.vertex hin).2] at hfits'
    cases hfits'

theorem Peeled.not_filtered_of_stuck (h : Peeled vertexSize lists fits p keep)
    (hshrinks : Shrinks lists fits) {core : Nat → Bool}
    (hstuck : Stuck vertexSize lists fits core) {v : Nat} (hv : core v = true) :
    p.isFiltered v = false := by
  by_contra hfiltered
  obtain ⟨c, hc, rfl⟩ := List.mem_map.mp ((h.filtered_iff v).mp (by simpa using hfiltered))
  obtain ⟨before, after, hsplit⟩ := List.append_of_mem hc
  have hnot := h.call_not_stuck hshrinks hstuck before.length before c after rfl hsplit
  rw [hv] at hnot
  cases hnot

/-- What is left when no vertex waits is stuck. -/
theorem Tested.stuck (hlinked : Linked vertexSize lists) (h : Tested vertexSize lists fits p []) :
    Stuck vertexSize lists fits fun v =>
      decide (1 ≤ v ∧ v ≤ vertexSize) && !p.isFiltered v := by
  intro v hv
  simp only [Bool.and_eq_true, decide_eq_true_eq, Bool.not_eq_true'] at hv
  refine ⟨hv.1, ?_⟩
  have hwithin : within lists (fun w => decide (1 ≤ w ∧ w ≤ vertexSize) && !p.isFiltered w) v =
      p.remaining lists v := by
    rw [within, remaining_eq]
    apply List.map_congr_left
    intro l hl
    apply List.filter_congr
    intro w hw
    have hrange := hlinked.range v w (List.mem_flatten.mpr ⟨l, hl, hw⟩)
    rw [decide_eq_true hrange, Bool.true_and]
  rw [hwithin]
  exact h v hv.1.1 hv.1.2 hv.2 List.not_mem_nil

/-- A finished peeling leaves the union of the stuck sets. -/
theorem Peeled.open_iff_core (hlinked : Linked vertexSize lists) (hshrinks : Shrinks lists fits)
    (h : Peeled vertexSize lists fits p keep) (htested : Tested vertexSize lists fits p []) {v : Nat}
    (hv : 1 ≤ v) (hv' : v ≤ vertexSize) :
    p.isFiltered v = false ↔ InCore vertexSize lists fits v := by
  constructor
  · intro hleft
    exact ⟨_, htested.stuck hlinked, by simp [hv, hv', hleft]⟩
  · rintro ⟨core, hstuck, hcore⟩
    exact h.not_filtered_of_stuck hshrinks hstuck hcore

/-- The build ends; it leaves the union of the stuck sets, and these keep each other. -/
theorem peel_core (hlinked : Linked vertexSize lists) (hshrinks : Shrinks lists fits)
    (hsize : vertexSize + 1 < 2 ^ 31) {iterate : Nat → List Nat → List Nat}
    (hiterate : ∀ n set, (iterate n set).Perm set) :
    ∃ calls first keep, peel vertexSize lists fits iterate = some calls ∧
      Covering (List.range' 1 vertexSize) lists (fun ls => fits ls = true) calls first keep ∧
      (∀ v, 1 ≤ v → v ≤ vertexSize → (first v = false ↔ InCore vertexSize lists fits v)) ∧
      ∀ v w, first v = false → keep v w = !first w := by
  obtain ⟨p, keep, hrun, hpeeled, htested⟩ :
      ∃ p keep, peel vertexSize lists fits iterate = _ ∧ _ := peel_run hlinked hsize hiterate
  refine ⟨_, _, _, hrun, covering_of_peeled hpeeled, ?_, ?_⟩
  · intro v hv hv'
    exact hpeeled.open_iff_core hlinked hshrinks htested hv hv'
  · intro v w hleft
    rw [if_neg (by rw [hleft]; decide)]

end

end WorklistPeeling

end Vend
