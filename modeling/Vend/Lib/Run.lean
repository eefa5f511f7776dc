/-! # Guarded runs

    A system takes one input at a time. `Reachable` collects the states of the
    runs whose every input meets a guard in the state it is taken in, and
    `Reachable.invariant` is the induction over such runs.
-/

namespace Run

variable {σ ι : Type}

/-- The states of the runs from `init` whose inputs all meet `guard`. -/
inductive Reachable (init : σ → Prop) (step : σ → ι → σ → Prop) (guard : σ → ι → Prop) :
    σ → Prop where
  | start {s : σ} (h : init s) : Reachable init step guard s
  | next {s s' : σ} {i : ι} (h : Reachable init step guard s) (hguard : guard s i)
      (hstep : step s i s') : Reachable init step guard s'

variable {init : σ → Prop} {step : σ → ι → σ → Prop} {guard : σ → ι → Prop}

/-- What holds at the start and is kept by every guarded step holds throughout. -/
theorem Reachable.invariant {P : σ → Prop} (hinit : ∀ s, init s → P s)
    (hstep : ∀ s i s', P s → guard s i → step s i s' → P s') {s : σ}
    (h : Reachable init step guard s) : P s := by
  induction h with
  | start h => exact hinit _ h
  | next _ hguard hs ih => exact hstep _ _ _ ih hguard hs

end Run
