import Vend.Vend.WorklistPeeling

/-! # The ways to peel a graph

    Which lists a worklist build passes depends on the order in which it goes through its
    sets. `Rounds` says on the lists of the graph alone in which ways vertices can be taken
    out: all whose lists fit first, and then round by round some of those that have lost a
    neighbour in the round before. `Passes` collects the lists that are written on the way.

    `passes_iff` says that the build makes these calls and no others: what it passes in some
    order of its sets is passed in some peeling of the graph, and every peeling is the one of
    some order.
-/

namespace Vend

namespace WorklistPeeling

/-! ## Section 1: Peelings of a graph -/

/-- The lists of a vertex without the neighbours that are gone. -/
def without (lists : Nat → List (List Nat)) (taken : List Nat) (v : Nat) : List (List Nat) :=
  (lists v).map fun l => l.filter fun w => decide (w ∉ taken)

/-- The vertices whose whole lists fit. -/
def fitting (vertexSize : Nat) (lists : Nat → List (List Nat)) (fits : List (List Nat) → Bool) :
    List Nat :=
  (List.range' 1 vertexSize).filter fun v => fits (lists v)

/-- A round takes `out` out of the graph, in this order, after `taken`. A vertex that waits
    stays only when at some time of the round its lists do not fit. -/
structure Round (lists : Nat → List (List Nat)) (fits : List (List Nat) → Bool)
    (taken : List Nat) (waiting : Nat → Prop) (out : List Nat) : Prop where
  waits : ∀ v ∈ out, waiting v
  removable : ∀ before v after, out = before ++ v :: after →
    v ∉ taken ++ before ∧ fits (without lists (taken ++ before) v) = true
  stays : ∀ v, waiting v → v ∉ taken ++ out → ∃ before after, out = before ++ after ∧
    fits (without lists (taken ++ before) v) = false

/-- A neighbour is lost in a round, and was there when it was lost. -/
def Touched (lists : Nat → List (List Nat)) (taken out : List Nat) (w : Nat) : Prop :=
  ∃ before v after, out = before ++ v :: after ∧ w ∈ (without lists (taken ++ before) v).flatten

/-- The vertices taken out after some rounds, and those that wait for the next one. -/
inductive Rounds (vertexSize : Nat) (lists : Nat → List (List Nat))
    (fits : List (List Nat) → Bool) : List Nat → (Nat → Prop) → Prop where
  | first : Rounds vertexSize lists fits (fitting vertexSize lists fits)
      fun w => ∃ v ∈ fitting vertexSize lists fits, w ∈ (lists v).flatten
  | next {taken waiting out} : Rounds vertexSize lists fits taken waiting →
      Round lists fits taken waiting out →
      Rounds vertexSize lists fits (taken ++ out) (Touched lists taken out)

/-- The lists with which a vertex is written on the way: all of them in the first round, those
    that are left in a later one, and when no vertex waits any more those that remain. -/
inductive Passes (vertexSize : Nat) (lists : Nat → List (List Nat))
    (fits : List (List Nat) → Bool) : Nat → List (List Nat) → Prop where
  | first {v} : v ∈ fitting vertexSize lists fits → Passes vertexSize lists fits v (lists v)
  | round {taken waiting before v after} : Rounds vertexSize lists fits taken waiting →
      Round lists fits taken waiting (before ++ v :: after) →
      Passes vertexSize lists fits v (without lists (taken ++ before) v)
  | final {taken waiting v} : Rounds vertexSize lists fits taken waiting → (∀ w, ¬ waiting w) →
      1 ≤ v → v ≤ vertexSize → v ∉ taken →
      Passes vertexSize lists fits v (without lists taken v)

/-! ## Section 2: One round of the build -/

/-- The calls for vertices that are taken out one after the other. -/
def callsOf (lists : Nat → List (List Nat)) : List Nat → List Nat → List Call
  | _, [] => []
  | taken, v :: out => ⟨true, v, without lists taken v⟩ :: callsOf lists (taken ++ [v]) out

/-- The vertices that are marked are those of the list. -/
structure Tracks (vertexSize : Nat) (p : Peeling) (taken : List Nat) : Prop where
  length : p.filtered.length = vertexSize + 1
  isFiltered : ∀ v, p.isFiltered v = decide (v ∈ taken)

section

variable {vertexSize : Nat} {lists : Nat → List (List Nat)} {fits : List (List Nat) → Bool}
variable {p : Peeling} {taken : List Nat}

theorem Tracks.remaining_eq (h : Tracks vertexSize p taken) (v : Nat) :
    p.remaining lists v = without lists taken v := by
  rw [WorklistPeeling.remaining_eq, without]
  simp only [h.isFiltered, decide_not]

theorem Tracks.takeOut (h : Tracks vertexSize p taken) {v : Nat} (hv : v ≤ vertexSize)
    (neighbors : List (List Nat)) (set : List Nat) :
    Tracks vertexSize (takeOut v neighbors (p, set)).1 (taken ++ [v]) := by
  refine ⟨by simp [WorklistPeeling.takeOut, h.length], fun w => ?_⟩
  have hlt : v < p.filtered.length := by
    rw [h.length]
    omega
  have htake : (WorklistPeeling.takeOut v neighbors (p, set)).1.isFiltered w =
      (decide (w = v) || p.isFiltered w) := isFiltered_takeOut hlt w
  rw [htake, h.isFiltered, Bool.eq_iff_iff]
  simp [or_comm]

/-- An element of a list is its first one or stands behind it. -/
theorem cons_eq_append {u v : Nat} {out before after : List Nat}
    (h : u :: out = before ++ v :: after) :
    (before = [] ∧ v = u) ∨ ∃ before', before = u :: before' ∧ out = before' ++ v :: after := by
  cases before with
  | nil =>
    rw [List.nil_append, List.cons.injEq] at h
    exact Or.inl ⟨rfl, h.1.symm⟩
  | cons b before =>
    rw [List.cons_append, List.cons.injEq] at h
    exact Or.inr ⟨before, by rw [h.1], h.2⟩

theorem mem_callsOf {c : Call} {out : List Nat} : c ∈ callsOf lists taken out ↔
    ∃ before v after, out = before ++ v :: after ∧
      c = ⟨true, v, without lists (taken ++ before) v⟩ := by
  induction out generalizing taken with
  | nil => simp [callsOf]
  | cons u out ih =>
    rw [callsOf, List.mem_cons, ih]
    constructor
    · rintro (rfl | ⟨before, v, after, rfl, rfl⟩)
      · exact ⟨[], u, out, rfl, by rw [List.append_nil]⟩
      · exact ⟨u :: before, v, after, rfl, by rw [List.append_assoc, List.singleton_append]⟩
    · rintro ⟨before, v, after, heq, rfl⟩
      rcases cons_eq_append heq with ⟨rfl, rfl⟩ | ⟨before, rfl, rfl⟩
      · left
        rw [List.append_nil]
      · exact Or.inr ⟨before, v, after, rfl, by rw [List.append_assoc, List.singleton_append]⟩

/-- The first vertex of a round touches its neighbours, the others do what they do after it. -/
theorem touched_cons {u : Nat} {out : List Nat} {w : Nat} : Touched lists taken (u :: out) w ↔
    w ∈ (without lists taken u).flatten ∨ Touched lists (taken ++ [u]) out w := by
  constructor
  · rintro ⟨before, v, after, heq, hw⟩
    rcases cons_eq_append heq with ⟨rfl, rfl⟩ | ⟨before, rfl, rfl⟩
    · left
      rwa [List.append_nil] at hw
    · right
      exact ⟨before, v, after, rfl, by rwa [List.append_assoc, List.singleton_append]⟩
  · rintro (hw | ⟨before, v, after, rfl, hw⟩)
    · exact ⟨[], u, out, rfl, by rwa [List.append_nil]⟩
    · exact ⟨u :: before, v, after, rfl, by rwa [List.append_assoc, List.singleton_append] at hw⟩

/-- A vertex that fits is taken out in front of a round. -/
theorem Round.cons {waiting waiting' : Nat → Prop} {v : Nat} {out : List Nat}
    (h : Round lists fits (taken ++ [v]) waiting' out) (hsub : ∀ w, waiting' w → waiting w)
    (hwait : waiting v) (hopen : v ∉ taken) (hfits : fits (without lists taken v) = true)
    (hstays : ∀ w, waiting w → w ∉ taken → ¬ waiting' w → w ≠ v →
      fits (without lists taken w) = false) :
    Round lists fits taken waiting (v :: out) := by
  refine ⟨?_, ?_, ?_⟩
  · rintro w (_ | ⟨_, hw⟩)
    · exact hwait
    · exact hsub w (h.waits w hw)
  · intro before w after heq
    rcases cons_eq_append heq with ⟨rfl, rfl⟩ | ⟨before, rfl, rfl⟩
    · rw [List.append_nil]
      exact ⟨hopen, hfits⟩
    · have hnext := h.removable before w after rfl
      rwa [List.append_assoc, List.singleton_append] at hnext
  · intro w hw hnot
    rw [List.mem_append, List.mem_cons, not_or, not_or] at hnot
    by_cases hlater : waiting' w
    · obtain ⟨before, after, rfl, hlong⟩ := h.stays w hlater (by simp [hnot])
      refine ⟨v :: before, after, rfl, ?_⟩
      rwa [List.append_assoc, List.singleton_append] at hlong
    · exact ⟨[], v :: out, rfl, by rw [List.append_nil]; exact hstays w hw hnot.1 hlater hnot.2.1⟩

/-- Visiting a vertex that was taken out, or whose lists do not fit, changes nothing. -/
theorem Tracks.visit_eq (h : Tracks vertexSize p taken) {v : Nat}
    (hno : v ∈ taken ∨ fits (without lists taken v) = false) (set : List Nat) :
    visit lists fits (p, set) v = (p, set) := by
  rcases visit_cases lists fits (p, set) v with ⟨hsame, -⟩ | ⟨hopen, hfits, -⟩
  · exact hsame
  · have hopen' : decide (v ∈ taken) = false := (h.isFiltered v).symm.trans hopen
    have hfits' : fits (p.remaining lists v) = true := hfits
    rw [h.remaining_eq] at hfits'
    rcases hno with hin | hlong
    · exact absurd hin (of_decide_eq_false hopen')
    · rw [hlong] at hfits'
      cases hfits'

theorem Tracks.foldl_visit_eq (h : Tracks vertexSize p taken) {idle : List Nat}
    (hidle : ∀ v ∈ idle, v ∈ taken ∨ fits (without lists taken v) = false) (set : List Nat) :
    idle.foldl (visit lists fits) (p, set) = (p, set) := by
  induction idle with
  | nil => rfl
  | cons v idle ih =>
    rw [List.foldl_cons, h.visit_eq (hidle v List.mem_cons_self)]
    exact ih fun w hw => hidle w (List.mem_cons_of_mem v hw)

theorem Tracks.visit_fits (h : Tracks vertexSize p taken) {v : Nat} (hopen : v ∉ taken)
    (hfits : fits (without lists taken v) = true) (set : List Nat) :
    visit lists fits (p, set) v = WorklistPeeling.takeOut v (without lists taken v) (p, set) := by
  rcases visit_cases lists fits (p, set) v with ⟨-, hin | hlong⟩ | ⟨-, -, htake⟩
  · rw [show (p, set).1 = p from rfl, h.isFiltered] at hin
    exact absurd (of_decide_eq_true hin) hopen
  · rw [show (p, set).1 = p from rfl, h.remaining_eq, hfits] at hlong
    cases hlong
  · rw [htake, h.remaining_eq]

/-- What a round of the build that takes `out` out leaves behind. -/
structure Did (vertexSize : Nat) (lists : Nat → List (List Nat)) (taken out : List Nat)
    (st st' : Peeling × List Nat) : Prop where
  tracks : Tracks vertexSize st'.1 (taken ++ out)
  calls : st'.1.calls = st.1.calls ++ callsOf lists taken out
  mem : ∀ w, w ∈ st'.2 ↔ w ∈ st.2 ∨ Touched lists taken out w

theorem Did.nil (h : Tracks vertexSize p taken) (set : List Nat) :
    Did vertexSize lists taken [] (p, set) (p, set) := by
  refine ⟨by rw [List.append_nil]; exact h, by rw [callsOf, List.append_nil], fun w => ?_⟩
  have hnone : ¬ Touched lists taken [] w := by
    rintro ⟨before, v, after, heq, -⟩
    simp at heq
  simp [hnone]

theorem Did.cons {v : Nat} {out set : List Nat} {st' : Peeling × List Nat}
    (h : Did vertexSize lists (taken ++ [v]) out
      (WorklistPeeling.takeOut v (without lists taken v) (p, set)) st') :
    Did vertexSize lists taken (v :: out) (p, set) st' := by
  refine ⟨?_, ?_, fun w => ?_⟩
  · have htracks := h.tracks
    rwa [List.append_assoc, List.singleton_append] at htracks
  · rw [h.calls, callsOf, WorklistPeeling.takeOut, List.append_assoc, List.singleton_append]
  · rw [h.mem, WorklistPeeling.takeOut, mem_insertAll, touched_cons, or_assoc]

/-- What the build does in a round is a round. -/
theorem exists_round (related : List Nat) (hrange : ∀ v ∈ related, v ≤ vertexSize)
    (h : Tracks vertexSize p taken) (set : List Nat) :
    ∃ out, Round lists fits taken (· ∈ related) out ∧
      Did vertexSize lists taken out (p, set) (related.foldl (visit lists fits) (p, set)) := by
  induction related generalizing p taken set with
  | nil =>
    refine ⟨[], ⟨nofun, ?_, nofun⟩, Did.nil h set⟩
    intro before v after heq
    simp at heq
  | cons v related ih =>
    have hrest : ∀ w ∈ related, w ≤ vertexSize := fun w hw => hrange w (by simp [hw])
    rw [List.foldl_cons]
    by_cases hno : v ∈ taken ∨ fits (without lists taken v) = false
    · rw [h.visit_eq hno]
      obtain ⟨out, hround, hdid⟩ := ih hrest h set
      refine ⟨out,
        ⟨fun w hw => List.mem_cons_of_mem v (hround.waits w hw), hround.removable, ?_⟩, hdid⟩
      intro w hw hnot
      rcases List.mem_cons.mp hw with rfl | hw
      · have hout : w ∉ taken := fun hin => hnot (List.mem_append_left _ hin)
        exact ⟨[], out, rfl, by rw [List.append_nil]; exact hno.resolve_left hout⟩
      · exact hround.stays w hw hnot
    · rw [not_or, Bool.not_eq_false] at hno
      rw [h.visit_fits hno.1 hno.2]
      obtain ⟨out, hround, hdid⟩ := ih hrest
        (h.takeOut (hrange v (by simp)) (without lists taken v) set)
        (WorklistPeeling.takeOut v (without lists taken v) (p, set)).2
      refine ⟨v :: out, ?_, hdid.cons⟩
      refine hround.cons (fun w hw => List.mem_cons_of_mem v hw) (by simp) hno.1 hno.2 ?_
      intro w hw _ hlater hne
      exact absurd ((List.mem_cons.mp hw).resolve_left hne) hlater

/-- A vertex that is not taken out later in the round, and that a visit at its beginning passes
    over. -/
def idle (lists : Nat → List (List Nat)) (fits : List (List Nat) → Bool) (taken out : List Nat)
    (w : Nat) : Bool :=
  decide (w ∉ out) && (decide (w ∈ taken) || !fits (without lists taken w))

theorem passed_over_of_idle {out : List Nat} {w : Nat} (h : idle lists fits taken out w = true) :
    w ∈ taken ∨ fits (without lists taken w) = false := by
  simp only [idle, Bool.and_eq_true, Bool.or_eq_true, decide_eq_true_eq, Bool.not_eq_true'] at h
  exact h.2

/-- Behind its first vertex a round goes on with the others that are not idle. -/
theorem Round.tail {waiting : Nat → Prop} {v : Nat} {out : List Nat}
    (hround : Round lists fits taken waiting (v :: out)) :
    Round lists fits (taken ++ [v])
      (fun w => waiting w ∧ w ≠ v ∧ idle lists fits taken out w = false) out := by
  refine ⟨?_, ?_, ?_⟩
  · intro w hw
    obtain ⟨before, after, rfl⟩ := List.append_of_mem hw
    have hnew := (hround.removable (v :: before) w after rfl).1
    simp only [List.mem_append, List.mem_cons, not_or] at hnew
    exact ⟨hround.waits w (List.mem_cons_of_mem v hw), hnew.2.1, by simp [idle]⟩
  · intro before w after heq
    have hrem := hround.removable (v :: before) w after (by rw [heq]; rfl)
    rwa [List.append_assoc, List.singleton_append]
  · intro w hw hnot
    simp only [List.mem_append, List.mem_singleton, not_or] at hnot
    obtain ⟨before, after, heq, hlong⟩ := hround.stays w hw.1
      (by simp only [List.mem_append, List.mem_cons, not_or]; tauto)
    cases before with
    | nil =>
      -- then `w` would be idle
      rw [List.append_nil] at hlong
      have hbusy := hw.2.2
      simp [idle, hnot.2, hlong] at hbusy
    | cons b before =>
      rw [List.cons_append, List.cons.injEq] at heq
      refine ⟨before, after, heq.2, ?_⟩
      rwa [List.append_assoc, List.singleton_append, heq.1]

/-- An element goes between the others of one kind and those of the other kind. -/
theorem perm_around {related : List Nat} (hnodup : related.Nodup) {v : Nat} (hv : v ∈ related)
    (early : Nat → Bool) :
    ((related.filter fun w => decide (w ≠ v) && early w) ++
      v :: related.filter fun w => decide (w ≠ v) && !early w).Perm related := by
  have herase : (related.filter fun w => decide (w ≠ v)).Perm (related.erase v) := by
    rw [hnodup.erase_eq_filter]
    exact List.Perm.of_eq (List.filter_congr fun w _ => by simp [bne, beq_eq_decide])
  have hsplit := List.filter_append_perm early (related.filter fun w => decide (w ≠ v))
  rw [List.filter_filter, List.filter_filter] at hsplit
  refine List.perm_middle.trans (List.Perm.trans ?_ (List.perm_cons_erase hv).symm)
  refine List.Perm.cons v (List.Perm.trans ?_ herase)
  simpa only [Bool.and_comm] using hsplit

/-- Every round is the one of some order of the set: the vertices that stay are visited when
    their lists do not fit. -/
theorem exists_order {waiting : Nat → Prop} {out : List Nat}
    (hround : Round lists fits taken waiting out) {related : List Nat} (hnodup : related.Nodup)
    (hmem : ∀ v, v ∈ related ↔ waiting v) (hrange : ∀ v ∈ related, v ≤ vertexSize)
    (h : Tracks vertexSize p taken) (set : List Nat) :
    ∃ order : List Nat, order.Perm related ∧
      Did vertexSize lists taken out (p, set) (order.foldl (visit lists fits) (p, set)) := by
  induction out generalizing p taken waiting related set with
  | nil =>
    -- nothing fits, in whatever order
    refine ⟨related, List.Perm.refl _, ?_⟩
    rw [h.foldl_visit_eq]
    · exact Did.nil h set
    · intro v hv
      by_cases hin : v ∈ taken
      · exact Or.inl hin
      · right
        obtain ⟨before, after, heq, hlong⟩ := hround.stays v ((hmem v).mp hv)
          (by rwa [List.append_nil])
        rwa [(List.nil_eq_append_iff.mp heq).1, List.append_nil] at hlong
  | cons v out ih =>
    obtain ⟨hopen, hfits⟩ := hround.removable [] v out rfl
    rw [List.append_nil] at hopen hfits
    have hv : v ∈ related := (hmem v).mpr (hround.waits v List.mem_cons_self)
    -- the idle vertices are visited first, then `v`, then the others
    let early := related.filter fun w => decide (w ≠ v) && idle lists fits taken out w
    let late := related.filter fun w => decide (w ≠ v) && !idle lists fits taken out w
    have hlate : ∀ w, w ∈ late ↔ waiting w ∧ w ≠ v ∧ idle lists fits taken out w = false := by
      intro w
      rw [List.mem_filter, hmem, Bool.and_eq_true, decide_eq_true_eq, Bool.not_eq_true']
    obtain ⟨order, hperm, hdid⟩ := ih hround.tail (hnodup.filter _) hlate
      (fun w hw => hrange w (List.mem_of_mem_filter hw))
      (h.takeOut (hrange v hv) (without lists taken v) set)
      (WorklistPeeling.takeOut v (without lists taken v) (p, set)).2
    have hearly : ∀ w ∈ early, w ∈ taken ∨ fits (without lists taken w) = false := by
      intro w hw
      have hidle := (List.mem_filter.mp hw).2
      rw [Bool.and_eq_true] at hidle
      exact passed_over_of_idle hidle.2
    have hall : (early ++ v :: late).Perm related := perm_around hnodup hv _
    refine ⟨early ++ v :: order, ((hperm.cons v).append_left early).trans hall, ?_⟩
    rw [List.foldl_append, h.foldl_visit_eq hearly, List.foldl_cons, h.visit_fits hopen hfits]
    exact hdid.cons

end

/-! ## Section 3: All rounds of the build -/

/-- The peeling and the worklist after `n` rounds. -/
def afterRounds (vertexSize : Nat) (lists : Nat → List (List Nat)) (fits : List (List Nat) → Bool)
    (iterate : Nat → List Nat → List Nat) : Nat → Peeling × List Nat
  | 0 => firstRound vertexSize lists fits
  | n + 1 =>
    let st := afterRounds vertexSize lists fits iterate n
    (iterate n st.2).foldl (visit lists fits) (st.1, [])

section

variable {vertexSize : Nat} {lists : Nat → List (List Nat)} {fits : List (List Nat) → Bool}

theorem nodup_insertAll {set ids : List Nat} (h : set.Nodup) : (insertAll set ids).Nodup := by
  unfold insertAll
  induction ids generalizing set with
  | nil => exact h
  | cons id ids ih =>
    rw [List.foldl_cons]
    apply ih
    split
    next => exact h
    next hid =>
      rw [List.nodup_append]
      refine ⟨h, List.nodup_singleton id, ?_⟩
      rintro v hv w hw rfl
      exact hid (List.mem_singleton.mp hw ▸ hv)

/-- A visit keeps the worklist a set and the calls that were made. -/
theorem visit_keeps (st : Peeling × List Nat) (v : Nat) :
    (st.2.Nodup → (visit lists fits st v).2.Nodup) ∧
      st.1.calls ⊆ (visit lists fits st v).1.calls := by
  rcases visit_cases lists fits st v with ⟨hsame, -⟩ | ⟨-, -, htake⟩
  · rw [hsame]
    exact ⟨id, List.Subset.refl _⟩
  · rw [htake]
    exact ⟨nodup_insertAll, List.subset_append_left _ _⟩

theorem foldl_visit_keeps (related : List Nat) (st : Peeling × List Nat) :
    (st.2.Nodup → (related.foldl (visit lists fits) st).2.Nodup) ∧
      st.1.calls ⊆ (related.foldl (visit lists fits) st).1.calls := by
  induction related generalizing st with
  | nil => exact ⟨id, List.Subset.refl _⟩
  | cons v related ih =>
    obtain ⟨hnodup, hcalls⟩ := @visit_keeps lists fits st v
    obtain ⟨hnodup', hcalls'⟩ := ih (visit lists fits st v)
    exact ⟨fun h => hnodup' (hnodup h), List.Subset.trans hcalls hcalls'⟩

/-- The first round takes the vertices of `rest` out with all their neighbours. -/
theorem foldl_takeOut (rest : List Nat) (hrange : ∀ v ∈ rest, v ≤ vertexSize) {p : Peeling}
    {taken : List Nat} (h : Tracks vertexSize p taken) {set : List Nat} (hnodup : set.Nodup) :
    ∃ p' set', rest.foldl (fun st v => takeOut v (lists v) st) (p, set) = (p', set') ∧
      Tracks vertexSize p' (taken ++ rest) ∧ set'.Nodup ∧
      p'.calls = p.calls ++ rest.map (fun v => ⟨true, v, lists v⟩) ∧
      ∀ w, w ∈ set' ↔ w ∈ set ∨ ∃ v ∈ rest, w ∈ (lists v).flatten := by
  induction rest generalizing p taken set with
  | nil => exact ⟨p, set, rfl, by rwa [List.append_nil], hnodup, by simp, by simp⟩
  | cons v rest ih =>
    obtain ⟨p', set', hrun, htracks, hnodup', hcalls, hmem⟩ := ih
      (fun w hw => hrange w (List.mem_cons_of_mem v hw))
      (h.takeOut (hrange v List.mem_cons_self) (lists v) set) (nodup_insertAll hnodup)
    refine ⟨p', set', hrun, ?_, hnodup', ?_, fun w => ?_⟩
    · rwa [List.append_assoc, List.singleton_append] at htracks
    · rw [hcalls, takeOut, List.append_assoc, List.map_cons, List.singleton_append]
    · rw [hmem, mem_insertAll, or_assoc]
      simp only [List.mem_cons, exists_eq_or_imp]

/-- The first round takes out the vertices whose whole lists fit. -/
theorem firstRound_spec :
    Tracks vertexSize (firstRound vertexSize lists fits).1 (fitting vertexSize lists fits) ∧
    (firstRound vertexSize lists fits).2.Nodup ∧
    (firstRound vertexSize lists fits).1.calls =
      (fitting vertexSize lists fits).map (fun v => ⟨true, v, lists v⟩) ∧
    ∀ w, w ∈ (firstRound vertexSize lists fits).2 ↔
      ∃ v ∈ fitting vertexSize lists fits, w ∈ (lists v).flatten := by
  have hstart : Tracks vertexSize ⟨List.replicate (vertexSize + 1) false, []⟩ [] :=
    ⟨by simp, fun v => by rw [isFiltered_start]; simp⟩
  have hrange : ∀ v ∈ fitting vertexSize lists fits, v ≤ vertexSize := by
    intro v hv
    have hv' := List.mem_range'_1.mp (List.mem_of_mem_filter hv)
    omega
  obtain ⟨p, set, hrun, htracks, hnodup, hcalls, hmem⟩ :=
    @foldl_takeOut vertexSize lists _ hrange _ _ hstart _ List.nodup_nil
  have heq : firstRound vertexSize lists fits = (p, set) := hrun
  rw [heq]
  exact ⟨htracks, hnodup, hcalls, fun w => by simpa using hmem w⟩

/-- Waiting vertices are vertices. -/
theorem Rounds.range (hlinked : Linked vertexSize lists) {taken : List Nat} {waiting : Nat → Prop}
    (h : Rounds vertexSize lists fits taken waiting) {w : Nat} (hw : waiting w) :
    1 ≤ w ∧ w ≤ vertexSize := by
  cases h with
  | first =>
    obtain ⟨v, -, hmem⟩ := hw
    exact hlinked.range v w hmem
  | next =>
    obtain ⟨before, v, after, -, hmem⟩ := hw
    rw [without, flatten_map_filter, List.mem_filter] at hmem
    exact hlinked.range v w hmem.1

/-- What is passed for a vertex is what some set of vertices leaves of its lists. -/
theorem Passes.exists_filter (hlinked : Linked vertexSize lists) {v : Nat}
    {neighbors : List (List Nat)} (h : Passes vertexSize lists fits v neighbors) :
    (1 ≤ v ∧ v ≤ vertexSize) ∧
      ∃ keep : Nat → Bool, neighbors = (lists v).map fun l => l.filter keep := by
  cases h with
  | first hv =>
    have hrange := List.mem_range'_1.mp (List.mem_of_mem_filter hv)
    exact ⟨by omega, fun _ => true, (map_filter_true _).symm⟩
  | round hrounds hround =>
    exact ⟨hrounds.range hlinked (hround.waits v (by simp)), _, rfl⟩
  | final _ _ hv hv' _ => exact ⟨⟨hv, hv'⟩, _, rfl⟩

/-- The build stands where a peeling of the graph stands. -/
structure Stands (vertexSize : Nat) (lists : Nat → List (List Nat)) (st : Peeling × List Nat)
    (taken : List Nat) (waiting : Nat → Prop) : Prop where
  tracks : Tracks vertexSize st.1 taken
  nodup : st.2.Nodup
  mem : ∀ w, w ∈ st.2 ↔ waiting w

theorem Stands.of_did {st st' : Peeling × List Nat} {taken out : List Nat}
    (h : Did vertexSize lists taken out (st.1, []) st') (hnodup : st'.2.Nodup) :
    Stands vertexSize lists st' (taken ++ out) (Touched lists taken out) :=
  ⟨h.tracks, hnodup, fun w => by simpa using h.mem w⟩

section

variable (hlinked : Linked vertexSize lists) {iterate : Nat → List Nat → List Nat}
variable (hiterate : Iterates iterate)
include hlinked hiterate

/-- After every round the build stands in a peeling of the graph, and what it has passed is
    passed there. -/
theorem exists_rounds (n : Nat) : ∃ taken waiting, Rounds vertexSize lists fits taken waiting ∧
    Stands vertexSize lists (afterRounds vertexSize lists fits iterate n) taken waiting ∧
    ∀ c ∈ (afterRounds vertexSize lists fits iterate n).1.calls,
      Passes vertexSize lists fits c.vertex c.neighbors := by
  induction n with
  | zero =>
    obtain ⟨htracks, hnodup, hcalls, hmem⟩ := @firstRound_spec vertexSize lists fits
    refine ⟨_, _, Rounds.first, ⟨htracks, hnodup, hmem⟩, ?_⟩
    intro c hc
    rw [afterRounds, hcalls, List.mem_map] at hc
    obtain ⟨v, hv, rfl⟩ := hc
    exact Passes.first hv
  | succ n ih =>
    obtain ⟨taken, waiting, hrounds, hstands, hpasses⟩ := ih
    have hmem : ∀ w, w ∈ iterate n (afterRounds vertexSize lists fits iterate n).2 ↔ waiting w :=
      fun w => (hiterate n _).mem_iff.trans (hstands.mem w)
    obtain ⟨out, hround, hdid⟩ := @exists_round vertexSize lists fits _ _ _
      (fun v hv => (hrounds.range hlinked ((hmem v).mp hv)).2) hstands.tracks []
    have hround' : Round lists fits taken waiting out := by
      refine ⟨fun v hv => (hmem v).mp (hround.waits v hv), hround.removable, ?_⟩
      exact fun v hv => hround.stays v ((hmem v).mpr hv)
    refine ⟨_, _, hrounds.next hround', Stands.of_did hdid ?_, ?_⟩
    · exact (foldl_visit_keeps _ _).1 List.nodup_nil
    · intro c hc
      rw [afterRounds, hdid.calls, List.mem_append] at hc
      rcases hc with hc | hc
      · exact hpasses c hc
      · obtain ⟨before, v, after, rfl, rfl⟩ := mem_callsOf.mp hc
        exact Passes.round hrounds hround'

omit hlinked in
/-- When no vertex waits, nothing happens any more. -/
theorem afterRounds_of_nil {n : Nat}
    (h : (afterRounds vertexSize lists fits iterate n).2 = []) (k : Nat) :
    afterRounds vertexSize lists fits iterate (n + k) =
      afterRounds vertexSize lists fits iterate n := by
  induction k with
  | zero => rfl
  | succ k ih =>
    have hnil : iterate (n + k) [] = [] := (hiterate (n + k) []).eq_nil
    rw [Nat.add_succ, afterRounds, ih, h, hnil, List.foldl_nil]
    exact Prod.ext rfl h.symm

omit hlinked hiterate in
theorem calls_subset (n k : Nat) : (afterRounds vertexSize lists fits iterate n).1.calls ⊆
    (afterRounds vertexSize lists fits iterate (n + k)).1.calls := by
  induction k with
  | zero => exact List.Subset.refl _
  | succ k ih => exact List.Subset.trans ih (@foldl_visit_keeps lists fits _ (_, [])).2

omit hlinked hiterate in
/-- The loop stops after a round that leaves no vertex waiting. -/
theorem relatedLoop_eq {fuel n : Nat} {p : Peeling}
    (h : relatedLoop lists fits iterate fuel n (afterRounds vertexSize lists fits iterate n).2
      (afterRounds vertexSize lists fits iterate n).1 = some p) :
    ∃ m, (afterRounds vertexSize lists fits iterate m).2 = [] ∧
      p = (afterRounds vertexSize lists fits iterate m).1 := by
  induction fuel generalizing n with
  | zero => cases h
  | succ fuel ih =>
    rw [relatedLoop] at h
    split at h
    next hnil => exact ⟨n, hnil, (Option.some.inj h).symm⟩
    next => exact ih (n := n + 1) h

/-- The build stops where no vertex waits, and has made the calls of every round. -/
theorem exists_stop (hsize : vertexSize + 1 < 2 ^ 31) :
    ∃ m, (afterRounds vertexSize lists fits iterate m).2 = [] ∧
      peel vertexSize lists fits iterate =
        some ((afterRounds vertexSize lists fits iterate m).1.calls ++
          finalCalls vertexSize lists (afterRounds vertexSize lists fits iterate m).1) ∧
      ∀ n, (afterRounds vertexSize lists fits iterate n).1.calls ⊆
          (afterRounds vertexSize lists fits iterate m).1.calls ∧
        ((afterRounds vertexSize lists fits iterate n).2 = [] →
          afterRounds vertexSize lists fits iterate n =
            afterRounds vertexSize lists fits iterate m) := by
  obtain ⟨p, -, hrun, -⟩ : ∃ p keep, peeling vertexSize lists fits iterate = some p ∧
      Peeled vertexSize lists fits p keep ∧ _ := peeling_run hlinked hsize hiterate
  have hloop : relatedLoop lists fits iterate (vertexSize + 2) 0
      (afterRounds vertexSize lists fits iterate 0).2
      (afterRounds vertexSize lists fits iterate 0).1 = some p := by
    rw [peeling, guard, if_pos hsize] at hrun
    exact hrun
  obtain ⟨m, hnil, rfl⟩ := relatedLoop_eq hloop
  refine ⟨m, hnil, by rw [peel, hrun]; rfl, fun n => ?_⟩
  rcases Nat.le_total n m with hle | hle
  · obtain ⟨k, rfl⟩ := Nat.exists_eq_add_of_le hle
    exact ⟨calls_subset n k, fun hstop => (afterRounds_of_nil hiterate hstop k).symm⟩
  · obtain ⟨k, rfl⟩ := Nat.exists_eq_add_of_le hle
    rw [afterRounds_of_nil hiterate hnil k]
    exact ⟨List.Subset.refl _, fun _ => rfl⟩

end

/-! ## Section 4: Every peeling is the one of some order -/

/-- The rounds before `n` only depend on the orders of these rounds. -/
theorem afterRounds_congr {iterate iterate' : Nat → List Nat → List Nat} {n : Nat}
    (h : ∀ m < n, iterate m = iterate' m) :
    afterRounds vertexSize lists fits iterate n = afterRounds vertexSize lists fits iterate' n := by
  induction n with
  | zero => rfl
  | succ n ih =>
    rw [afterRounds, afterRounds, ih fun m hm => h m (by omega), h n (Nat.lt_succ_self n)]

/-- One more round is the one of some order, when the rounds before are. -/
theorem exists_next (hlinked : Linked vertexSize lists) {iterate : Nat → List Nat → List Nat}
    (hiterate : Iterates iterate) {n : Nat} {taken out : List Nat} {waiting : Nat → Prop}
    (hstands : Stands vertexSize lists (afterRounds vertexSize lists fits iterate n) taken waiting)
    (hrounds : Rounds vertexSize lists fits taken waiting)
    (hround : Round lists fits taken waiting out) :
    ∃ iterate', Iterates iterate' ∧
      Did vertexSize lists taken out ((afterRounds vertexSize lists fits iterate n).1, [])
        (afterRounds vertexSize lists fits iterate' (n + 1)) := by
  obtain ⟨order, hperm, hdid⟩ := exists_order hround hstands.nodup hstands.mem
    (fun v hv => (hrounds.range hlinked ((hstands.mem v).mp hv)).2) hstands.tracks []
  -- the order of round `n` is replaced
  let iterate' : Nat → List Nat → List Nat := fun m set =>
    if m = n ∧ order.Perm set then order else iterate m set
  have hbefore : ∀ m < n, iterate' m = iterate m := by
    intro m hm
    funext set
    exact if_neg fun h => absurd h.1 (by omega)
  refine ⟨iterate', ?_, ?_⟩
  · intro m set
    by_cases h : m = n ∧ order.Perm set
    · rw [show iterate' m set = order from if_pos h]
      exact h.2
    · rw [show iterate' m set = iterate m set from if_neg h]
      exact hiterate m set
  · rw [afterRounds, afterRounds_congr hbefore]
    rw [show iterate' n _ = order from if_pos ⟨rfl, hperm⟩]
    exact hdid

theorem exists_iterate (hlinked : Linked vertexSize lists) {taken : List Nat}
    {waiting : Nat → Prop} (h : Rounds vertexSize lists fits taken waiting) :
    ∃ iterate n, Iterates iterate ∧
      Stands vertexSize lists (afterRounds vertexSize lists fits iterate n) taken waiting := by
  induction h with
  | first =>
    obtain ⟨htracks, hnodup, -, hmem⟩ := @firstRound_spec vertexSize lists fits
    exact ⟨fun _ set => set, 0, fun _ set => List.Perm.refl set, htracks, hnodup, hmem⟩
  | next hrounds hround ih =>
    obtain ⟨iterate, n, hiterate, hstands⟩ := ih
    obtain ⟨iterate', hiterate', hdid⟩ := exists_next hlinked hiterate hstands hrounds hround
    exact ⟨iterate', n + 1, hiterate', Stands.of_did hdid
      ((foldl_visit_keeps _ _).1 List.nodup_nil)⟩

/-- What the build passes in the orders of its sets is what the peelings of the graph pass. -/
theorem passes_iff (hlinked : Linked vertexSize lists) (hsize : vertexSize + 1 < 2 ^ 31) {v : Nat}
    {neighbors : List (List Nat)} : Passes vertexSize lists fits v neighbors ↔
      ∃ iterate, Iterates iterate ∧ ∃ calls, peel vertexSize lists fits iterate = some calls ∧
        ∃ c ∈ calls, c.vertex = v ∧ c.neighbors = neighbors := by
  constructor
  · intro h
    -- a call of one of the rounds is a call of the build
    have hmade : ∀ iterate n c, Iterates iterate →
        c ∈ (afterRounds vertexSize lists fits iterate n).1.calls →
        ∃ iterate, Iterates iterate ∧ ∃ calls, peel vertexSize lists fits iterate = some calls ∧
          ∃ c' ∈ calls, c'.vertex = c.vertex ∧ c'.neighbors = c.neighbors := by
      intro iterate n c hiterate hc
      obtain ⟨m, -, hpeel, hstop⟩ := @exists_stop vertexSize lists fits hlinked _ hiterate hsize
      exact ⟨iterate, hiterate, _, hpeel, c,
        List.mem_append_left _ ((hstop n).1 hc), rfl, rfl⟩
    cases h with
    | first hv =>
      refine hmade (fun _ set => set) 0 ⟨true, v, lists v⟩
        (fun _ set => List.Perm.refl set) ?_
      rw [afterRounds, firstRound_spec.2.2.1]
      exact List.mem_map_of_mem hv
    | @round taken _ before _ after hrounds hround =>
      obtain ⟨iterate, n, hiterate, hstands⟩ := exists_iterate hlinked hrounds
      obtain ⟨iterate', hiterate', hdid⟩ := exists_next hlinked hiterate hstands hrounds hround
      refine hmade _ (n + 1) ⟨true, v, without lists (taken ++ before) v⟩ hiterate' ?_
      rw [hdid.calls]
      exact List.mem_append_right _ (mem_callsOf.mpr ⟨before, v, after, rfl, rfl⟩)
    | final hrounds hnone hv hv' hopen =>
      obtain ⟨iterate, n, hiterate, hstands⟩ := exists_iterate hlinked hrounds
      obtain ⟨m, -, hpeel, hstop⟩ := @exists_stop vertexSize lists fits hlinked _ hiterate hsize
      have hnil : (afterRounds vertexSize lists fits iterate n).2 = [] :=
        List.eq_nil_iff_forall_not_mem.mpr fun w hw => hnone w ((hstands.mem w).mp hw)
      rw [← (hstop n).2 hnil] at hpeel
      refine ⟨iterate, hiterate, _, hpeel, ⟨false, v, without lists _ v⟩, ?_, rfl, rfl⟩
      refine List.mem_append_right _ (mem_finalCalls.mpr ⟨⟨hv, hv'⟩, ?_, ?_⟩)
      · rw [hstands.tracks.isFiltered]
        exact decide_eq_false hopen
      · rw [hstands.tracks.remaining_eq]
  · rintro ⟨iterate, hiterate, calls, hcalls, c, hc, rfl, rfl⟩
    obtain ⟨m, hnil, hpeel, -⟩ := @exists_stop vertexSize lists fits hlinked _ hiterate hsize
    obtain ⟨taken, waiting, hrounds, hstands, hpasses⟩ :=
      @exists_rounds vertexSize lists fits hlinked _ hiterate m
    obtain rfl := Option.some.inj (hcalls.symm.trans hpeel)
    rcases List.mem_append.mp hc with hc | hc
    · exact hpasses c hc
    · obtain ⟨hrange, hopen, hcall⟩ := mem_finalCalls.mp hc
      rw [hstands.tracks.remaining_eq] at hcall
      rw [hcall]
      refine Passes.final hrounds (fun w hw => ?_) hrange.1 hrange.2 ?_
      · have hmem := (hstands.mem w).mpr hw
        rw [hnil] at hmem
        exact List.not_mem_nil hmem
      · rw [hstands.tracks.isFiltered] at hopen
        exact of_decide_eq_false hopen

end

end WorklistPeeling

end Vend
