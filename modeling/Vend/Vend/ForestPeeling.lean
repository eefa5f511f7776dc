import Vend.Vend.BucketPeeling

/-! # Peeling a forest off a core

    The bucket peeling of a graph whose vertices outside a core hang on it like a
    forest: they can be listed so that each has at most one neighbour behind it or in
    the core. The k-core loop then takes out exactly these vertices, and finds at most
    one neighbour left at each.

    The keys of `BucketPeeling` only bound the neighbours that are left from above.
    `Slack` is the other direction: a vertex with at most one neighbour left has a key
    of at most 1, so that the loop does come upon it first.
-/

namespace Vend

namespace BucketPeeling

/-! ## Section 1: Vertices that hang on a core -/

/-- Each vertex of the list has at most one neighbour behind it or in `core`. -/
def Hangs (lists : Nat → List (List Nat)) (core : Finset Nat) : List Nat → Prop
  | [] => True
  | v :: vs =>
    ((lists v).flatten.countP fun w => decide (w ∈ core ∨ w ∈ vs)) ≤ 1 ∧ Hangs lists core vs

instance decidableHangs (lists : Nat → List (List Nat)) (core : Finset Nat) :
    ∀ vs, Decidable (Hangs lists core vs)
  | [] => isTrue trivial
  | v :: vs =>
    have := decidableHangs lists core vs
    inferInstanceAs (Decidable
      (((lists v).flatten.countP fun w => decide (w ∈ core ∨ w ∈ vs)) ≤ 1 ∧ Hangs lists core vs))

/-- Whatever is left of the vertices outside the core, the first of them in the list has at
    most one neighbour left. -/
theorem Hangs.exists_leaf {vertexSize : Nat} {lists : Nat → List (List Nat)} {core : Finset Nat}
    (hlists : Peelable vertexSize lists) {vs : List Nat} (h : Hangs lists core vs)
    (left : Nat → Bool) (hleft : ∃ v ∈ vs, left v = true)
    (hcover : ∀ w, left w = true → w ∈ core ∨ w ∈ vs) :
    ∃ v ∈ vs, left v = true ∧ (lists v).flatten.countP left ≤ 1 := by
  induction vs with
  | nil => simp at hleft
  | cons v vs ih =>
    obtain ⟨hone, hrest⟩ := h
    by_cases hv : left v = true
    · refine ⟨v, List.mem_cons_self, hv, Nat.le_trans ?_ hone⟩
      apply List.countP_mono_left
      intro w hw hlw
      have hne : w ≠ v := fun heq => hlists.loopless v (heq ▸ hw)
      rw [decide_eq_true_eq]
      simpa [hne] using hcover w hlw
    · -- `v` is gone, and the rest of the list covers what is left
      have hne : ∀ w, left w = true → w ≠ v := fun w hw heq => hv (heq ▸ hw)
      obtain ⟨w, hw, hlw⟩ := hleft
      have hw' : w ∈ vs := by simpa [hne w hlw] using hw
      obtain ⟨x, hx, hlx, hcount⟩ := ih hrest ⟨w, hw', hlw⟩
        (fun w hw => by simpa [hne w hw] using hcover w hw)
      exact ⟨x, List.mem_cons_of_mem v hx, hlx, hcount⟩

/-! ## Section 2: The keys that are left -/

/-- A vertex that is left has no larger key than neighbours left, unless the key is 1. -/
def Slack (lists : Nat → List (List Nat)) (n : Nat) (s : Arrays) (idx : Nat) : Prop :=
  ∀ v, v < n → idx ≤ s.view.pos v →
    s.view.key v ≤ max 1 ((lists v).flatten.countP fun w => !s.filtered.getD w false)

section

variable {vertexSize maxKcore bound top idx : Nat} {lists : Nat → List (List Nat)}
variable {core : Finset Nat} {s : Arrays} {vs order : List Nat}
variable (hlists : Peelable vertexSize lists)
include hlists

/-- As long as a vertex outside the core is left, some vertex with key at most 1 is. -/
theorem PeelInv.exists_light (h : PeelInv lists (vertexSize + 1) top bound core s idx)
    (hslack : Slack lists (vertexSize + 1) s idx) (hhangs : Hangs lists core vs)
    (hall : ∀ v, 1 ≤ v → v ≤ vertexSize → v ∈ core ∨ v ∈ vs) {u : Nat} (hu : u < vertexSize + 1)
    (hpos : idx ≤ s.view.pos u) (hout : u ∉ core) :
    ∃ v, v < vertexSize + 1 ∧ idx ≤ s.view.pos v ∧ s.view.key v ≤ 1 := by
  have hleft : ∀ w, w < vertexSize + 1 →
      (s.filtered.getD w false = false ↔ idx ≤ s.view.pos w) := by
    intro w hw
    have hiff := h.filtered_iff w hw
    rw [← Bool.not_eq_true, hiff]
    omega
  rcases Nat.eq_zero_or_pos u with rfl | hupos
  · -- the unused vertex has no neighbours
    refine ⟨0, hu, hpos, ?_⟩
    have hle := hslack 0 hu hpos
    simpa [hlists.zero] using hle
  · have hmem : u ∈ vs := (hall u hupos (by omega)).resolve_left hout
    obtain ⟨v, -, hv, hcount⟩ := hhangs.exists_leaf hlists
      (fun w => decide (1 ≤ w ∧ w < vertexSize + 1) && !s.filtered.getD w false)
      ⟨u, hmem, by
        rw [(hleft u hu).mpr hpos]
        simp
        omega⟩
      (fun w hw => by
        simp only [Bool.and_eq_true, decide_eq_true_eq] at hw
        exact hall w hw.1.1 (by omega))
    simp only [Bool.and_eq_true, decide_eq_true_eq, Bool.not_eq_true'] at hv
    have hposv := (hleft v hv.1.2).mp hv.2
    refine ⟨v, hv.1.2, hposv, Nat.le_trans (hslack v hv.1.2 hposv) ?_⟩
    have hsame : ((lists v).flatten.countP fun w => !s.filtered.getD w false) =
        (lists v).flatten.countP fun w =>
          decide (1 ≤ w ∧ w < vertexSize + 1) && !s.filtered.getD w false := by
      apply List.countP_congr
      intro w hw
      have hrange := hlists.range v w hw
      have hin : 1 ≤ w ∧ w < vertexSize + 1 := by omega
      simp [hin]
    rw [hsame]
    omega

omit hlists in
/-- The loop comes upon a vertex with key at most 1 first. -/
theorem PeelInv.key_le_one (h : PeelInv lists (vertexSize + 1) top bound core s idx)
    (htop : 2 ≤ top) (hidx : idx < vertexSize + 1) (hb : idx < bound)
    (hlight : ∃ v, v < vertexSize + 1 ∧ idx ≤ s.view.pos v ∧ s.view.key v ≤ 1) :
    s.view.key (s.view.vert idx) ≤ 1 := by
  obtain ⟨v, hv, hpos, hkey⟩ := hlight
  have hpv := h.ordered.pos_lt v hv
  rcases Nat.lt_or_ge idx (s.view.bin 2) with hlt | hge
  · have := h.ordered.lt_of_lt_bin 2 htop idx hidx hb hlt
    omega
  · -- behind the start of bucket 2 every key is 2 at least
    have hle := h.ordered.le_of_bin_le 2 (Nat.le_refl 2) htop (by omega) (s.view.pos v) hpv
      (by omega)
    rw [h.ordered.vert_pos v hv] at hle
    omega

/-- A round that takes out a vertex of key at most 1 keeps `Slack`. -/
theorem PeelInv.slack_peelVertex (h : PeelInv lists (vertexSize + 1) top bound core s idx)
    (hidx : idx < vertexSize + 1) (hb : idx < bound) (hslack : Slack lists (vertexSize + 1) s idx)
    (hkey : s.view.key (s.view.vert idx) ≤ 1) {s' : Arrays} {call : Call}
    (heq : BucketPeeling.peelVertex lists s idx = some (s', call)) :
    Slack lists (vertexSize + 1) s' (idx + 1) := by
  obtain ⟨s₁, heq₁, h₁, hlow, hfilset⟩ := h.relax_run hlists hidx hb
  rw [heq₁] at heq
  obtain ⟨rfl, -⟩ := Prod.mk.inj (Option.some.inj heq)
  intro v hv hpos
  change idx + 1 ≤ s₁.view.pos v at hpos
  change s₁.view.key v ≤ max 1 ((lists v).flatten.countP fun w =>
    !(s₁.filtered.set (s.view.vert idx) true).getD w false)
  have hposiff := pos_lt_iff_of_vert_eq h.ordered.toArranged h₁.ordered.toArranged
    (by omega : idx + 1 ≤ vertexSize + 1) (fun i hi => h₁.vert_eq i (by omega)) hv
  have hleft : s.filtered.getD v false = false := by
    rw [← Bool.not_eq_true, h.filtered_iff v hv]
    omega
  have hcur : s.filtered.getD (s.view.vert idx) false = false := by
    rw [← Bool.not_eq_true, h.filtered_iff _ (h.ordered.vert_lt idx hidx),
      h.ordered.pos_vert idx hidx]
    omega
  have hsplit := countP_not_take_out (lists v).flatten (f := fun w => s.filtered.getD w false) hcur
  have hold := hslack v hv (by omega)
  have hnew := hlow hkey v hleft
  rw [hlists.symm] at hnew
  simp only [hfilset]
  omega

theorem slack_initArrays (horder : SortedOrder vertexSize lists order)
    (heq : initArrays vertexSize lists order = some s) : Slack lists (vertexSize + 1) s 0 := by
  intro v hv _
  obtain ⟨s', heq', -, -, hkey, -, -, hfil⟩ := initArrays_spec hlists horder
  rw [heq] at heq'
  obtain rfl := Option.some.inj heq'
  rw [hkey v (by omega)]
  simp only [hfil, Bool.not_false, List.countP_true]
  exact Nat.le_max_right _ _

/-- One round of the first loop: it keeps `Slack` and finds one neighbour at most. -/
theorem PeelInv.slack_round (hone : 1 ≤ maxKcore)
    (hcore : IsCore lists (vertexSize + 1) maxKcore core)
    (hbound : vertexSize + 2 ≤ bound + core.card) (htop : maxKcore + 1 ≤ top)
    (hhangs : Hangs lists core vs) (hall : ∀ v, 1 ≤ v → v ≤ vertexSize → v ∈ core ∨ v ∈ vs)
    (h : PeelInv lists (vertexSize + 1) top bound core s idx)
    (hslack : Slack lists (vertexSize + 1) s idx) (hlt : idx < s.view.bin (maxKcore + 1))
    {s' : Arrays} {call : Call} (heq : BucketPeeling.peelVertex lists s idx = some (s', call)) :
    Slack lists (vertexSize + 1) s' (idx + 1) ∧
    ((lists (s.view.vert idx)).flatten.countP fun w => !s.filtered.getD w false) ≤ 1 := by
  have hidx := h.idx_lt htop hlt
  have hb := h.idx_lt_bound (by omega) hcore.lt hbound
  have hu := h.ordered.vert_lt idx hidx
  have hpos := h.ordered.pos_vert idx hidx
  -- the current vertex has a small key, so it does not belong to the core
  have hout : s.view.vert idx ∉ core := by
    intro hmem
    have h₁ := h.lt_key_of_core hcore hmem
    have h₂ := h.ordered.lt_of_lt_bin _ htop idx hidx hb hlt
    omega
  have hlight := h.exists_light hlists hslack hhangs hall hu (by omega) hout
  have hkey := h.key_le_one (by omega) hidx hb hlight
  refine ⟨h.slack_peelVertex hlists hidx hb hslack hkey heq, ?_⟩
  exact Nat.le_trans (h.rest_le _ hu (by omega)) hkey

end

/-! ## Section 3: The whole build -/

/-- The build peels exactly the vertices outside the core, each with at most one neighbour
    left. -/
theorem peel_forest {vertexSize maxKcore : Nat} {lists : Nat → List (List Nat)}
    {order vs : List Nat} {core : Finset Nat} (hlists : Peelable vertexSize lists)
    (horder : SortedOrder vertexSize lists order) (hsize : vertexSize + 1 < 2 ^ 31)
    (hdeg : maxDegree vertexSize lists + 1 < 2 ^ 31) (hmax : maxKcore < maxDegree vertexSize lists)
    (hone : 1 ≤ maxKcore) (hcore : IsCore lists (vertexSize + 1) maxKcore core)
    (hgaps : GapsClosed vertexSize lists core) (hhangs : Hangs lists core vs)
    (hall : ∀ v, 1 ≤ v → v ≤ vertexSize → v ∈ core ∨ v ∈ vs) :
    ∃ calls first keep, peel vertexSize lists maxKcore order = some calls ∧
      Covering (List.range (vertexSize + 1)) lists (fun ls => ls.flatten.length ≤ 1)
        calls first keep ∧
      (∀ v, v ≤ vertexSize → (first v = false ↔ v ∈ core)) ∧
      ∀ v ∈ core, ∀ w, w ≤ vertexSize → (keep v w = true ↔ w ∈ core) := by
  obtain ⟨s, k, bound, hbound, hinv, hslack, hend, hk, heq, hcount⟩ := peel_eq hlists horder hsize
    hdeg hmax hcore hgaps (Slack lists (vertexSize + 1)) 1
    (fun _ heq => slack_initArrays hlists horder heq)
    (fun bound hbound s idx s' call h hslack hlt heq =>
      h.slack_round hlists hone hcore hbound hmax hhangs hall hslack hlt heq)
  have hb := hinv.idx_lt_bound hk hcore.lt hbound
  have hleft : ∀ v, v ≤ vertexSize → (k ≤ s.view.pos v ↔ v ∈ core) := by
    intro v hv
    constructor
    · intro hpos
      by_contra hout
      obtain ⟨w, hw, hposw, hkey⟩ := hinv.exists_light hlists hslack hhangs hall
        (by omega : v < vertexSize + 1) hpos hout
      have hge := hinv.ordered.le_of_bin_le (maxKcore + 1) (by omega) hmax (by omega)
        (s.view.pos w) (hinv.ordered.pos_lt w hw) (by omega)
      rw [hinv.ordered.vert_pos w hw] at hge
      omega
    · exact hinv.core_le v
  refine ⟨_, _, _, heq, covering_callAt hinv.ordered.toArranged hcount, ?_, ?_⟩
  · intro v hv
    rw [decide_eq_false_iff_not, ← hleft v hv]
    omega
  · intro v hv w hw
    have hpos := hinv.core_le v hv
    rw [decide_eq_true_eq, ← hleft w hw]
    omega

end BucketPeeling

end Vend
