import Vend.Vend.PeelOrder

/-! # What the worklist builds leave undecided

    A vertex that the peeling takes out has a list that fits, and its record is exact.
    A verdict can only be `Uncertain` when neither record of the pair is exact. So a
    build by worklist leaves open at most the pairs inside the union of the stuck sets
    (`InCore`), a set of vertices that does not depend on the order of the build.
-/

namespace Vend

/-! ## Section 1: Verdicts outside a set of vertices -/

/-- The answers agree with the graph, and a pair is left open only when both of its
    vertices are in the core. -/
structure Graph.DecidedOutside {vertexSize : Nat} (g : Graph vertexSize) (core : Nat → Prop)
    (verdict : Nat → Nat → PairType) : Prop where
  agrees : g.Agrees verdict
  uncertain : ∀ u v, 1 ≤ u → u ≤ vertexSize → 1 ≤ v → v ≤ vertexSize →
    verdict u v = .uncertain → core u ∧ core v

theorem PairType.min_eq_uncertain {a b : PairType} (h : PairType.min a b = uncertain) :
    a = uncertain ∧ b = uncertain := by
  cases a <;> cases b <;> simp_all [PairType.min, val]

/-- Without a decodable record on one side only, both verdicts are uncertain. -/
theorem combine_eq_uncertain {d₁ d₂ : Bool} {s₁ s₂ : Prop} {t₁ t₂ : PairType}
    (h₁ : Speaks d₁ s₁ t₁) (h₂ : Speaks d₂ s₂ t₂) (h : combine d₁ d₂ t₁ t₂ = .uncertain) :
    d₁ = false ∧ d₂ = false := by
  cases d₁ with
  | false =>
    cases d₂ with
    | false => exact ⟨rfl, rfl⟩
    | true => exact absurd h (h₂.ne_uncertain rfl)
  | true =>
    cases d₂ with
    | false => exact absurd h (h₁.ne_uncertain rfl)
    | true => exact absurd (PairType.min_eq_uncertain h).1 (h₁.ne_uncertain rfl)

namespace Graph

variable {vertexSize : Nat} {g : Graph vertexSize} {core : Nat → Prop}
variable {verdict : Nat → Nat → PairType}

/-- Outside the core the verdict is the truth. -/
theorem DecidedOutside.eq_of_not_core (h : g.DecidedOutside core verdict) {u v : Nat}
    (hu : 1 ≤ u) (hu' : u ≤ vertexSize) (hv : 1 ≤ v) (hv' : v ≤ vertexSize) (hne : u ≠ v)
    (hout : ¬ (core u ∧ core v)) :
    verdict u v = if v ∈ g.adj u then .neighbor else .nonNeighbor := by
  obtain ⟨hnon, hnb⟩ := h.agrees u v hu hu' hv hv' hne
  cases hcase : verdict u v with
  | neighbor => rw [if_pos (hnb hcase)]
  | nonNeighbor => rw [if_neg (hnon hcase)]
  | uncertain => exact absurd (h.uncertain u v hu hu' hv hv' hcase) hout

section

variable {ids : List Nat} {small : List (List Nat) → Prop} {calls : List Call}
variable {first : Nat → Bool} {keep : Nat → Nat → Bool} {test : Nat → Nat → PairType}

/-- The encoders that take the smaller of the two verdicts. -/
theorem decidedOutside_min (h : Covering ids g.lists small calls first keep)
    (hids : ∀ v, 1 ≤ v → v ≤ vertexSize → v ∈ ids)
    (hverdict : ∀ u v, verdict u v = PairType.min (test u v) (test v u))
    (hspeaks : ∀ u v, 1 ≤ u → u ≤ vertexSize → 1 ≤ v → v ≤ vertexSize →
      Speaks (first u) (v ∈ (g.adj u).filter (keep u)) (test u v)) :
    g.DecidedOutside (fun v => first v = false) verdict := by
  refine ⟨g.agrees_of_covering_min h hids hverdict hspeaks fun _ _ _ hf => hf, ?_⟩
  intro u v hu hu' hv hv' huncertain
  rw [hverdict] at huncertain
  obtain ⟨huv, hvu⟩ := PairType.min_eq_uncertain huncertain
  have hopen : ∀ u v, 1 ≤ u → u ≤ vertexSize → 1 ≤ v → v ≤ vertexSize →
      test u v = .uncertain → first u = false := by
    intro u v hu hu' hv hv' htest
    by_contra hf
    exact (hspeaks u v hu hu' hv hv').ne_uncertain (by simpa using hf) htest
  exact ⟨hopen u v hu hu' hv hv' huv, hopen v u hv hv' hu hu' hvu⟩

/-- The encoders that trust a decodable record alone. -/
theorem decidedOutside_combine (h : Covering ids g.lists small calls first keep)
    (hids : ∀ v, 1 ≤ v → v ≤ vertexSize → v ∈ ids) {decodable : Nat → Bool}
    (hverdict : ∀ u v, verdict u v = combine (decodable u) (decodable v) (test u v) (test v u))
    (hspeaks : ∀ u v, 1 ≤ u → u ≤ vertexSize → 1 ≤ v → v ≤ vertexSize →
      Speaks (decodable u) (v ∈ (g.adj u).filter (keep u)) (test u v))
    (hfirst : ∀ u, 1 ≤ u → u ≤ vertexSize → first u = true → decodable u = true) :
    g.DecidedOutside (fun v => first v = false) verdict := by
  refine ⟨g.agrees_of_covering h hids hverdict hspeaks hfirst, ?_⟩
  intro u v hu hu' hv hv' huncertain
  rw [hverdict] at huncertain
  have hopen : ∀ u, 1 ≤ u → u ≤ vertexSize → decodable u = false → first u = false := by
    intro u hu hu' hdec
    by_contra hf
    rw [hfirst u hu hu' (by simpa using hf)] at hdec
    cases hdec
  obtain ⟨hdec, hdec'⟩ := combine_eq_uncertain (hspeaks u v hu hu' hv hv')
    (hspeaks v u hv hv' hu hu') huncertain
  exact ⟨hopen u hu hu' hdec, hopen v hv hv' hdec'⟩

/-- A smaller core leaves less open. -/
theorem DecidedOutside.imp {core' : Nat → Prop} (h : g.DecidedOutside core verdict)
    (himp : ∀ v, 1 ≤ v → v ≤ vertexSize → core v → core' v) :
    g.DecidedOutside core' verdict := by
  refine ⟨h.agrees, ?_⟩
  intro u v hu hu' hv hv' huncertain
  obtain ⟨hcore, hcore'⟩ := h.uncertain u v hu hu' hv hv' huncertain
  exact ⟨himp u hu hu' hcore, himp v hv hv' hcore'⟩

end

end Graph

/-! ## Section 2: Sizes that do not wrap around -/

namespace WorklistPeeling

variable {vertexSize maxLen : Nat} {requiredSize full : List Nat → Nat} {g : Graph vertexSize}

/-- When the size of every list of the graph is its full sum, lists that fit keep fitting. -/
theorem Modular.shrinks (h : Modular vertexSize requiredSize full) (hsorted : g.Sorted)
    (hfull : ∀ v, full (g.adj v) < 2 ^ 32) :
    Shrinks g.lists fun ls => decide (requiredSize (ls.getD 0 []) ≤ maxLen) := by
  have hsize : ∀ v (p : Nat → Bool),
      requiredSize ((g.adj v).filter p) = full ((g.adj v).filter p) := by
    intro v p
    have hle := h.mono _ _ (List.filter_sublist (p := p)) (hsorted v)
    have hlt := hfull v
    rw [h.eq_mod _ ((hsorted v).filter p) fun w hw => Graph.mem_range (List.mem_of_mem_filter hw),
      Nat.mod_eq_of_lt (by omega)]
  intro v p q hsub hfits
  have hle := h.mono _ _ (List.monotone_filter_right (g.adj v) hsub) ((hsorted v).filter q)
  have hfits' : requiredSize ((g.adj v).filter q) ≤ maxLen := of_decide_eq_true hfits
  rw [hsize] at hfits'
  refine decide_eq_true (?_ : requiredSize ((g.adj v).filter p) ≤ maxLen)
  rw [hsize]
  exact Nat.le_trans hle hfits'

/-- The vertices that a build with this size function cannot take out. -/
def Core (g : Graph vertexSize) (requiredSize : List Nat → Nat) (maxLen : Nat) : Nat → Prop :=
  InCore vertexSize g.lists fun ls => decide (requiredSize (ls.getD 0 []) ≤ maxLen)

/-- The worklist build of an undirected graph, with the vertices that it leaves. -/
theorem encodeCalls_core (hshrinks : Shrinks g.lists fun ls =>
      decide (requiredSize (ls.getD 0 []) ≤ maxLen)) (hsize : vertexSize + 1 < 2 ^ 31)
    {iterate : Nat → List Nat → List Nat} (hiterate : ∀ n set, (iterate n set).Perm set) :
    ∃ calls first keep, encodeCalls g requiredSize maxLen iterate = some calls ∧
      Covering (List.range' 1 vertexSize) g.lists
        (fun ls => decide (requiredSize (ls.getD 0 []) ≤ maxLen) = true) calls first keep ∧
      (∀ v, 1 ≤ v → v ≤ vertexSize → (first v = false ↔ Core g requiredSize maxLen v)) ∧
      ∀ v w, first v = false → keep v w = !first w :=
  peel_core g.linked hshrinks hsize hiterate

end WorklistPeeling

/-! ## Section 3: The SIMD delta build -/

namespace DeltaSIMDVend

open DeltaSIMDCodec DeltaSIMDEncode WorklistPeeling

/-- With the codec `V0` a pair is left open only inside the core. -/
theorem decided_outside_core {c : Config} (hc : c.Narrow) {g : Graph c.vertexSize}
    (hsorted : g.Sorted) (hsize : c.vertexSize + 1 < 2 ^ 31) {iterate : Nat → List Nat → List Nat}
    (hiterate : ∀ n set, (iterate n set).Perm set) (tail : Nat → Nat → Byte) :
    ∃ encodes, buildEncoding g (getRequiredBytes .v0) (getBytesSize c) (encodeVertex c .v0) iterate
        (Records.fresh c) = some encodes ∧
      g.DecidedOutside (Core g (getRequiredBytes .v0) (getBytesSize c))
        (nePairTest c (codecOf .v0) tail encodes) := by
  have hlt := hc.vertexSize_lt
  have hshrinks : Shrinks g.lists fun ls =>
      decide (getRequiredBytes .v0 (ls.getD 0 []) ≤ getBytesSize c) := by
    intro v p q hsub hfits
    have hkept := ascending_kept hc (fun w hw => Graph.mem_range hw) (hsorted v) q
    have hle := getRequiredBytes_v0_sublist (List.monotone_filter_right (g.adj v) hsub) hkept
      fun w hw => (Graph.mem_range (List.mem_of_mem_filter hw)).1
    have hfits' : getRequiredBytes .v0 ((g.adj v).filter q) ≤ getBytesSize c :=
      of_decide_eq_true hfits
    exact decide_eq_true (Nat.le_trans hle hfits')
  obtain ⟨calls, first, keep, hrun, hcover, hcore, -⟩ := encodeCalls_core hshrinks hsize hiterate
  refine ⟨_, by rw [buildEncoding, encodeCalls, hrun]; rfl, ?_⟩
  have hids : ∀ v, 1 ≤ v → v ≤ c.vertexSize → v ∈ List.range' 1 c.vertexSize :=
    fun v => mem_vertices
  have hrecord : ∀ v, 1 ≤ v → v ≤ c.vertexSize → _ := fun v =>
    record_foldl_vertices hcover (encodeBits c .v0) 0
  have hkept : ∀ v, Ascending ((g.adj v).filter (keep v)) := fun v =>
    ascending_kept hc (fun w hw => Graph.mem_range hw) (hsorted v) (keep v)
  have hdecided := Graph.decidedOutside_combine hcover hids
    (nePairTest_eq_combine c (codecOf .v0) tail (calls.foldl
      (fun st call => encodeVertex c .v0 call.vertex (passed call) st) (Records.fresh c))) ?_ ?_
  · exact hdecided.imp fun v hv hv' hopen => (hcore v hv hv').mp hopen
  · intro u v hu hu' _ hv'
    have hspeaks := speaks_encodeBits hc .v0 (hkept u) (tail u) (show v < 2 ^ 31 by omega)
    rw [← getFirstBit_encodeBits hc .v0 (hkept u)] at hspeaks
    simp only [isDecodable, encodeVertex, passed, hrecord u hu hu']
    exact hspeaks
  · intro u hu hu' hf
    -- a list that was taken out fits, and its record is decodable
    have hfits := of_decide_eq_true (hcover.small_of_first (hids u hu hu') hf)
    simp only [isDecodable, encodeVertex, passed, hrecord u hu hu']
    rw [Graph.lists, List.getD_cons_zero, getFirstBit_encodeBits hc .v0 (hkept u)]
    exact decide_eq_true hfits

/-- In the complete graph on four vertices every pair is inside the core. -/
theorem decided_outside_core_clique : fourConfig.Narrow ∧ fourClique.Sorted ∧
    ∃ encodes, buildEncoding fourClique (getRequiredBytes .v0) 3 (encodeVertex fourConfig .v0)
        (fun _ set => set.reverse) (Records.fresh fourConfig) = some encodes ∧
      fourClique.DecidedOutside (Core fourClique (getRequiredBytes .v0) 3)
        (nePairTest fourConfig (codecOf .v0) (fun _ _ => 0) encodes) := by
  have hsorted : fourClique.Sorted := Graph.sorted_of_forall_lt (by decide)
  exact ⟨fourConfig_narrow, hsorted, decided_outside_core (c := fourConfig) fourConfig_narrow
    hsorted (by decide) (fun _ set => List.reverse_perm set) _⟩

end DeltaSIMDVend

end Vend
