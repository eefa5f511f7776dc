import Vend.Encode.DeltaSIMDEncode
import Vend.Vend.WorklistPeeling

/-! # SIMD delta vend

    The build of `DeltaSIMDEncode` by `DeltaSIMDVEND::BuildEncoding`, with the versions
    `V0`, `V1` and `V2` of its codec.

    The fitting test of the build is the one of `EncodeVertex`, so a vertex that is
    taken out is decodable. With the coverage of the worklist peeling this is enough
    for every verdict to agree with the graph, as long as the `int` counters of the build
    and of the constructor of the encoder hold the vertices.
-/

namespace Vend

open DeltaSIMDCodec

/-! ## Section 1: Model -/

namespace DeltaSIMDVend

open DeltaSIMDEncode WorklistPeeling

/-- `BuildEncoding` with an encoder: `requiredBytes` is the `GetRequiredBytes` of its codec
    and `maxLen` its `GetBytesSize()`. -/
def buildEncoding {σ : Type} {vertexSize : Nat} (g : Graph vertexSize)
    (requiredBytes : List Nat → Nat) (maxLen : Nat) (encodeVertex : Nat → List Nat → σ → σ)
    (iterate : Nat → List Nat → List Nat) (encodes : σ) : Option σ :=
  (encodeCalls g requiredBytes maxLen iterate).map fun calls =>
    calls.foldl (fun st call => encodeVertex call.vertex (passed call) st) encodes

/-- `int vertex` overflows before the last vertex is encoded. -/
theorem buildEncoding_eq_none {σ : Type} {vertexSize : Nat} (hsize : ¬ vertexSize + 1 < 2 ^ 31)
    (g : Graph vertexSize) (requiredBytes : List Nat → Nat) (maxLen : Nat)
    (encodeVertex : Nat → List Nat → σ → σ) (iterate : Nat → List Nat → List Nat) (encodes : σ) :
    buildEncoding g requiredBytes maxLen encodeVertex iterate encodes = none := by
  rw [buildEncoding, encodeCalls, WorklistPeeling.encodeCalls, peel_eq_none hsize]
  rfl

/-! ## Section 2: The build is sound -/

/-- What is left of a sorted list of neighbours can be written by the codec. -/
theorem ascending_kept {c : Config} (hc : c.Narrow) {l : List Nat}
    (hrange : ∀ w ∈ l, 1 ≤ w ∧ w ≤ c.vertexSize) (hsorted : l.Pairwise (· < ·))
    (keep : Nat → Bool) : Ascending (l.filter keep) := by
  refine ⟨hsorted.filter keep, fun w hw => ?_⟩
  have hle := (hrange w (List.mem_of_mem_filter hw)).2
  have hlt := hc.vertexSize_lt
  omega

/-- The SIMD build answers correctly with every codec of fixed groups. -/
theorem exists_agrees {c : Config} (hc : c.Narrow) (ver : Version) {g : Graph c.vertexSize}
    (hsorted : g.Sorted) (hsize : c.vertexSize + 1 < 2 ^ 31) {iterate : Nat → List Nat → List Nat}
    (hiterate : ∀ n set, (iterate n set).Perm set) (tail : Nat → Nat → Byte) :
    ∃ encodes, buildEncoding g (getRequiredBytes ver) (getBytesSize c) (encodeVertex c ver) iterate
        (Records.fresh c) = some encodes ∧
      g.Agrees (nePairTest c (codecOf ver) tail encodes) := by
  obtain ⟨calls, first, keep, hrun, -, hcover⟩ :=
    encodeCalls_spec (g := g) hsize hiterate
  refine ⟨_, by rw [buildEncoding, encodeCalls, hrun]; rfl, ?_⟩
  have hids : ∀ v, 1 ≤ v → v ≤ c.vertexSize → v ∈ List.range' 1 c.vertexSize :=
    fun v => mem_vertices
  have hrecord : ∀ v, 1 ≤ v → v ≤ c.vertexSize → _ := fun v =>
    record_foldl_vertices hcover (encodeBits c ver) 0
  have hkept : ∀ v, Ascending ((g.adj v).filter (keep v)) := fun v =>
    ascending_kept hc (fun w hw => Graph.mem_range hw) (hsorted v) (keep v)
  refine g.agrees_of_covering hcover hids (nePairTest_eq_combine c (codecOf ver) tail _) ?_ ?_
  · intro u v hu hu' _ hv'
    have hlt := hc.vertexSize_lt
    have hspeaks := speaks_encodeBits hc ver (hkept u) (tail u) (show v < 2 ^ 31 by omega)
    rw [← getFirstBit_encodeBits hc ver (hkept u)] at hspeaks
    simp only [isDecodable, encodeVertex, passed, hrecord u hu hu']
    exact hspeaks
  · intro u hu hu' hf
    have hfits := of_decide_eq_true (hcover.small_of_first (hids u hu hu') hf)
    simp only [isDecodable, encodeVertex, passed, hrecord u hu hu']
    rw [Graph.lists, List.getD_cons_zero, getFirstBit_encodeBits hc ver (hkept u)]
    exact decide_eq_true hfits

/-- It ends when `int` holds `VERTEX_SIZE + 1`, and then every verdict agrees with the graph. -/
theorem buildEncoding_agrees_iff {c : Config} (hc : c.Narrow) (ver : Version)
    {g : Graph c.vertexSize} (hsorted : g.Sorted) {iterate : Nat → List Nat → List Nat}
    (hiterate : ∀ n set, (iterate n set).Perm set) (tail : Nat → Nat → Byte) :
    (∃ encodes, buildEncoding g (getRequiredBytes ver) (getBytesSize c) (encodeVertex c ver) iterate
        (Records.fresh c) = some encodes ∧
      g.Agrees (nePairTest c (codecOf ver) tail encodes)) ↔ c.vertexSize + 1 < 2 ^ 31 := by
  constructor
  · rintro ⟨encodes, hrun, -⟩
    by_contra hsize
    rw [buildEncoding_eq_none hsize] at hrun
    cases hrun
  · intro hsize
    exact exists_agrees hc ver hsorted hsize hiterate tail

/-- Four vertices and one word for each: three bytes behind the header. -/
def fourConfig : Config := Config.ofSizes 1 4 2 (by decide)

theorem fourConfig_narrow : fourConfig.Narrow := ⟨by decide, by decide⟩

/-- The complete graph on four vertices, whose lists take four bytes. -/
def fourClique : Graph 4 where
  adjacencyList := [[], [2, 3, 4], [1, 3, 4], [1, 2, 4], [1, 2, 3]]
  zero := by decide
  length := by decide
  range := by decide
  loopless := by decide
  nodup := by decide
  symm := by decide

theorem buildEncoding_agrees_clique :
    fourConfig.Narrow ∧ fourClique.Sorted ∧
    (∃ encodes, buildEncoding fourClique (getRequiredBytes .v0) 3 (encodeVertex fourConfig .v0)
        (fun _ set => set) (Records.fresh fourConfig) = some encodes ∧
      fourClique.Agrees (nePairTest fourConfig (codecOf .v0) (fun _ _ => 0) encodes)) ∧
    (∃ encodes, buildEncoding fourClique (getRequiredBytes .v1) 3 (encodeVertex fourConfig .v1)
        (fun _ set => set) (Records.fresh fourConfig) = some encodes ∧
      fourClique.Agrees (nePairTest fourConfig (codecOf .v1) (fun _ _ => 0) encodes)) ∧
    ∃ encodes, buildEncoding fourClique (getRequiredBytes .v2) 3 (encodeVertex fourConfig .v2)
        (fun _ set => set) (Records.fresh fourConfig) = some encodes ∧
      fourClique.Agrees (nePairTest fourConfig (codecOf .v2) (fun _ _ => 0) encodes) := by
  have hsorted : fourClique.Sorted := Graph.sorted_of_forall_lt (by decide)
  have hiterate : ∀ (_ : Nat) (set : List Nat), set.Perm set := fun _ set => List.Perm.refl set
  refine ⟨fourConfig_narrow, hsorted, ?_, ?_, ?_⟩
  · exact (buildEncoding_agrees_iff (c := fourConfig) fourConfig_narrow .v0 hsorted hiterate
      _).mpr (by decide)
  · exact (buildEncoding_agrees_iff (c := fourConfig) fourConfig_narrow .v1 hsorted hiterate
      _).mpr (by decide)
  · exact (buildEncoding_agrees_iff (c := fourConfig) fourConfig_narrow .v2 hsorted hiterate
      _).mpr (by decide)

/-- One word for each of `2 ^ 31 - 1` vertices. -/
def intConfig : Config := Config.ofSizes 1 (2 ^ 31 - 1) 2 (by decide)

/-- In front of the last vertex `int vertex` is `2 ^ 31 - 1` and is incremented once more. -/
theorem edgeless_not_built :
    intConfig.Narrow ∧ (Graph.edgeless intConfig.vertexSize).Sorted ∧
    ∀ ver, ¬ ∃ encodes, buildEncoding (Graph.edgeless intConfig.vertexSize) (getRequiredBytes ver)
        (getBytesSize intConfig) (encodeVertex intConfig ver) (fun _ set => set)
        (Records.fresh intConfig) = some encodes ∧
      (Graph.edgeless intConfig.vertexSize).Agrees
        (nePairTest intConfig (codecOf ver) (fun _ _ => 0) encodes) := by
  refine ⟨⟨by decide, by decide⟩, Graph.edgeless_sorted _, ?_⟩
  rintro ver ⟨encodes, hrun, -⟩
  rw [buildEncoding_eq_none (by decide)] at hrun
  cases hrun

end DeltaSIMDVend

end Vend
