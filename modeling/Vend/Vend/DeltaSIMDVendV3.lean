import Vend.Encode.ReadBack
import Vend.Vend.DeltaSIMDVend
import Vend.Vend.PeelRounds
import Mathlib.Data.List.Sublists

/-! # SIMD delta vend with the tree-ordered codec

    `DeltaSIMDVEND::BuildEncoding` with a fresh `DeltaSIMDEncodeV3` and `HSIMD = 0`. The
    build is that of the older versions, and so is the argument: a vertex that is taken
    out is decodable, and a record speaks for the list it was written from. The second
    half needs that every list the build passes is read back (`ReadsBack`), which the
    older codecs always do and `V3` does not.

    The size function of `V3` may grow when an id is removed, since the tree is laid out
    anew, so the vertices that are taken out depend on the order of the sets. The condition
    is on all peelings of the graph (`Passed`), and each of them is the one of some order.
-/

namespace Vend

namespace DeltaSIMDVend

open DeltaSIMDEncode (codecV3 getBytesSize isDecodable nePairTest nePairTest_eq_combine)
open DeltaSIMDEncodeV3 WorklistPeeling

/-! ## Section 1: The lists that are passed -/

/-- Some peeling of the graph writes the vertex with these neighbours. -/
def Passed (c : Config) (g : Graph c.vertexSize) (v : Nat) (ids : List Nat) : Prop :=
  Passes c.vertexSize g.lists
    (fun ls => decide (DeltaSIMDCodecV3.getRequiredBytes (ls.getD 0 []) ≤ getBytesSize c)) v [ids]

section

variable {c : Config} {g : Graph c.vertexSize} {v : Nat} {ids : List Nat}

/-- They are some of the neighbours of a vertex. -/
theorem Passed.exists_filter (h : Passed c g v ids) :
    (1 ≤ v ∧ v ≤ c.vertexSize) ∧ ∃ keep : Nat → Bool, ids = (g.adj v).filter keep := by
  obtain ⟨hrange, keep, heq⟩ := Passes.exists_filter g.linked h
  exact ⟨hrange, keep, List.singleton_inj.mp heq⟩

/-- In some order of its sets the build passes them, and it passes nothing else. -/
theorem passed_iff (hsize : c.vertexSize + 1 < 2 ^ 31) : Passed c g v ids ↔
    ∃ iterate, Iterates iterate ∧ ∃ calls,
      encodeCalls g DeltaSIMDCodecV3.getRequiredBytes (getBytesSize c) iterate = some calls ∧
      ∃ call ∈ calls, call.vertex = v ∧ call.neighbors = [ids] :=
  passes_iff g.linked hsize

end

/-! ## Section 2: The build -/

section

variable {c : Config} (hc : c.Narrow) {g : Graph c.vertexSize} (hsorted : g.Sorted)
variable (hsize : c.vertexSize + 1 < 2 ^ 31) {iterate : Nat → List Nat → List Nat}
variable (hiterate : Iterates iterate)
include hc hsorted hsize hiterate

/-- When every list that the build passes is read back, its answers are correct. -/
theorem exists_agrees_v3 (hread : ∀ v ids, Passed c g v ids → ReadsBackSorted c ids)
    (tail : Nat → Nat → Byte) :
    ∃ encodes, buildEncoding g DeltaSIMDCodecV3.getRequiredBytes (getBytesSize c)
        (encodeVertex c) iterate (Records.fresh c) = some encodes ∧
      g.Agrees (nePairTest c codecV3 tail encodes) := by
  obtain ⟨calls, first, keep, hrun, -, hcover⟩ :=
    @encodeCalls_spec _ g DeltaSIMDCodecV3.getRequiredBytes (getBytesSize c) hsize _ hiterate
  refine ⟨_, by rw [buildEncoding, encodeCalls, hrun]; rfl, ?_⟩
  have hids : ∀ v, 1 ≤ v → v ≤ c.vertexSize → v ∈ List.range' 1 c.vertexSize :=
    fun v => mem_vertices
  have hrecord : ∀ v, 1 ≤ v → v ≤ c.vertexSize → _ := fun v =>
    record_foldl_vertices hcover (encodeBits c) 0
  have hkept : ∀ v, DeltaSIMDCodec.Ascending ((g.adj v).filter (keep v)) := fun v =>
    ascending_kept hc (fun w hw => Graph.mem_range hw) (hsorted v) (keep v)
  have hclear := (DeltaSIMDEncode.fresh_header c).1
  -- every vertex has its call, and what the call passes is passed in a peeling
  have hback : ∀ v, 1 ≤ v → v ≤ c.vertexSize → ReadsBack c ((g.adj v).filter (keep v)) := by
    intro v hv hv'
    obtain ⟨call, hcall, rfl⟩ := List.mem_map.mp (hcover.perm.mem_iff.mpr (hids v hv hv'))
    rw [readsBack_iff_sorted hc (hkept _)]
    exact hread call.vertex _ ((passed_iff hsize).mpr
      ⟨iterate, hiterate, calls, hrun, call, hcall, rfl, (hcover.call_eq call hcall).2⟩)
  refine g.agrees_of_covering hcover hids (nePairTest_eq_combine c codecV3 tail _) ?_ ?_
  · intro u v hu hu' _ hv'
    have hlt := hc.vertexSize_lt
    have hspeaks := speaks_encodeBits hc (isRecord_ofBitSize c) (hback u hu hu') (Or.inr hclear)
      (tail u) (show v < 2 ^ 31 by omega)
    rw [← getFirstBit_encodeBits hc (isRecord_ofBitSize c) (hback u hu hu') (Or.inr hclear)]
      at hspeaks
    simp only [isDecodable, encodeVertex, passed, hrecord u hu hu']
    exact hspeaks
  · intro u hu hu' hf
    have hfits := of_decide_eq_true (hcover.small_of_first (hids u hu hu') hf)
    simp only [isDecodable, encodeVertex, passed, hrecord u hu hu']
    exact (decodableRecord_encodeBits hc (isRecord_ofBitSize c) hfits).flag

/-- A list that is not read back has an id that its record denies. -/
theorem exists_denied_v3 {calls : List Call}
    (hcalls : encodeCalls g DeltaSIMDCodecV3.getRequiredBytes (getBytesSize c) iterate = some calls)
    {call : Call} (hcall : call ∈ calls)
    (hread : DeltaSIMDCodecV3.getRequiredBytes (passed call) ≤ getBytesSize c ∨
      ¬ Misread c (passed call))
    (hlost : ¬ ReadsBackSorted c (passed call)) (tail : Nat → Byte) :
    ∃ encodes, buildEncoding g DeltaSIMDCodecV3.getRequiredBytes (getBytesSize c)
        (encodeVertex c) iterate (Records.fresh c) = some encodes ∧
      ∃ w ∈ passed call, nonNeighborTest c false tail encodes call.vertex w = .nonNeighbor := by
  obtain ⟨calls', first, keep, hrun, -, hcover⟩ :=
    @encodeCalls_spec _ g DeltaSIMDCodecV3.getRequiredBytes (getBytesSize c) hsize _ hiterate
  obtain rfl : calls' = calls := Option.some.inj (hrun.symm.trans hcalls)
  refine ⟨_, by rw [buildEncoding, hcalls]; rfl, ?_⟩
  have hpassed : passed call = (g.adj call.vertex).filter (keep call.vertex) := by
    rw [passed, (hcover.call_eq call hcall).2]
    rfl
  have hmem := hcover.perm.mem_iff.mp (List.mem_map_of_mem hcall)
  rw [List.mem_range'_1] at hmem
  have hkept := ascending_kept hc (fun w hw => Graph.mem_range hw) (hsorted call.vertex)
    (keep call.vertex)
  rw [← hpassed] at hkept
  have hexact := readsBackSorted_iff hc hkept hread tail
  by_contra hnone
  refine hlost (hexact.mpr fun w hw hdenied => hnone ⟨w, hw, ?_⟩)
  simp only [nonNeighborTest, encodeVertex, passed,
    record_foldl_vertices hcover (encodeBits c) 0 hmem.1 (show call.vertex ≤ c.vertexSize by omega)]
  rw [show ((g.lists call.vertex).getD 0 []).filter (keep call.vertex) = passed call from
    hpassed.symm]
  exact hdenied

end

/-- The answers are correct, in whatever order the sets are gone through, when the counters hold
    the vertices and every list that a peeling of the graph passes is read back. Without the
    first the build has no result. Without the second a build in some order leaves a record that
    denies one of its ids, unless the record takes hash bits for ids. -/
theorem v3_buildEncoding_agrees {c : Config} (hc : c.Narrow) {g : Graph c.vertexSize}
    (hsorted : g.Sorted) (tail : Nat → Nat → Byte) :
    (c.vertexSize + 1 < 2 ^ 31 → (∀ v ids, Passed c g v ids → ReadsBackSorted c ids) →
      ∀ iterate, Iterates iterate →
        ∃ encodes, buildEncoding g DeltaSIMDCodecV3.getRequiredBytes (getBytesSize c)
            (encodeVertex c) iterate (Records.fresh c) = some encodes ∧
          g.Agrees (nePairTest c codecV3 tail encodes)) ∧
    (¬ c.vertexSize + 1 < 2 ^ 31 → ∀ iterate,
      buildEncoding g DeltaSIMDCodecV3.getRequiredBytes (getBytesSize c) (encodeVertex c) iterate
        (Records.fresh c) = none) ∧
    (c.vertexSize + 1 < 2 ^ 31 → ∀ v ids, Passed c g v ids → ¬ ReadsBackSorted c ids →
      (DeltaSIMDCodecV3.getRequiredBytes ids ≤ getBytesSize c ∨ ¬ Misread c ids) →
      ∃ iterate, Iterates iterate ∧
        ∃ encodes, buildEncoding g DeltaSIMDCodecV3.getRequiredBytes (getBytesSize c)
            (encodeVertex c) iterate (Records.fresh c) = some encodes ∧
          ∃ w ∈ ids, nonNeighborTest c false (tail v) encodes v w = .nonNeighbor) := by
  refine ⟨?_, ?_, ?_⟩
  · intro hsize hread iterate hiterate
    exact exists_agrees_v3 hc hsorted hsize hiterate hread tail
  · intro hsize iterate
    exact buildEncoding_eq_none hsize _ _ _ _ _ _
  · intro hsize v ids hpassed hlost hread
    obtain ⟨iterate, hiterate, calls, hcalls, call, hcall, rfl, hneighbors⟩ :=
      (passed_iff hsize).mp hpassed
    have hids : passed call = ids := by
      rw [passed, hneighbors]
      rfl
    rw [← hids] at hread hlost ⊢
    exact ⟨iterate, hiterate,
      exists_denied_v3 hc hsorted hsize hiterate hcalls hcall hread hlost (tail call.vertex)⟩

/-- Twenty-five vertices and one word for each. -/
def wideConfig : Config := Config.ofSizes 1 25 2 (by decide)

theorem wideConfig_narrow : wideConfig.Narrow := ⟨by decide, by decide⟩

/-- The complete graph on the first four of the vertices, whose lists do not fit three bytes,
    and a path on three others, whose lists do. -/
def cornerClique : Graph 25 where
  adjacencyList := [[], [2, 3, 4], [1, 3, 4], [1, 2, 4], [1, 2, 3], [], [7], [6, 8], [7]] ++
    List.replicate 17 []
  zero := by decide
  length := by decide
  range := by decide
  loopless := by decide
  nodup := by decide
  symm := by decide

theorem v3_buildEncoding_agrees_corner :
    ∃ encodes, buildEncoding cornerClique DeltaSIMDCodecV3.getRequiredBytes 3
        (encodeVertex wideConfig) (fun _ set => set.reverse) (Records.fresh wideConfig) =
          some encodes ∧
      cornerClique.Agrees (nePairTest wideConfig codecV3 (fun _ _ => 0) encodes) := by
  have hsorted : cornerClique.Sorted := Graph.sorted_of_forall_lt (by decide)
  -- whatever is left of these lists is read back
  have hread : ∀ v < 26, ∀ ids ∈ (cornerClique.adj v).sublists,
      ReadsBackSorted wideConfig ids := by
    decide +kernel
  obtain ⟨hagrees, -⟩ := v3_buildEncoding_agrees (c := wideConfig) wideConfig_narrow hsorted
    fun _ _ => 0
  refine hagrees (by decide) ?_ _ fun _ set => List.reverse_perm set
  intro v ids hpassed
  obtain ⟨⟨-, hv⟩, keep, rfl⟩ := hpassed.exists_filter
  exact hread v (Nat.lt_succ_of_le hv) _ (List.mem_sublists.mpr List.filter_sublist)

/-- Six vertices and one word for each. -/
def sixConfig : Config := Config.ofSizes 1 6 2 (by decide)

/-- The complete graph on six vertices. -/
def sixClique : Graph 6 where
  adjacencyList := [[], [2, 3, 4, 5, 6], [1, 3, 4, 5, 6], [1, 2, 4, 5, 6], [1, 2, 3, 5, 6],
    [1, 2, 3, 4, 6], [1, 2, 3, 4, 5]]
  zero := by decide
  length := by decide
  range := by decide
  loopless := by decide
  nodup := by decide
  symm := by decide

/-- Every list is hashed, and the byte length 7 that stays in the header makes the queries
    search the hash bits for seven ids. -/
theorem v3_edge_denied :
    sixConfig.Narrow ∧ sixClique.Sorted ∧ 2 ∈ sixClique.adj 1 ∧
    ∃ encodes, buildEncoding sixClique DeltaSIMDCodecV3.getRequiredBytes (getBytesSize sixConfig)
        (encodeVertex sixConfig) (fun _ set => set) (Records.fresh sixConfig) = some encodes ∧
      nePairTest sixConfig codecV3 (fun _ _ => 0) encodes 1 2 = .nonNeighbor ∧
      ¬ sixClique.Agrees (nePairTest sixConfig codecV3 (fun _ _ => 0) encodes) := by
  have hedge : 2 ∈ sixClique.adj 1 := by decide
  have hrun : (buildEncoding sixClique DeltaSIMDCodecV3.getRequiredBytes (getBytesSize sixConfig)
      (encodeVertex sixConfig) (fun _ set => set) (Records.fresh sixConfig)).map
        (fun encodes => nePairTest sixConfig codecV3 (fun _ _ => 0) encodes 1 2) =
          some .nonNeighbor := by
    decide +kernel
  obtain ⟨encodes, heq, hverdict⟩ := Option.map_eq_some_iff.mp hrun
  refine ⟨⟨by decide, by decide⟩, Graph.sorted_of_forall_lt (by decide), hedge, encodes, heq,
    hverdict, fun hagrees => ?_⟩
  exact (hagrees 1 2 (by decide) (by decide) (by decide) (by decide) (by decide)).1 hverdict hedge

end DeltaSIMDVend

end Vend
