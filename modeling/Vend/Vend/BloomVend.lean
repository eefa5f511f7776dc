import Vend.Encode.BloomEncode
import Vend.Vend.RangeVend

/-! # Range and Bloom vends

    `RangeVend::BuildEncoding` with `RangeEncode`, and with `BloomEncode`
    (`BloomVend`). Both encoders take the smaller of the two verdicts of a pair,
    without asking which endpoint was peeled first: a record that left out a
    neighbour denies the edge, and the endpoint that kept it has to say
    `Neighbor`. It does when every vertex is encoded once and the k-core calls
    fit their records.
-/

namespace Vend

open BucketPeeling RangeVend

namespace RangeVend

section

variable {c : Config} (hc : RangeEncode.Ranged c) {g : Graph c.vertexSize} {order : List Nat}
variable {calls : List Call} {first : Nat → Bool} {keep : Nat → Nat → Bool}
include hc

/-- A build that covers the graph, with `RangeEncode`. -/
theorem range_agrees_of_covered
    (hcover : Covered g (RangeEncode.getIntSize c) calls first keep) :
    g.Agrees (RangeEncode.nePairTest c (calls.foldl
      (fun st call => RangeEncode.encodeVertex c call.vertex (passed call) st)
      (Records.fresh c))) := by
  generalize hencodes : calls.foldl
    (fun st call => RangeEncode.encodeVertex c call.vertex (passed call) st)
    (Records.fresh c) = encodes
  have hrecord : ∀ v, v ≤ c.vertexSize → encodes.record v = RangeEncode.encodeBits c
      ((g.adj v).filter (keep v)) (BitSetSIMD.ofBitSize c.perEncodeBitSize) := by
    intro v hv
    rw [← hencodes]
    exact record_foldl_range hcover (RangeEncode.encodeBits c) 0 hv
  have hids : ∀ v, IdList c ((g.adj v).filter (keep v)) :=
    fun v w hw => Graph.mem_range (List.mem_of_mem_filter hw)
  have hspeaks : ∀ u v, 1 ≤ u → u ≤ c.vertexSize → 1 ≤ v → v ≤ c.vertexSize →
      Speaks (RangeEncode.getFlag (encodes.record u)) (v ∈ (g.adj u).filter (keep u))
        (RangeEncode.nonNeighborTest c encodes u v) := by
    intro u v _ hu hv hv'
    rw [RangeEncode.nonNeighborTest, hrecord u hu]
    exact RangeEncode.speaks_encodeBits hc.worded (hids u) (isRecord_ofBitSize c) hv hv'
  refine g.agrees_of_covering_min hcover (fun v _ hv => List.mem_range.mpr (by omega))
    (RangeEncode.nePairTest_eq_min c encodes) hspeaks ?_
  intro u _ hu hf
  rw [hrecord u hu, RangeEncode.getFlag_encodeBits hc.worded (hids u) (isRecord_ofBitSize c),
    decide_eq_true_eq]
  exact length_kept_of_first hcover hu hf

/-- A build that covers the graph, with `BloomEncode`. -/
theorem bloom_agrees_of_covered
    (hcover : Covered g (BloomEncode.getIntSize c) calls first keep) :
    g.Agrees (BloomEncode.nePairTest c (calls.foldl
      (fun st call => BloomEncode.encodeVertex c call.vertex (passed call) st)
      (Records.fresh c))) := by
  generalize hencodes : calls.foldl
    (fun st call => BloomEncode.encodeVertex c call.vertex (passed call) st)
    (Records.fresh c) = encodes
  have hrecord : ∀ v, v ≤ c.vertexSize → encodes.record v = BloomEncode.encodeBits c v
      ((g.adj v).filter (keep v)) (BitSetSIMD.ofBitSize c.perEncodeBitSize) := by
    intro v hv
    rw [← hencodes]
    exact record_foldl_range_at hcover (BloomEncode.encodeBits c) 0 hv
  have hids : ∀ v, IdList c ((g.adj v).filter (keep v)) :=
    fun v w hw => Graph.mem_range (List.mem_of_mem_filter hw)
  have hspeaks : ∀ u v, 1 ≤ u → u ≤ c.vertexSize → 1 ≤ v → v ≤ c.vertexSize →
      Speaks (BloomEncode.getFlag (encodes.record u)) (v ∈ (g.adj u).filter (keep u))
        (BloomEncode.nonNeighborTest c encodes u v) := by
    intro u v _ hu hv _
    rw [BloomEncode.nonNeighborTest, hrecord u hu]
    exact BloomEncode.speaks_encodeBits hc u (hids u) hv
  refine g.agrees_of_covering_min hcover (fun v _ hv => List.mem_range.mpr (by omega))
    (fun _ _ => rfl) hspeaks ?_
  intro u hu hu' hf
  rw [hrecord u hu']
  exact (BloomEncode.speaks_of_fits hc u (hids u) (length_kept_of_first hcover hu' hf) hu).1

end

/-- Both builds answer correctly on every graph whose degree gaps are harmless. -/
theorem range_bloom_buildEncoding_agrees {c : Config} (hc : RangeEncode.Ranged c)
    {g : Graph c.vertexSize} {order : List Nat} (horder : SortedOrder c.vertexSize g.lists order)
    (hmax : c.kSize - 1 < maxDegree g) (hfill : Fillable g (c.kSize - 1)) :
    (∃ encodes, buildEncoding g (RangeEncode.getIntSize c) (RangeEncode.encodeVertex c) order
        (Records.fresh c) = some encodes ∧ g.Agrees (RangeEncode.nePairTest c encodes)) ∧
    ∃ encodes, buildEncoding g (BloomEncode.getIntSize c) (BloomEncode.encodeVertex c) order
        (Records.fresh c) = some encodes ∧ g.Agrees (BloomEncode.nePairTest c encodes) := by
  obtain ⟨calls, first, keep, heq, hcover⟩ :=
    encodeCalls_covering horder hc.vertexSize_lt hmax hfill
  constructor
  · refine ⟨_, ?_, range_agrees_of_covered hc hcover⟩
    rw [buildEncoding, show RangeEncode.getIntSize c = c.kSize - 1 from rfl, heq]
    rfl
  · refine ⟨_, ?_, bloom_agrees_of_covered hc hcover⟩
    rw [buildEncoding, show BloomEncode.getIntSize c = c.kSize - 1 from rfl, heq]
    rfl

/-- Five vertices and four words for each. -/
def fiveConfig : Config := Config.ofSizes 4 5 3 (by decide)

theorem fiveConfig_ranged : RangeEncode.Ranged fiveConfig where
  kSize_ge := by decide
  kSize_le := by decide
  vertexSize_lt := by decide

/-- The complete graph on five vertices. -/
def fiveClique : Graph 5 where
  adjacencyList := [] :: (List.range' 1 5).map fun v => (List.range' 1 5).filter (· ≠ v)
  zero := by decide
  length := by decide
  range := by decide
  loopless := by decide
  nodup := by decide
  symm := by decide

theorem range_bloom_buildEncoding_agrees_clique :
    (∃ encodes, buildEncoding fiveClique 3 (RangeEncode.encodeVertex fiveConfig)
        [1, 2, 3, 4, 5] (Records.fresh fiveConfig) = some encodes ∧
      fiveClique.Agrees (RangeEncode.nePairTest fiveConfig encodes)) ∧
    ∃ encodes, buildEncoding fiveClique 3 (BloomEncode.encodeVertex fiveConfig)
        [1, 2, 3, 4, 5] (Records.fresh fiveConfig) = some encodes ∧
      fiveClique.Agrees (BloomEncode.nePairTest fiveConfig encodes) :=
  range_bloom_buildEncoding_agrees (c := fiveConfig) fiveConfig_ranged (by decide +kernel)
    (by decide +kernel) ⟨∅, by decide +kernel, by decide +kernel⟩

/-- Two triangles that share vertex 5. Degree 1 is missing behind the unused vertex
    and degree 3 behind four vertices. -/
def butterfly : Graph 5 where
  adjacencyList := [[], [3, 5], [4, 5], [1, 5], [2, 5], [1, 2, 3, 4]]
  zero := by decide
  length := by decide
  range := by decide
  loopless := by decide
  nodup := by decide
  symm := by decide

/-- Vertex 2 is encoded a second time, without vertex 4, which left vertex 2 out
    because it had been encoded before. -/
theorem butterfly_edge_denied :
    RangeEncode.Ranged fiveConfig ∧ SortedOrder 5 butterfly.lists [1, 2, 3, 4, 5] ∧
    fiveConfig.kSize - 1 < maxDegree butterfly ∧ 4 ∈ butterfly.adj 2 ∧
    (∃ encodes, buildEncoding butterfly 3 (RangeEncode.encodeVertex fiveConfig)
        [1, 2, 3, 4, 5] (Records.fresh fiveConfig) = some encodes ∧
      RangeEncode.nePairTest fiveConfig encodes 2 4 = .nonNeighbor ∧
      ¬ butterfly.Agrees (RangeEncode.nePairTest fiveConfig encodes)) ∧
    ∃ encodes, buildEncoding butterfly 3 (BloomEncode.encodeVertex fiveConfig)
        [1, 2, 3, 4, 5] (Records.fresh fiveConfig) = some encodes ∧
      BloomEncode.nePairTest fiveConfig encodes 2 4 = .nonNeighbor ∧
      ¬ butterfly.Agrees (BloomEncode.nePairTest fiveConfig encodes) := by
  have hedge : 4 ∈ butterfly.adj 2 := by decide
  have hdeny : ∀ verdict, verdict 2 4 = PairType.nonNeighbor → ¬ butterfly.Agrees verdict :=
    fun verdict hverdict hagrees => (hagrees 2 4 (by decide) (by decide) (by decide) (by decide)
      (by decide)).1 hverdict hedge
  refine ⟨fiveConfig_ranged, by decide +kernel, by decide +kernel, hedge, ?_, ?_⟩
  · have hrun : (buildEncoding butterfly 3 (RangeEncode.encodeVertex fiveConfig) [1, 2, 3, 4, 5]
        (Records.fresh fiveConfig)).map (fun encodes => RangeEncode.nePairTest fiveConfig encodes 2 4)
          = some .nonNeighbor := by decide +kernel
    obtain ⟨encodes, heq, hverdict⟩ := Option.map_eq_some_iff.mp hrun
    exact ⟨encodes, heq, hverdict, hdeny _ hverdict⟩
  · have hrun : (buildEncoding butterfly 3 (BloomEncode.encodeVertex fiveConfig) [1, 2, 3, 4, 5]
        (Records.fresh fiveConfig)).map (fun encodes => BloomEncode.nePairTest fiveConfig encodes 2 4)
          = some .nonNeighbor := by decide +kernel
    obtain ⟨encodes, heq, hverdict⟩ := Option.map_eq_some_iff.mp hrun
    exact ⟨encodes, heq, hverdict, hdeny _ hverdict⟩

end RangeVend

end Vend
