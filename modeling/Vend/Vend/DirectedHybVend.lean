import Vend.Vend.HybridVend

/-! # Directed hybrid vend

    `encode/single/directed_hybrid.h` and `vend/dir_hyb_vend.cpp`. Every vertex
    has two hybrid records, one for its targets and one for its sources; the
    verdict about `u -> v` combines the out-record of `u` with the in-record of
    `v`. The build peels by the sum of both degrees, relaxing first the targets
    and then the sources of the current vertex.
-/

namespace Vend

open BucketPeeling HybridEncode

/-! ## Section 1: Model -/

/-- `class DirectedHybrid`. -/
structure DirectedHybrid where
  encodeBitset : Records
  inBitset : Records
  deriving DecidableEq

namespace DirectedHybrid

/-- A fresh `DirectedHybrid`. -/
def fresh (c : Config) : DirectedHybrid := ⟨Records.fresh c, Records.fresh c⟩

/-- `EncodeVertex(vertex_id, out_neigh, in_neigh)`. -/
def encodeVertex (c : Config) (vertexId : Nat) (outNeigh inNeigh : List Nat)
    (encodes : DirectedHybrid) : DirectedHybrid where
  encodeBitset := encodes.encodeBitset.update vertexId (encodeBits c outNeigh)
  inBitset := encodes.inBitset.update vertexId (encodeBits c inNeigh)

/-- `IsDecodable(vertex, out)`. -/
def isDecodable (encodes : DirectedHybrid) (vertex : Nat) (out : Bool) : Bool :=
  if out then (encodes.encodeBitset.record vertex).isOne 0
  else (encodes.inBitset.record vertex).isOne 0

/-- `NonNeighborTest(vertex1, vertex2, reverse)`. -/
def nonNeighborTest (c : Config) (hsimd : Bool) (encodes : DirectedHybrid)
    (vertex1 vertex2 : Nat) (reverse : Bool) : PairType :=
  let encode := if reverse then encodes.inBitset.record vertex1
    else encodes.encodeBitset.record vertex1
  testBits c hsimd encode vertex2

/-- `NEpairTest(vertex1, vertex2)`. -/
def nePairTest (c : Config) (hsimd : Bool) (encodes : DirectedHybrid) (vertex1 vertex2 : Nat) :
    PairType :=
  if encodes.isDecodable vertex1 true then
    if encodes.isDecodable vertex2 false then
      let type1 := nonNeighborTest c hsimd encodes vertex1 vertex2 false
      if type1 = .neighbor then type1
      else PairType.min type1 (nonNeighborTest c hsimd encodes vertex2 vertex1 true)
    else nonNeighborTest c hsimd encodes vertex1 vertex2 false
  else
    if encodes.isDecodable vertex2 false then
      nonNeighborTest c hsimd encodes vertex2 vertex1 true
    else
      PairType.min (nonNeighborTest c hsimd encodes vertex1 vertex2 false)
        (nonNeighborTest c hsimd encodes vertex2 vertex1 true)

theorem nePairTest_eq_combine (c : Config) (hsimd : Bool) (encodes : DirectedHybrid) (u v : Nat) :
    nePairTest c hsimd encodes u v =
      combine (encodes.isDecodable u true) (encodes.isDecodable v false)
        (nonNeighborTest c hsimd encodes u v false) (nonNeighborTest c hsimd encodes v u true) := by
  unfold nePairTest
  cases encodes.isDecodable u true <;> cases encodes.isDecodable v false <;>
    simp only [combine, if_true, if_false, Bool.false_eq_true]
  exact PairType.ite_neighbor_min _ _

end DirectedHybrid

namespace Digraph

variable {vertexSize : Nat} (g : Digraph vertexSize)

theorem peelable : Peelable vertexSize g.lists := by
  constructor
  · rw [flatten_lists, adj, inAdj, g.zero.1, g.zero.2]
    rfl
  · intro v w hw
    rw [flatten_lists] at hw
    exact mem_range hw
  · intro v hmem
    rw [flatten_lists, List.mem_append, mem_inAdj_iff, or_self] at hmem
    exact not_mem_adj_self hmem
  · -- an edge counts once at either end, in opposite lists
    have key : ∀ v w, (g.adj v).count w = (g.inAdj w).count v := by
      intro v w
      by_cases hw : w ∈ g.adj v
      · rw [List.count_eq_one_of_mem nodup_adj.1 hw,
          List.count_eq_one_of_mem nodup_adj.2 (mem_inAdj_iff.mpr hw)]
      · rw [List.count_eq_zero_of_not_mem hw,
          List.count_eq_zero_of_not_mem fun h => hw (mem_inAdj_iff.mp h)]
    intro v w
    rw [flatten_lists, flatten_lists, List.count_append, List.count_append, key v w, ← key w v,
      Nat.add_comm]

end Digraph

namespace DirectedHybVend

variable {vertexSize : Nat}

/-- The calls of `EncodeVertex` in the order in which they are made. -/
def encodeCalls (g : Digraph vertexSize) (intSize : Nat) (order : List Nat) :
    Option (List Call) :=
  peel vertexSize g.lists intSize order

/-- `BuildEncoding` with a two-sided encoder. -/
def buildEncoding {σ : Type} (g : Digraph vertexSize) (intSize : Nat)
    (encodeVertex : Nat → List Nat → List Nat → σ → σ) (order : List Nat) (encodes : σ) :
    Option σ :=
  (encodeCalls g intSize order).map fun calls => calls.foldl (fun st call =>
    encodeVertex call.vertex (call.neighbors.getD 0 []) (call.neighbors.getD 1 []) st) encodes

/-- The maximum total degree. -/
def maxDegree (g : Digraph vertexSize) : Nat := BucketPeeling.maxDegree vertexSize g.lists

/-- The gaps in the sequence of total degrees do no harm; see `RangeVend.Fillable`. -/
def Fillable (g : Digraph vertexSize) (intSize : Nat) : Prop :=
  ∃ core, IsCore g.lists (vertexSize + 1) intSize core ∧ GapsClosed vertexSize g.lists core

/-! ## Section 2: The build is sound on graphs that are peeled -/

/-- The two arrays of records after the calls of a build. -/
theorem foldl_encodeVertex (c : Config) (calls : List Call) (encodes : DirectedHybrid) :
    calls.foldl (fun st call => DirectedHybrid.encodeVertex c call.vertex
      (call.neighbors.getD 0 []) (call.neighbors.getD 1 []) st) encodes =
    ⟨calls.foldl (fun rs call => rs.update call.vertex (encodeBits c (call.neighbors.getD 0 [])))
      encodes.encodeBitset,
     calls.foldl (fun rs call => rs.update call.vertex (encodeBits c (call.neighbors.getD 1 [])))
      encodes.inBitset⟩ := by
  induction calls generalizing encodes with
  | nil => rfl
  | cons call calls ih => rw [List.foldl_cons, ih]; rfl

/-- The directed hybrid build answers correctly on every graph whose total
    degrees have only harmless gaps. -/
theorem directedHybrid_buildEncoding_agrees {c : Config} (hc : c.Packed)
    {g : Digraph c.vertexSize} (hsorted : g.Sorted) {order : List Nat}
    (horder : SortedOrder c.vertexSize g.lists order) (hmax : getIntSize c < maxDegree g)
    (hsize : c.vertexSize + 1 < 2 ^ 31) (hdeg : maxDegree g + 1 < 2 ^ 31)
    (hfill : Fillable g (getIntSize c)) :
    ∃ encodes, buildEncoding g (getIntSize c) (DirectedHybrid.encodeVertex c) order
        (DirectedHybrid.fresh c) = some encodes ∧
      g.Agrees (DirectedHybrid.nePairTest c false encodes) := by
  obtain ⟨core, hcore, hgaps⟩ := hfill
  obtain ⟨calls, first, keep, heq, hcover⟩ :=
    peel_covering g.peelable horder hsize hdeg hmax hcore hgaps
  refine ⟨_, by rw [buildEncoding, encodeCalls, heq]; rfl, ?_⟩
  beta_reduce
  rw [foldl_encodeVertex]
  have hrecord := fun (i : Nat) {v} (hv : v ≤ c.vertexSize) =>
    record_foldl_range hcover (encodeBits c) i hv
  have hkeptOut : ∀ v, _ := fun v => kept_idList (c := c) (l := g.adj v)
    (fun w hw => Digraph.mem_range (List.mem_append_left _ hw)) (hsorted v).1 (keep v)
  have hkeptIn : ∀ v, _ := fun v => kept_idList (c := c) (l := g.inAdj v)
    (fun w hw => Digraph.mem_range (List.mem_append_right _ hw)) (hsorted v).2 (keep v)
  -- a vertex of the k-core loop has few neighbours left on both sides together
  have hsmall : ∀ v, v ≤ c.vertexSize → first v = true →
      ((g.adj v).filter (keep v)).length ≤ c.maxKCoreSize ∧
      ((g.inAdj v).filter (keep v)).length ≤ c.maxKCoreSize := by
    intro v hv hf
    have hle := hcover.small_of_first (List.mem_range.mpr (by omega)) hf
    have hmaxle := c.maxIntegerSize_le
    rw [flatten_map_filter, g.flatten_lists, List.filter_append,
      List.length_append, getIntSize] at hle
    omega
  refine g.agrees_of_kept keep keep (DirectedHybrid.nePairTest_eq_combine c false _)
    ?_ ?_ ?_
  · intro u v _ hu' hv _
    obtain ⟨hids, hsort, hlen⟩ := hkeptOut u
    have hrec := hrecord 0 hu'
    simp only [DirectedHybrid.isDecodable, DirectedHybrid.nonNeighborTest, DirectedHybrid.fresh,
      if_true, Bool.false_eq_true, if_false, hrec]
    exact speaks_encodeBits_fresh hc (by omega) hids hsort (by omega) false hv
  · intro u v _ hu' hv _
    obtain ⟨hids, hsort, hlen⟩ := hkeptIn u
    have hrec := hrecord 1 hu'
    simp only [DirectedHybrid.isDecodable, DirectedHybrid.nonNeighborTest, DirectedHybrid.fresh,
      if_true, Bool.false_eq_true, if_false, hrec]
    exact speaks_encodeBits_fresh hc (by omega) hids hsort (by omega) false hv
  · intro u v hu hu' hv hv' hne
    have hpair := hcover.cover_pair (fun v _ hv => List.mem_range.mpr (by omega)) ⟨hu, hu'⟩
      ⟨hv, hv'⟩ hne
    rcases hpair with ⟨hf, hk⟩ | ⟨hf, hk⟩ | ⟨-, -, hk, hk'⟩
    · left
      obtain ⟨hids, -, hlen⟩ := hkeptOut u
      have hrec := hrecord 0 hu'
      refine ⟨?_, hk⟩
      simp only [DirectedHybrid.isDecodable, DirectedHybrid.fresh, if_true, hrec]
      rw [Digraph.lists, List.getD_cons_zero, isOne_encodeBits hc (by omega) hids (by omega)
        (isRecord_ofBitSize c), decide_eq_true_eq]
      exact (hsmall u hu' hf).1
    · right; left
      obtain ⟨hids, -, hlen⟩ := hkeptIn v
      have hrec := hrecord 1 hv'
      refine ⟨?_, hk⟩
      simp only [DirectedHybrid.isDecodable, DirectedHybrid.fresh, Bool.false_eq_true, if_false,
        hrec]
      rw [Digraph.lists, List.getD_cons_succ, List.getD_cons_zero,
        isOne_encodeBits hc (by omega) hids (by omega) (isRecord_ofBitSize c), decide_eq_true_eq]
      exact (hsmall v hv' hf).2
    · exact Or.inr (Or.inr ⟨hk, hk'⟩)

/-- The tournament on ten vertices: every edge goes to the larger id. -/
def tenTournament : Digraph 10 where
  adjacencyList := [] :: (List.range' 1 10).map fun v => List.range' (v + 1) (10 - v)
  inAdjList := [] :: (List.range' 1 10).map fun v => List.range' 1 (v - 1)
  zero := by decide
  length := by decide
  range := by decide
  loopless := by decide
  nodup := by decide
  transpose := by decide

theorem tenTournament_sorted : tenTournament.Sorted := Digraph.sorted_of_forall_lt (by decide)

theorem directedHybrid_buildEncoding_agrees_tournament :
    SortedOrder 10 tenTournament.lists (List.range' 1 10) ∧
    ∃ encodes, buildEncoding tenTournament 6 (DirectedHybrid.encodeVertex RangeVend.tenConfig)
        (List.range' 1 10) (DirectedHybrid.fresh RangeVend.tenConfig) = some encodes ∧
      tenTournament.Agrees (DirectedHybrid.nePairTest RangeVend.tenConfig false encodes) :=
  ⟨by decide +kernel, directedHybrid_buildEncoding_agrees (c := RangeVend.tenConfig)
    RangeVend.tenConfig_packed tenTournament_sorted (by decide +kernel) (by decide +kernel)
    (by decide +kernel) (by decide +kernel) ⟨∅, by decide +kernel, by decide +kernel⟩⟩

/-- `RangeVend.gapTree` with every edge directed to the larger id. -/
def gapTree : Digraph 10 where
  adjacencyList := [[], [7], [5], [5], [7], [6, 7, 8, 9, 10], [], [], [], [], []]
  inAdjList := [[], [], [], [], [], [2, 3], [5], [1, 4, 5], [5], [5], [5]]
  zero := by decide
  length := by decide
  range := by decide
  loopless := by decide
  nodup := by decide
  transpose := by decide

theorem gapTree_sorted : gapTree.Sorted := Digraph.sorted_of_forall_lt (by decide)

/-- The build never encodes vertices 5 and 7, and the edge `5 -> 7` is denied. -/
theorem directed_gapTree_edge_denied :
    RangeVend.tenConfig.Packed ∧ gapTree.Sorted ∧
    SortedOrder 10 gapTree.lists [1, 2, 3, 4, 6, 8, 9, 10, 7, 5] ∧
    getIntSize RangeVend.tenConfig < maxDegree gapTree ∧ 7 ∈ gapTree.adj 5 ∧
    ∃ encodes, buildEncoding gapTree (getIntSize RangeVend.tenConfig)
        (DirectedHybrid.encodeVertex RangeVend.tenConfig) [1, 2, 3, 4, 6, 8, 9, 10, 7, 5]
        (DirectedHybrid.fresh RangeVend.tenConfig) = some encodes ∧
      DirectedHybrid.nePairTest RangeVend.tenConfig false encodes 5 7 = .nonNeighbor ∧
      ¬ gapTree.Agrees (DirectedHybrid.nePairTest RangeVend.tenConfig false encodes) := by
  refine ⟨RangeVend.tenConfig_packed, gapTree_sorted, by decide +kernel, by decide +kernel,
    by decide +kernel, ?_⟩
  have hrun : (buildEncoding gapTree (getIntSize RangeVend.tenConfig)
      (DirectedHybrid.encodeVertex RangeVend.tenConfig) [1, 2, 3, 4, 6, 8, 9, 10, 7, 5]
      (DirectedHybrid.fresh RangeVend.tenConfig)).map (fun encodes =>
        DirectedHybrid.nePairTest RangeVend.tenConfig false encodes 5 7) =
      some .nonNeighbor := by
    decide +kernel
  obtain ⟨encodes, heq, hverdict⟩ := Option.map_eq_some_iff.mp hrun
  refine ⟨encodes, heq, hverdict, fun hagrees => ?_⟩
  exact (hagrees 5 7 (by decide) (by decide) (by decide) (by decide) (by decide)).1 hverdict
    (by decide +kernel)

end DirectedHybVend

end Vend
