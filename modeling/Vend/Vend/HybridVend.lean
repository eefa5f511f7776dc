import Vend.Encode.HybridEncode
import Vend.Vend.RangeVend

/-! # Hybrid vend

    `HybridEncode` as an encoder of whole graphs: the array of records, the
    verdict `NEpairTest`, and the build by `RangeVend::BuildEncoding`.
-/

namespace Vend

open BucketPeeling

/-! ## Section 1: Model -/

namespace HybridEncode

/-- `EncodeVertex(vertex_id, neighbors)`. -/
def encodeVertex (c : Config) (vertexId : Nat) (neighbors : List Nat) (encodes : Records) :
    Records :=
  encodes.update vertexId (encodeBits c neighbors)

/-- `IsDecodable(vertex)`. -/
def isDecodable (encodes : Records) (vertex : Nat) : Bool := (encodes.record vertex).isOne 0

/-- `NonNeighborTest(vertex1, vertex2)`. -/
def nonNeighborTest (c : Config) (hsimd : Bool) (encodes : Records) (vertex1 vertex2 : Nat) :
    PairType :=
  testBits c hsimd (encodes.record vertex1) vertex2

/-- `NEpairTest(vertex1, vertex2)`. The endpoints are swapped so that a decodable
    one comes first. -/
def nePairTest (c : Config) (hsimd : Bool) (encodes : Records) (vertex1 vertex2 : Nat) :
    PairType :=
  let swapped := !isDecodable encodes vertex1 && isDecodable encodes vertex2
  let first := if swapped then vertex2 else vertex1
  let second := if swapped then vertex1 else vertex2
  let type1 := nonNeighborTest c hsimd encodes first second
  if isDecodable encodes first && !isDecodable encodes second then type1
  else PairType.min type1 (nonNeighborTest c hsimd encodes second first)

/-- `GetIntSize()`. -/
def getIntSize (c : Config) : Nat := c.maxIntegerSize

theorem nePairTest_eq_combine (c : Config) (hsimd : Bool) (encodes : Records) (u v : Nat) :
    nePairTest c hsimd encodes u v =
      combine (isDecodable encodes u) (isDecodable encodes v)
        (nonNeighborTest c hsimd encodes u v) (nonNeighborTest c hsimd encodes v u) := by
  cases hu : isDecodable encodes u <;> cases hv : isDecodable encodes v <;>
    simp [nePairTest, combine, hu, hv]

end HybridEncode

/-! ## Section 2: The build is sound on graphs that are peeled -/

open HybridEncode

/-- What is left of a sorted list of neighbours fits the slots. -/
theorem kept_idList {c : Config} {l : List Nat} (hrange : ∀ w ∈ l, 1 ≤ w ∧ w ≤ c.vertexSize)
    (hsorted : l.Pairwise (· < ·)) (keep : Nat → Bool) :
    IdList c (l.filter keep) ∧ (l.filter keep).Pairwise (· ≤ ·) ∧
      (l.filter keep).length ≤ c.vertexSize := by
  refine ⟨fun w hw => hrange w (List.mem_of_mem_filter hw),
    (hsorted.imp Nat.le_of_lt).filter _, ?_⟩
  have hsub : l.Subperm (List.range' 1 c.vertexSize) := by
    apply List.subperm_of_subset (hsorted.imp Nat.ne_of_lt)
    intro w hw
    have := hrange w hw
    rw [List.mem_range'_1]
    omega
  have hle := hsub.length_le
  rw [List.length_range'] at hle
  exact Nat.le_trans (List.length_filter_le _ _) hle

namespace RangeVend

/-- The hybrid build answers correctly on every graph whose degree gaps are
    harmless. -/
theorem hybrid_buildEncoding_agrees {c : Config} (hc : c.Packed) {g : Graph c.vertexSize}
    (hsorted : g.Sorted) {order : List Nat} (horder : SortedOrder c.vertexSize g.lists order)
    (hmax : getIntSize c < maxDegree g) (hsize : c.vertexSize + 1 < 2 ^ 31)
    (hfill : Fillable g (getIntSize c)) :
    ∃ encodes, buildEncoding g (getIntSize c) (encodeVertex c) order (Records.fresh c) =
        some encodes ∧ g.Agrees (nePairTest c false encodes) := by
  obtain ⟨calls, first, keep, heq, hcover⟩ := encodeCalls_covering horder hsize hmax hfill
  refine ⟨_, by rw [buildEncoding, heq]; rfl, ?_⟩
  have hrecord := fun {v} (hv : v ≤ c.vertexSize) =>
    record_foldl_range hcover (encodeBits c) 0 hv
  have hkept : ∀ v, _ := fun v => kept_idList (c := c) (l := g.adj v)
    (fun w hw => Graph.mem_range hw) (hsorted v) (keep v)
  refine g.agrees_of_covering hcover (fun v _ hv => List.mem_range.mpr (by omega))
    (nePairTest_eq_combine c false _) ?_ ?_
  · intro u v _ hu' hv _
    obtain ⟨hids, hsort, hlen⟩ := hkept u
    have hrec := hrecord hu'
    simp only [isDecodable, nonNeighborTest, encodeVertex, passed, hrec]
    exact speaks_encodeBits_fresh hc (by omega) hids hsort (by omega) false hv
  · intro u _ hu' hf
    obtain ⟨hids, -, hlen⟩ := hkept u
    have hsmall := length_kept_of_first hcover hu' hf
    have hle := c.maxIntegerSize_le
    have hrec := hrecord hu'
    simp only [isDecodable, encodeVertex, passed, hrec]
    rw [Graph.lists, List.getD_cons_zero, isOne_encodeBits hc (by omega) hids (by omega)
      (isRecord_ofBitSize c), decide_eq_true_eq]
    unfold getIntSize at hsmall
    omega

/-- Ten vertices and one word for each: 7 slots of 4 bits, `MAX_INTEGER_SIZE` 6. -/
def tenConfig : Config := Config.ofSizes 1 10 2 (by decide)

theorem tenConfig_packed : tenConfig.Packed where
  kSize_le := by decide
  vertexSize_lt := by decide
  maxIntegerSize_pos := by decide

/-- The complete graph on ten vertices. -/
def tenClique : Graph 10 where
  adjacencyList := [] :: (List.range' 1 10).map fun v => (List.range' 1 10).filter (· ≠ v)
  zero := by decide
  length := by decide
  range := by decide
  loopless := by decide
  nodup := by decide
  symm := by decide

theorem tenClique_sorted : tenClique.Sorted := Graph.sorted_of_forall_lt (by decide)

theorem hybrid_buildEncoding_agrees_clique :
    SortedOrder 10 tenClique.lists (List.range' 1 10) ∧
    ∃ encodes, buildEncoding tenClique 6 (encodeVertex tenConfig) (List.range' 1 10)
        (Records.fresh tenConfig) = some encodes ∧
      tenClique.Agrees (nePairTest tenConfig false encodes) :=
  ⟨by decide +kernel, hybrid_buildEncoding_agrees (c := tenConfig) tenConfig_packed
    tenClique_sorted (by decide +kernel) (by decide +kernel) (by decide +kernel)
    ⟨∅, by decide +kernel, by decide +kernel⟩⟩

/-- A tree with a gap at degree 2 behind eight leaves. -/
def gapTree : Graph 10 where
  adjacencyList :=
    [[], [7], [5], [5], [7], [2, 3, 6, 7, 8, 9, 10], [5], [1, 4, 5], [5], [5], [5]]
  zero := by decide
  length := by decide
  range := by decide
  loopless := by decide
  nodup := by decide
  symm := by decide

theorem gapTree_sorted : gapTree.Sorted := Graph.sorted_of_forall_lt (by decide)

/-- On the tree the build never encodes vertices 5 and 7, and the edge between
    them is denied. -/
theorem gapTree_edge_denied :
    tenConfig.Packed ∧ gapTree.Sorted ∧
    SortedOrder 10 gapTree.lists [1, 2, 3, 4, 6, 8, 9, 10, 7, 5] ∧
    getIntSize tenConfig < maxDegree gapTree ∧ 7 ∈ gapTree.adj 5 ∧
    ∃ encodes, buildEncoding gapTree (getIntSize tenConfig) (encodeVertex tenConfig)
        [1, 2, 3, 4, 6, 8, 9, 10, 7, 5] (Records.fresh tenConfig) = some encodes ∧
      nePairTest tenConfig false encodes 5 7 = .nonNeighbor ∧
      ¬ gapTree.Agrees (nePairTest tenConfig false encodes) := by
  refine ⟨tenConfig_packed, gapTree_sorted, by decide +kernel, by decide +kernel,
    by decide +kernel, ?_⟩
  have hrun : (buildEncoding gapTree (getIntSize tenConfig) (encodeVertex tenConfig)
      [1, 2, 3, 4, 6, 8, 9, 10, 7, 5] (Records.fresh tenConfig)).map
        (fun encodes => nePairTest tenConfig false encodes 5 7) = some .nonNeighbor := by
    decide +kernel
  obtain ⟨encodes, heq, hverdict⟩ := Option.map_eq_some_iff.mp hrun
  refine ⟨encodes, heq, hverdict, fun hagrees => ?_⟩
  exact (hagrees 5 7 (by decide) (by decide) (by decide) (by decide) (by decide)).1 hverdict
    (by decide +kernel)

end RangeVend

end Vend
