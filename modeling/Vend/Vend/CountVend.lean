import Vend.Encode.CountEncode
import Vend.Vend.BloomVend
import Vend.Vend.ForestPeeling

/-! # Count vend

    `CountEncode` under `RangeVend::BuildEncoding`. A full record only finds its first
    id, so every vertex that the k-core loop takes out may have one neighbour left at
    most; and the vertices that are left must all be counted, apart from the flag word.
    `count_buildEncoding_agrees` says that this is enough, and `fiveClique_edge_denied`
    what happens when a vertex of the core has a full record.
-/

namespace Vend

namespace RangeVend

open BucketPeeling

/-- The graph has a core in which every vertex has more neighbours than `GetIntSize()` and
    than a full record holds, none of them counted in the flag word; and the other vertices
    hang on it like a forest. -/
structure CountsApart (c : Config) (g : Graph c.vertexSize) (core : Finset Nat)
    (hanging : List Nat) : Prop where
  isCore : IsCore g.lists (c.vertexSize + 1)
    (max (CountEncode.getIntSize c) (CountEncode.elementNums c)) core
  gapsClosed : GapsClosed c.vertexSize g.lists core
  apart : ∀ u ∈ core, ∀ v ∈ g.adj u, v ∈ core → 32 ≤ CountEncode.hash c u v * c.elementSize
  hangs : Hangs g.lists core hanging
  all : ∀ v, 1 ≤ v → v ≤ c.vertexSize → v ∈ core ∨ v ∈ hanging

section

variable {c : Config} (hc : CountEncode.Counting c) {g : Graph c.vertexSize} {order : List Nat}
variable {core : Finset Nat} {hanging : List Nat}
include hc

/-- A build that peels exactly the vertices outside the core, each with at most one
    neighbour left. -/
theorem count_agrees_of_covered {calls : List Call} {first : Nat → Bool}
    {keep : Nat → Nat → Bool} (hcover : Covered g 1 calls first keep)
    (hfirst : ∀ v, v ≤ c.vertexSize → (first v = false ↔ v ∈ core))
    (hkeep : ∀ v ∈ core, ∀ w, w ≤ c.vertexSize → (keep v w = true ↔ w ∈ core))
    (h : CountsApart c g core hanging) :
    g.Agrees (CountEncode.nePairTest c (calls.foldl
      (fun st call => CountEncode.encodeVertex c call.vertex (passed call) st)
      (Records.fresh c))) := by
  generalize hencodes : calls.foldl
    (fun st call => CountEncode.encodeVertex c call.vertex (passed call) st)
    (Records.fresh c) = encodes
  have hrecord : ∀ v, v ≤ c.vertexSize → encodes.record v = CountEncode.encodeBits c v
      ((g.adj v).filter (keep v)) (BitSetSIMD.ofBitSize c.perEncodeBitSize) := by
    intro v hv
    rw [← hencodes]
    exact record_foldl_range_at hcover (CountEncode.encodeBits c) 0 hv
  have hids : ∀ v, IdList c ((g.adj v).filter (keep v)) :=
    fun v w hw => Graph.mem_range (List.mem_of_mem_filter hw)
  -- the records of the k-core loop hold one id at most, the others count those of the core
  have hfull : ∀ u v, u ≤ c.vertexSize → first u = true → 1 ≤ v →
      CountEncode.getFlag (encodes.record u) = true ∧ Speaks true (v ∈ (g.adj u).filter (keep u))
        (CountEncode.nonNeighborTest c encodes u v) := by
    intro u v hu hf hv
    rw [CountEncode.nonNeighborTest, hrecord u hu]
    exact CountEncode.speaks_of_single hc u (hids u) (length_kept_of_first hcover hu hf) hv
  have hcounted : ∀ u v, u ≤ c.vertexSize → first u = false →
      CountEncode.getFlag (encodes.record u) = false ∧ Speaks false (v ∈ (g.adj u).filter (keep u))
        (CountEncode.nonNeighborTest c encodes u v) := by
    intro u v hu hf
    have hmem := (hfirst u hu).mp hf
    -- a vertex of the core was handed its neighbours in the core
    have hkept : (g.adj u).filter (keep u) = (g.adj u).filter fun w => decide (w ∈ core) := by
      apply List.filter_congr
      intro w hw
      rw [Bool.eq_iff_iff, decide_eq_true_eq]
      exact hkeep u hmem w (Graph.mem_range hw).2
    have hmany : CountEncode.elementNums c < ((g.adj u).filter (keep u)).length := by
      have hcount := h.isCore.count u hmem
      rw [g.flatten_lists, List.countP_eq_length_filter] at hcount
      rw [hkept]
      exact Nat.lt_of_le_of_lt (Nat.le_max_right _ _) hcount
    have hlen : ((g.adj u).filter (keep u)).length ≤ c.vertexSize :=
      Nat.le_trans (List.length_filter_le _ _) (g.length_adj_le u)
    have hapart : ∀ w ∈ (g.adj u).filter (keep u), 32 ≤ CountEncode.hash c u w * c.elementSize := by
      intro w hw
      rw [hkept, List.mem_filter, decide_eq_true_eq] at hw
      exact h.apart u hmem w hw.1 hw.2
    rw [CountEncode.nonNeighborTest, hrecord u hu]
    exact CountEncode.speaks_of_counted hc u hmany hlen hapart v
  have hspeaks : ∀ u v, 1 ≤ u → u ≤ c.vertexSize → 1 ≤ v → v ≤ c.vertexSize →
      Speaks (CountEncode.getFlag (encodes.record u)) (v ∈ (g.adj u).filter (keep u))
        (CountEncode.nonNeighborTest c encodes u v) := by
    intro u v _ hu hv _
    cases hf : first u with
    | true =>
      obtain ⟨hflag, hspeaks⟩ := hfull u v hu hf hv
      rw [hflag]
      exact hspeaks
    | false =>
      obtain ⟨hflag, hspeaks⟩ := hcounted u v hu hf
      rw [hflag]
      exact hspeaks
  refine g.agrees_of_covering_min hcover (fun v _ hv => List.mem_range.mpr (by omega))
    (fun _ _ => rfl) hspeaks ?_
  intro u _ hu hf
  exact (hfull u 1 hu hf (Nat.le_refl 1)).1

/-- The count build answers correctly on every graph that counts apart. -/
theorem count_buildEncoding_agrees (horder : SortedOrder c.vertexSize g.lists order)
    (hmax : CountEncode.getIntSize c < maxDegree g) (hsize : c.vertexSize + 1 < 2 ^ 31)
    (h : CountsApart c g core hanging) :
    ∃ encodes, buildEncoding g (CountEncode.getIntSize c) (CountEncode.encodeVertex c) order
        (Records.fresh c) = some encodes ∧ g.Agrees (CountEncode.nePairTest c encodes) := by
  have hcore : IsCore g.lists (c.vertexSize + 1) (CountEncode.getIntSize c) core := by
    refine ⟨h.isCore.lt, fun v hv => ?_⟩
    exact Nat.lt_of_le_of_lt (Nat.le_max_left _ _) (h.isCore.count v hv)
  obtain ⟨calls, first, keep, heq, hcover, hfirst, hkeep⟩ := peel_forest g.peelable horder hsize
    (maxDegree_lt g hsize) hmax (CountEncode.elementSize_pos hc) hcore h.gapsClosed h.hangs h.all
  refine ⟨_, ?_, count_agrees_of_covered hc hcover hfirst hkeep h⟩
  rw [buildEncoding, encodeCalls, heq]
  rfl

end

/-- Elements of 16 bits, four of them behind the flag word. -/
def fourElements : Config := Config.ofSizes 3 25 4000 (by decide)

theorem fourElements_counting : CountEncode.Counting fourElements where
  kSize_ge := by decide
  kSize_le := by decide
  vertexSize_lt := by decide +kernel
  elementSize_le := by decide +kernel

/-- The ids `1 .. 24` in four classes, joined when their classes differ, and the pendant
    vertex 25 at vertex 1. Two ids of one class are counted in the flag word. -/
def fourClasses : Graph 25 where
  adjacencyList := [] :: (List.range' 1 25).map fun v =>
    if v = 25 then [1]
    else ((List.range' 1 24).filter fun w => w % 4 ≠ v % 4) ++ if v = 1 then [25] else []
  zero := by decide
  length := by decide +kernel
  range := by decide +kernel
  loopless := by decide +kernel
  nodup := by decide +kernel
  symm := by decide +kernel

theorem count_buildEncoding_agrees_classes :
    CountsApart fourElements fourClasses ((Finset.range 25).erase 0) [25] ∧
    ∃ encodes, buildEncoding fourClasses 16 (CountEncode.encodeVertex fourElements)
        (25 :: List.range' 2 23 ++ [1]) (Records.fresh fourElements) = some encodes ∧
      fourClasses.Agrees (CountEncode.nePairTest fourElements encodes) := by
  have h : CountsApart fourElements fourClasses ((Finset.range 25).erase 0) [25] := by
    refine ⟨by decide +kernel, by decide +kernel, by decide +kernel, by decide +kernel, ?_⟩
    intro v h₁ h₂
    have hle : v ≤ 25 := h₂
    rw [Finset.mem_erase, Finset.mem_range, List.mem_singleton]
    omega
  refine ⟨h, ?_⟩
  exact count_buildEncoding_agrees fourElements_counting (by decide +kernel) (by decide +kernel)
    (by decide) h

/-- The complete graph on five vertices is not peeled, and its four neighbours fit a full
    record. Vertices 2 and 3 both find vertex 1 only. -/
theorem fiveClique_edge_denied :
    CountEncode.Counting fiveConfig ∧ SortedOrder 5 fiveClique.lists [1, 2, 3, 4, 5] ∧
    CountEncode.getIntSize fiveConfig < maxDegree fiveClique ∧ 3 ∈ fiveClique.adj 2 ∧
    ∃ encodes, buildEncoding fiveClique (CountEncode.getIntSize fiveConfig)
        (CountEncode.encodeVertex fiveConfig) [1, 2, 3, 4, 5] (Records.fresh fiveConfig) =
          some encodes ∧
      CountEncode.nePairTest fiveConfig encodes 2 3 = .nonNeighbor ∧
      ¬ fiveClique.Agrees (CountEncode.nePairTest fiveConfig encodes) := by
  have hedge : 3 ∈ fiveClique.adj 2 := by decide
  refine ⟨⟨by decide, by decide, by decide +kernel, by decide +kernel⟩, by decide +kernel,
    by decide +kernel, hedge, ?_⟩
  have hrun : (buildEncoding fiveClique (CountEncode.getIntSize fiveConfig)
      (CountEncode.encodeVertex fiveConfig) [1, 2, 3, 4, 5] (Records.fresh fiveConfig)).map
        (fun encodes => CountEncode.nePairTest fiveConfig encodes 2 3) = some .nonNeighbor := by
    decide +kernel
  obtain ⟨encodes, heq, hverdict⟩ := Option.map_eq_some_iff.mp hrun
  refine ⟨encodes, heq, hverdict, fun hagrees => ?_⟩
  exact (hagrees 2 3 (by decide) (by decide) (by decide) (by decide) (by decide)).1 hverdict hedge

end RangeVend

end Vend
