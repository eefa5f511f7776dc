import Vend.Vend.DirectedHybVend
import Vend.Vend.HybridVend

/-! # The hybrid encoders with `HSIMD`

    `main.cpp` builds the hybrid encoding once and queries it twice, the second time with
    `HSIMD` set. `BlockFind` gives up at the first id that is larger, `BlockFindSIMD` compares
    with all slots, so the two see different things in a record whose slots are out of order
    or hold ids from before.

    In the records of a build neither happens: they are written on cleared bits, from lists
    that stay sorted when the peeled neighbours are taken out. `hybrid_hsimd` and
    `directedHybrid_hsimd` say so for every pair of vertices.
-/

namespace Vend

open BucketPeeling (SortedOrder)
open HybridEncode (testBits findBlock encodeBits getIntSize)

namespace HybridEncode

/-! ## Section 1: One record -/

/-- Two verdicts on the same stored ids, neither of them `Uncertain`. -/
theorem eq_of_speaks {d d' : Bool} {stored : Prop} {type type' : PairType}
    (h : Speaks d stored type) (h' : Speaks d' stored type') (hne : type ≠ .uncertain)
    (hne' : type' ≠ .uncertain) : type = type' := by
  have h₁ := h.stored_of_neighbor
  have h₂ := h'.stored_of_neighbor
  have h₃ := h.ne_nonNeighbor
  have h₄ := h'.ne_nonNeighbor
  cases type <;> cases type' <;> simp_all

/-- On a record of a sorted list both searches end the same way. -/
theorem testBits_hsimd {c : Config} (hc : c.Packed) (hv : c.vertexSize + 1 < 2 ^ 32)
    {ids : List Nat} (hids : IdList c ids) (hsorted : ids.Pairwise (· ≤ ·))
    (hlen : ids.length < 2 ^ 32 - 1) {w : Nat} (hw : 1 ≤ w) :
    testBits c true (encodeBits c ids (BitSetSIMD.ofBitSize c.perEncodeBitSize)) w =
      testBits c false (encodeBits c ids (BitSetSIMD.ofBitSize c.perEncodeBitSize)) w := by
  have hsimd := speaks_encodeBits_fresh hc hv hids hsorted hlen true hw
  have hscalar := speaks_encodeBits_fresh hc hv hids hsorted hlen false hw
  generalize encodeBits c ids (BitSetSIMD.ofBitSize c.perEncodeBitSize) = encode at hsimd hscalar ⊢
  unfold testBits at hsimd hscalar ⊢
  split
  next hflag =>
    rw [if_pos hflag] at hsimd hscalar
    exact eq_of_speaks hsimd hscalar (findBlock_ne_uncertain _ _ _ _ _ _)
      (findBlock_ne_uncertain _ _ _ _ _ _)
  next hflag =>
    rw [if_neg hflag] at hsimd hscalar
    -- outside the range of the block both read the same bit
    simp only at hsimd hscalar ⊢
    split
    next => rfl
    next hin =>
      rw [if_neg hin] at hsimd hscalar
      exact eq_of_speaks hsimd hscalar (findBlock_ne_uncertain _ _ _ _ _ _)
        (findBlock_ne_uncertain _ _ _ _ _ _)

end HybridEncode

/-! ## Section 2: A build -/

section

variable {c : Config} (hc : c.Packed) (hsize : c.vertexSize + 1 < 2 ^ 31)

/-- The record of a vertex stands for a part of its sorted list. -/
def OfList (c : Config) (adj : Nat → List Nat) (encodes : Records) : Prop :=
  ∀ v ≤ c.vertexSize, ∃ keep : Nat → Bool,
    encodes.record v = encodeBits c ((adj v).filter keep) (BitSetSIMD.ofBitSize c.perEncodeBitSize)

include hc hsize in
theorem OfList.testBits_eq {adj : Nat → List Nat} {encodes : Records}
    (h : OfList c adj encodes)
    (hrange : ∀ v, ∀ w ∈ adj v, 1 ≤ w ∧ w ≤ c.vertexSize)
    (hsorted : ∀ v, (adj v).Pairwise (· < ·)) {v w : Nat} (hv : v ≤ c.vertexSize) (hw : 1 ≤ w) :
    testBits c true (encodes.record v) w = testBits c false (encodes.record v) w := by
  obtain ⟨keep, hrecord⟩ := h v hv
  obtain ⟨hids, hsort, hlen⟩ := kept_idList (c := c) (hrange v) (hsorted v) keep
  rw [hrecord]
  exact HybridEncode.testBits_hsimd hc (by omega) hids hsort (by omega) hw

end

namespace RangeVend

/-- After a build that peels the graph, `HSIMD` changes no verdict. -/
theorem hybrid_hsimd {c : Config} (hc : c.Packed) {g : Graph c.vertexSize}
    (hsorted : g.Sorted) {order : List Nat} (horder : SortedOrder c.vertexSize g.lists order)
    (hmax : getIntSize c < maxDegree g) (hsize : c.vertexSize + 1 < 2 ^ 31)
    (hfill : Fillable g (getIntSize c)) :
    ∃ encodes, buildEncoding g (getIntSize c) (HybridEncode.encodeVertex c) order
        (Records.fresh c) = some encodes ∧
      ∀ u v, 1 ≤ u → u ≤ c.vertexSize → 1 ≤ v → v ≤ c.vertexSize →
        HybridEncode.nePairTest c true encodes u v =
          HybridEncode.nePairTest c false encodes u v := by
  obtain ⟨calls, first, keep, heq, hcover⟩ := encodeCalls_covering horder hsize hmax hfill
  refine ⟨_, by rw [buildEncoding, heq]; rfl, ?_⟩
  intro u v hu hu' hv hv'
  have hlists : OfList c g.adj (calls.foldl (fun encodes call =>
      HybridEncode.encodeVertex c call.vertex (passed call) encodes) (Records.fresh c)) :=
    fun x hx => ⟨keep x, record_foldl_range hcover (encodeBits c) 0 hx⟩
  have htest := fun {x y} => hlists.testBits_eq hc hsize (fun _ _ hw => Graph.mem_range hw)
    hsorted (v := x) (w := y)
  rw [HybridEncode.nePairTest_eq_combine, HybridEncode.nePairTest_eq_combine]
  simp only [HybridEncode.nonNeighborTest, htest hu' hv, htest hv' hu]

theorem hybrid_hsimd_clique :
    ∃ encodes, buildEncoding tenClique 6 (HybridEncode.encodeVertex tenConfig) (List.range' 1 10)
        (Records.fresh tenConfig) = some encodes ∧
      HybridEncode.nePairTest tenConfig true encodes 3 9 =
        HybridEncode.nePairTest tenConfig false encodes 3 9 := by
  have horder : SortedOrder 10 tenClique.lists (List.range' 1 10) := by decide +kernel
  obtain ⟨encodes, hbuild, hsame⟩ := hybrid_hsimd (c := tenConfig) tenConfig_packed
    tenClique_sorted horder (by decide +kernel) (by decide +kernel)
    ⟨∅, by decide +kernel, by decide +kernel⟩
  exact ⟨encodes, hbuild, hsame 3 9 (by decide) (by decide) (by decide) (by decide)⟩

end RangeVend

namespace DirectedHybVend

/-- The same for both sides of a directed graph. -/
theorem directedHybrid_hsimd {c : Config} (hc : c.Packed) {g : Digraph c.vertexSize}
    (hsorted : g.Sorted) {order : List Nat} (horder : SortedOrder c.vertexSize g.lists order)
    (hmax : getIntSize c < maxDegree g) (hsize : c.vertexSize + 1 < 2 ^ 31)
    (hdeg : maxDegree g + 1 < 2 ^ 31) (hfill : Fillable g (getIntSize c)) :
    ∃ encodes, buildEncoding g (getIntSize c) (DirectedHybrid.encodeVertex c) order
        (DirectedHybrid.fresh c) = some encodes ∧
      ∀ u v, 1 ≤ u → u ≤ c.vertexSize → 1 ≤ v → v ≤ c.vertexSize →
        DirectedHybrid.nePairTest c true encodes u v =
          DirectedHybrid.nePairTest c false encodes u v := by
  obtain ⟨core, hcore, hgaps⟩ := hfill
  obtain ⟨calls, first, keep, heq, hcover⟩ :=
    BucketPeeling.peel_covering g.peelable horder hsize hdeg hmax hcore hgaps
  refine ⟨_, by rw [buildEncoding, encodeCalls, heq]; rfl, ?_⟩
  intro u v hu hu' hv hv'
  beta_reduce
  rw [foldl_encodeVertex]
  have hout : OfList c g.adj (calls.foldl (fun rs call =>
      rs.update call.vertex (encodeBits c (call.neighbors.getD 0 []))) (Records.fresh c)) :=
    fun x hx => ⟨keep x, record_foldl_range hcover (encodeBits c) 0 hx⟩
  have hin : OfList c g.inAdj (calls.foldl (fun rs call =>
      rs.update call.vertex (encodeBits c (call.neighbors.getD 1 []))) (Records.fresh c)) :=
    fun x hx => ⟨keep x, record_foldl_range hcover (encodeBits c) 1 hx⟩
  have htestOut := hout.testBits_eq hc hsize
    (fun _ _ hw => Digraph.mem_range (List.mem_append_left _ hw)) (fun x => (hsorted x).1) hu' hv
  have htestIn := hin.testBits_eq hc hsize
    (fun _ _ hw => Digraph.mem_range (List.mem_append_right _ hw)) (fun x => (hsorted x).2) hv' hu
  rw [DirectedHybrid.nePairTest_eq_combine, DirectedHybrid.nePairTest_eq_combine]
  simp only [DirectedHybrid.nonNeighborTest, DirectedHybrid.fresh, if_true, Bool.false_eq_true,
    if_false, htestOut, htestIn]

theorem directedHybrid_hsimd_tournament :
    ∃ encodes, buildEncoding tenTournament 6 (DirectedHybrid.encodeVertex RangeVend.tenConfig)
        (List.range' 1 10) (DirectedHybrid.fresh RangeVend.tenConfig) = some encodes ∧
      DirectedHybrid.nePairTest RangeVend.tenConfig true encodes 9 3 =
        DirectedHybrid.nePairTest RangeVend.tenConfig false encodes 9 3 := by
  have horder : SortedOrder 10 tenTournament.lists (List.range' 1 10) := by decide +kernel
  obtain ⟨encodes, hbuild, hsame⟩ := directedHybrid_hsimd (c := RangeVend.tenConfig)
    RangeVend.tenConfig_packed tenTournament_sorted horder (by decide +kernel)
    (by decide +kernel) (by decide +kernel) ⟨∅, by decide +kernel, by decide +kernel⟩
  exact ⟨encodes, hbuild, hsame 9 3 (by decide) (by decide) (by decide) (by decide)⟩

end DirectedHybVend

end Vend
