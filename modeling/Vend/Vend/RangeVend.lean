import Vend.Vend.BucketPeeling

/-! # `RangeVend`

    `vend/range_vend.cpp`: the bucket peeling of an undirected graph, each
    vertex having one neighbour list. The build is generic in the encoder,
    which it uses through `EncodeVertex` and `GetIntSize` only.

    The loop that fills the gaps of `bin` gives every degree of a gap the start
    `bin[j - 1] + 1`, as if the bucket in front of it held a single vertex. Where
    it holds more, the k-core loop moves vertices over places it has already
    passed. `buildEncoding_peels` therefore asks for gaps behind buckets of one
    vertex (or gaps that the loop never comes near), and `star_not_peeled` shows
    what happens otherwise.
-/

namespace Vend

namespace Graph

variable {vertexSize : Nat} (g : Graph vertexSize)

theorem peelable : BucketPeeling.Peelable vertexSize g.lists := by
  constructor
  · rw [flatten_lists, adj_zero]
  · intro v w hw
    rw [flatten_lists] at hw
    exact mem_range hw
  · intro v
    rw [flatten_lists]
    exact not_mem_adj_self
  · intro v w
    rw [flatten_lists, flatten_lists]
    by_cases hw : w ∈ g.adj v
    · rw [List.count_eq_one_of_mem nodup_adj hw,
        List.count_eq_one_of_mem nodup_adj (mem_adj_comm.mp hw)]
    · rw [List.count_eq_zero_of_not_mem hw,
        List.count_eq_zero_of_not_mem fun h => hw (mem_adj_comm.mpr h)]

theorem length_adj_le (v : Nat) : (g.adj v).length ≤ vertexSize := by
  have hsub : (g.adj v).Subperm (List.range' 1 vertexSize) := by
    apply List.subperm_of_subset nodup_adj
    intro w hw
    have := mem_range hw
    rw [List.mem_range'_1]
    omega
  simpa using hsub.length_le

end Graph

namespace RangeVend

open BucketPeeling

variable {vertexSize : Nat}

/-! ## Section 1: Model -/

/-- The calls of `EncodeVertex` in the order in which they are made. -/
def encodeCalls (g : Graph vertexSize) (intSize : Nat) (order : List Nat) : Option (List Call) :=
  peel vertexSize g.lists intSize order

/-- The neighbours that a call passes. -/
def passed (c : Call) : List Nat := c.neighbors.getD 0 []

/-- `BuildEncoding` with an encoder: `intSize` is its `GetIntSize()`. -/
def buildEncoding {σ : Type} (g : Graph vertexSize) (intSize : Nat)
    (encodeVertex : Nat → List Nat → σ → σ) (order : List Nat) (encodes : σ) : Option σ :=
  (encodeCalls g intSize order).map fun calls =>
    calls.foldl (fun st c => encodeVertex c.vertex (passed c) st) encodes

/-! ## Section 2: What the peeling promises -/

/-- Every vertex is encoded once, the k-core calls pass at most `intSize`
    neighbours, and every edge is passed by one endpoint, by both unless the
    passing endpoint was encoded in the k-core loop. -/
structure Peels (g : Graph vertexSize) (intSize : Nat) (calls : List Call) : Prop where
  once : ∀ v, 1 ≤ v → v ≤ vertexSize → calls.countP (fun c => decide (c.vertex = v)) = 1
  small : ∀ c ∈ calls, c.firstLoop = true → (passed c).length ≤ intSize
  covered : ∀ c ∈ calls, ∀ c' ∈ calls, c'.vertex ∈ g.adj c.vertex →
    (c'.vertex ∈ passed c ∨ c.vertex ∈ passed c') ∧
    (c'.vertex ∈ passed c → c.firstLoop = true ∨ c.vertex ∈ passed c')

/-- The maximum degree of the graph. -/
def maxDegree (g : Graph vertexSize) : Nat := BucketPeeling.maxDegree vertexSize g.lists

/-- The gaps in the degree sequence do no harm: every missing degree from 2 on
    follows a bucket of one vertex, or as many vertices as stand from that bucket
    on form a set in which each has more than `intSize` neighbours. -/
def Fillable (g : Graph vertexSize) (intSize : Nat) : Prop :=
  ∃ core, IsCore g.lists (vertexSize + 1) intSize core ∧ GapsClosed vertexSize g.lists core

theorem maxDegree_lt (g : Graph vertexSize) (hsize : vertexSize + 1 < 2 ^ 31) :
    maxDegree g + 1 < 2 ^ 31 := by
  obtain ⟨v, -, hv⟩ := occurs_maxDegree g.peelable
  have hle := g.length_adj_le v
  rw [degree, g.flatten_lists] at hv
  change BucketPeeling.maxDegree vertexSize g.lists + 1 < 2 ^ 31
  omega

/-- What the calls of a build keep. -/
abbrev Covered (g : Graph vertexSize) (intSize : Nat) (calls : List Call) (first : Nat → Bool)
    (keep : Nat → Nat → Bool) : Prop :=
  Covering (List.range (vertexSize + 1)) g.lists (fun ls => ls.flatten.length ≤ intSize) calls
    first keep

/-- The calls of a build and what each of them keeps. -/
theorem encodeCalls_covering {g : Graph vertexSize} {intSize : Nat} {order : List Nat}
    (horder : SortedOrder vertexSize g.lists order) (hsize : vertexSize + 1 < 2 ^ 31)
    (hmax : intSize < maxDegree g) (hfill : Fillable g intSize) :
    ∃ calls first keep, encodeCalls g intSize order = some calls ∧
      Covered g intSize calls first keep := by
  obtain ⟨core, hcore, hgaps⟩ := hfill
  exact peel_covering g.peelable horder hsize (maxDegree_lt g hsize) hmax hcore hgaps

theorem passed_eq {g : Graph vertexSize} {intSize : Nat} {calls : List Call} {first : Nat → Bool}
    {keep : Nat → Nat → Bool} (h : Covered g intSize calls first keep)
    {c : Call} (hc : c ∈ calls) : passed c = (g.adj c.vertex).filter (keep c.vertex) := by
  rw [passed, (h.call_eq c hc).2]
  rfl

theorem vertex_mem {g : Graph vertexSize} {intSize : Nat} {calls : List Call} {first : Nat → Bool}
    {keep : Nat → Nat → Bool} (h : Covered g intSize calls first keep)
    {c : Call} (hc : c ∈ calls) : c.vertex ∈ List.range (vertexSize + 1) :=
  h.perm.mem_iff.mp (List.mem_map_of_mem hc)

/-- Small lists are kept by the k-core calls. -/
theorem length_kept_of_first {g : Graph vertexSize} {intSize : Nat} {calls : List Call}
    {first : Nat → Bool} {keep : Nat → Nat → Bool}
    (h : Covered g intSize calls first keep) {v : Nat} (hv : v ≤ vertexSize)
    (hf : first v = true) : ((g.adj v).filter (keep v)).length ≤ intSize := by
  have hsmall := h.small_of_first (List.mem_range.mpr (by omega)) hf
  rwa [flatten_map_filter, g.flatten_lists] at hsmall

theorem peels_of_covering {g : Graph vertexSize} {intSize : Nat} {calls : List Call}
    {first : Nat → Bool} {keep : Nat → Nat → Bool}
    (h : Covered g intSize calls first keep) : Peels g intSize calls := by
  refine ⟨?_, ?_, ?_⟩
  · intro v _ hle
    have hcount : (calls.map Call.vertex).count v = 1 := by
      rw [h.perm.count_eq]
      exact List.count_eq_one_of_mem List.nodup_range (List.mem_range.mpr (by omega))
    rw [List.count, List.countP_map] at hcount
    rw [← hcount]
    apply List.countP_congr
    intro c _
    simp
  · intro c hc hfirst
    have hle := h.small c hc hfirst
    rw [(h.call_eq c hc).2] at hle
    rw [passed_eq h hc]
    simpa [Graph.lists] using hle
  · intro c hc c' hc' hmem
    have hmem' := Graph.mem_adj_comm.mp hmem
    have hne : c.vertex ≠ c'.vertex := fun heq => Graph.not_mem_adj_self (heq ▸ hmem)
    have hcover := h.cover c.vertex (vertex_mem h hc) c'.vertex (vertex_mem h hc') hne
    have hfirst := (h.call_eq c hc).1
    rw [passed_eq h hc, passed_eq h hc', hfirst]
    simp only [List.mem_filter, hmem, hmem', true_and]
    rcases hcover with ⟨hf, hk⟩ | ⟨hf, hk⟩ | ⟨-, -, hk, hk'⟩
    · exact ⟨Or.inl hk, fun _ => Or.inl hf⟩
    · exact ⟨Or.inr hk, fun _ => Or.inr hk⟩
    · exact ⟨Or.inl hk, fun _ => Or.inr hk'⟩

/-- `BuildEncoding` peels every graph whose degree gaps are harmless. -/
theorem buildEncoding_peels {g : Graph vertexSize} {intSize : Nat} {order : List Nat}
    (horder : SortedOrder vertexSize g.lists order) (hmax : intSize < maxDegree g)
    (hsize : vertexSize + 1 < 2 ^ 31) (hfill : Fillable g intSize) :
    ∃ calls, encodeCalls g intSize order = some calls ∧ Peels g intSize calls := by
  obtain ⟨calls, first, keep, heq, hcover⟩ := encodeCalls_covering horder hsize hmax hfill
  exact ⟨calls, heq, peels_of_covering hcover⟩

/-- A clique on `2 .. 5` with the pendant vertex 1 at vertex 2. Degree 2 is
    missing behind a bucket of one vertex. -/
def pendantGraph : Graph 5 where
  adjacencyList := [[], [2], [1, 3, 4, 5], [2, 4, 5], [2, 3, 5], [2, 3, 4]]
  zero := by decide
  length := by decide
  range := by decide
  loopless := by decide
  nodup := by decide
  symm := by decide

theorem buildEncoding_peels_pendant :
    SortedOrder 5 pendantGraph.lists [1, 3, 4, 5, 2] ∧
    ∃ calls, encodeCalls pendantGraph 2 [1, 3, 4, 5, 2] = some calls ∧
      Peels pendantGraph 2 calls :=
  ⟨by decide +kernel, buildEncoding_peels (by decide +kernel) (by decide +kernel)
    (by decide +kernel) ⟨∅, by decide +kernel, by decide +kernel⟩⟩

/-- The star with centre 3. Degree 2 is missing behind a bucket of three vertices. -/
def starGraph : Graph 4 where
  adjacencyList := [[], [3], [3], [1, 2, 4], [3]]
  zero := by decide
  length := by decide
  range := by decide
  loopless := by decide
  nodup := by decide
  symm := by decide

/-- On the star with `GetIntSize() = 2`, vertex 2 is encoded twice and the
    centre never. -/
theorem star_not_peeled :
    SortedOrder 4 starGraph.lists [1, 2, 4, 3] ∧ 2 < maxDegree starGraph ∧
    ¬ ∃ calls, encodeCalls starGraph 2 [1, 2, 4, 3] = some calls ∧ Peels starGraph 2 calls := by
  refine ⟨by decide +kernel, by decide +kernel, ?_⟩
  rintro ⟨calls, heq, hpeels⟩
  have hcalls : encodeCalls starGraph 2 [1, 2, 4, 3] = some
      [⟨true, 0, [[]]⟩, ⟨true, 1, [[3]]⟩, ⟨true, 2, [[3]]⟩, ⟨true, 4, [[3]]⟩, ⟨true, 2, [[3]]⟩] := by
    decide +kernel
  rw [hcalls, Option.some.injEq] at heq
  subst heq
  have hcentre := hpeels.once 3 (by decide) (by decide)
  revert hcentre
  decide

end RangeVend

end Vend
