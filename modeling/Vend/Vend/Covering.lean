import Vend.Encode.Verdict

/-! # What a build has to cover

    Every build hands each vertex to `EncodeVertex` once, some vertices in a first
    loop that peels the graph and the others afterwards. A call may leave out
    neighbours that were taken out before. `Covering` says what the encoders rely
    on: of two neighbours the one that was peeled first kept the other, or neither
    was peeled and both kept each other.

    The builds differ in the lists of a vertex: one list for an undirected graph,
    an out- and an in-list for a directed one. `lists v` stands for either.
-/

namespace Vend

/-! ## Section 1: Calls -/

/-- One call of `EncodeVertex`. -/
structure Call where
  /-- Made while the graph is peeled. -/
  firstLoop : Bool
  vertex : Nat
  neighbors : List (List Nat)
  deriving DecidableEq, Repr

/-- The neighbours that are pushed to the call: those not yet taken out. -/
def unfiltered (filtered : List Bool) (neighbors : List Nat) : List Nat :=
  neighbors.filter fun neighbor => !filtered.getD neighbor false

namespace Graph

variable {vertexSize : Nat} (g : Graph vertexSize)

/-- The lists the peeling goes through. -/
def lists (v : Nat) : List (List Nat) := [g.adj v]

theorem flatten_lists (v : Nat) : (g.lists v).flatten = g.adj v := by
  simp [lists]

/-- The answers of a filter agree with the graph. -/
def Agrees (verdict : Nat → Nat → PairType) : Prop :=
  ∀ u v, 1 ≤ u → u ≤ vertexSize → 1 ≤ v → v ≤ vertexSize → u ≠ v →
    (verdict u v = .nonNeighbor → v ∉ g.adj u) ∧ (verdict u v = .neighbor → v ∈ g.adj u)

end Graph

namespace Digraph

variable {vertexSize : Nat} (g : Digraph vertexSize)

/-- The lists the peeling goes through. -/
def lists (v : Nat) : List (List Nat) := [g.adj v, g.inAdj v]

theorem flatten_lists (v : Nat) : (g.lists v).flatten = g.adj v ++ g.inAdj v := by
  simp [lists]

/-- The answers of a filter agree with the directed graph. -/
def Agrees (verdict : Nat → Nat → PairType) : Prop :=
  ∀ u v, 1 ≤ u → u ≤ vertexSize → 1 ≤ v → v ≤ vertexSize → u ≠ v →
    (verdict u v = .nonNeighbor → v ∉ g.adj u) ∧ (verdict u v = .neighbor → v ∈ g.adj u)

end Digraph

/-- What the encoders rely on: every vertex of `ids` is encoded once, the calls of the
    first loop are small, and of two vertices the one that is taken out first still
    sees the other, or both see each other. -/
structure Covering (ids : List Nat) (lists : Nat → List (List Nat))
    (small : List (List Nat) → Prop) (calls : List Call) (first : Nat → Bool)
    (keep : Nat → Nat → Bool) : Prop where
  perm : (calls.map Call.vertex).Perm ids
  call_eq : ∀ c ∈ calls, c.firstLoop = first c.vertex ∧
    c.neighbors = (lists c.vertex).map fun l => l.filter (keep c.vertex)
  small : ∀ c ∈ calls, c.firstLoop = true → small c.neighbors
  cover : ∀ v ∈ ids, ∀ w ∈ ids, v ≠ w →
    (first v = true ∧ keep v w = true) ∨ (first w = true ∧ keep w v = true) ∨
    (first v = false ∧ first w = false ∧ keep v w = true ∧ keep w v = true)

theorem flatten_map_filter (ls : List (List Nat)) (p : Nat → Bool) :
    (ls.map fun l => l.filter p).flatten = ls.flatten.filter p := by
  rw [List.filter_flatten]

/-! ## Section 2: The records after the calls -/

section

variable {ids : List Nat} {lists : Nat → List (List Nat)} {small : List (List Nat) → Prop}
variable {calls : List Call} {first : Nat → Bool} {keep : Nat → Nat → Bool}
variable (h : Covering ids lists small calls first keep)
include h

/-- A vertex that is peeled has small lists left. -/
theorem Covering.small_of_first {v : Nat} (hv : v ∈ ids) (hf : first v = true) :
    small ((lists v).map fun l => l.filter (keep v)) := by
  obtain ⟨call, hcall, rfl⟩ := List.mem_map.mp (h.perm.mem_iff.mpr hv)
  obtain ⟨hfirst, hneighbors⟩ := h.call_eq call hcall
  rw [← hneighbors]
  exact h.small call hcall (by rw [hfirst]; exact hf)

/-- The record that list `i` of the calls leaves for `v`. -/
theorem record_foldl_calls_at {c : Config} (hnodup : ids.Nodup) (hids : ∀ v ∈ ids, v ≤ c.vertexSize)
    (encode : Nat → List Nat → BitSetSIMD → BitSetSIMD) (i : Nat) {v : Nat} (hv : v ∈ ids) :
    (calls.foldl (fun rs call =>
        rs.update call.vertex (encode call.vertex (call.neighbors.getD i [])))
      (Records.fresh c)).record v =
        encode v (((lists v).getD i []).filter (keep v))
          (BitSetSIMD.ofBitSize c.perEncodeBitSize) := by
  have hnodup' : (calls.map Call.vertex).Nodup := h.perm.nodup_iff.mpr hnodup
  have hlt : ∀ call ∈ calls, call.vertex < (Records.fresh c).length := by
    intro call hcall
    have hmem := h.perm.mem_iff.mp (List.mem_map_of_mem hcall)
    have := hids _ hmem
    exact Records.lt_length_fresh (by omega)
  obtain ⟨call, hcall, rfl⟩ := List.mem_map.mp (h.perm.mem_iff.mpr hv)
  have hself := Records.record_foldl_update calls Call.vertex
    (fun call => encode call.vertex (call.neighbors.getD i [])) (Records.fresh c) hnodup' hlt hcall
  rw [hself, Records.record_fresh (hids _ hv), (h.call_eq call hcall).2]
  congr 1
  simp only [List.getD_eq_getElem?_getD, List.getElem?_map]
  cases (lists call.vertex)[i]? <;> simp

/-- The same for an encoder that does not look at the id of the vertex. -/
theorem record_foldl_calls {c : Config} (hnodup : ids.Nodup) (hids : ∀ v ∈ ids, v ≤ c.vertexSize)
    (encode : List Nat → BitSetSIMD → BitSetSIMD) (i : Nat) {v : Nat} (hv : v ∈ ids) :
    (calls.foldl (fun rs call => rs.update call.vertex (encode (call.neighbors.getD i [])))
      (Records.fresh c)).record v =
        encode (((lists v).getD i []).filter (keep v))
          (BitSetSIMD.ofBitSize c.perEncodeBitSize) :=
  record_foldl_calls_at h hnodup hids (fun _ => encode) i hv

omit h in
/-- The records of a build over the vertices `0 .. VERTEX_SIZE`. -/
theorem record_foldl_range_at {c : Config}
    (h : Covering (List.range (c.vertexSize + 1)) lists small calls first keep)
    (encode : Nat → List Nat → BitSetSIMD → BitSetSIMD) (i : Nat) {v : Nat}
    (hv : v ≤ c.vertexSize) :
    (calls.foldl (fun rs call =>
        rs.update call.vertex (encode call.vertex (call.neighbors.getD i [])))
      (Records.fresh c)).record v =
        encode v (((lists v).getD i []).filter (keep v))
          (BitSetSIMD.ofBitSize c.perEncodeBitSize) := by
  have hle : ∀ v ∈ List.range (c.vertexSize + 1), v ≤ c.vertexSize :=
    fun v hv => Nat.lt_succ_iff.mp (List.mem_range.mp hv)
  exact record_foldl_calls_at h List.nodup_range hle encode i
    (List.mem_range.mpr (Nat.lt_succ_iff.mpr hv))

omit h in
theorem record_foldl_range {c : Config}
    (h : Covering (List.range (c.vertexSize + 1)) lists small calls first keep)
    (encode : List Nat → BitSetSIMD → BitSetSIMD) (i : Nat) {v : Nat} (hv : v ≤ c.vertexSize) :
    (calls.foldl (fun rs call => rs.update call.vertex (encode (call.neighbors.getD i [])))
      (Records.fresh c)).record v =
        encode (((lists v).getD i []).filter (keep v))
          (BitSetSIMD.ofBitSize c.perEncodeBitSize) :=
  record_foldl_range_at h (fun _ => encode) i hv

omit h in
theorem mem_vertices {vertexSize v : Nat} (hv : 1 ≤ v) (hv' : v ≤ vertexSize) :
    v ∈ List.range' 1 vertexSize :=
  List.mem_range'_1.mpr (by omega)

omit h in
/-- The records of a build over the vertices `1 .. VERTEX_SIZE`. -/
theorem record_foldl_vertices {c : Config}
    (h : Covering (List.range' 1 c.vertexSize) lists small calls first keep)
    (encode : List Nat → BitSetSIMD → BitSetSIMD) (i : Nat) {v : Nat} (hv : 1 ≤ v)
    (hv' : v ≤ c.vertexSize) :
    (calls.foldl (fun rs call => rs.update call.vertex (encode (call.neighbors.getD i [])))
      (Records.fresh c)).record v =
        encode (((lists v).getD i []).filter (keep v))
          (BitSetSIMD.ofBitSize c.perEncodeBitSize) := by
  have hle : ∀ v ∈ List.range' 1 c.vertexSize, v ≤ c.vertexSize := by
    intro v hv
    rw [List.mem_range'_1] at hv
    omega
  exact record_foldl_calls h List.nodup_range' hle encode i (mem_vertices hv hv')

/-- The ids `1 .. vertexSize` are covered. -/
theorem Covering.cover_pair {vertexSize : Nat} (hids : ∀ v, 1 ≤ v → v ≤ vertexSize → v ∈ ids)
    {u v : Nat} (hu : 1 ≤ u ∧ u ≤ vertexSize) (hv : 1 ≤ v ∧ v ≤ vertexSize) (hne : u ≠ v) :
    (first u = true ∧ keep u v = true) ∨ (first v = true ∧ keep v u = true) ∨
      (first u = false ∧ first v = false ∧ keep u v = true ∧ keep v u = true) :=
  h.cover u (hids u hu.1 hu.2) v (hids v hv.1 hv.2) hne

end

/-! ## Section 3: Answers that agree with the graph -/

/-- Out- and in-records that speak for what was kept answer correctly when every
    edge is kept by a decodable side or by both sides. -/
theorem Digraph.agrees_of_kept {vertexSize : Nat} {g : Digraph vertexSize}
    (keepOut keepIn : Nat → Nat → Bool)
    {decOut decIn : Nat → Bool} {testOut testIn verdict : Nat → Nat → PairType}
    (hverdict : ∀ u v, verdict u v = combine (decOut u) (decIn v) (testOut u v) (testIn v u))
    (hout : ∀ u v, 1 ≤ u → u ≤ vertexSize → 1 ≤ v → v ≤ vertexSize →
      Speaks (decOut u) (v ∈ (g.adj u).filter (keepOut u)) (testOut u v))
    (hin : ∀ u v, 1 ≤ u → u ≤ vertexSize → 1 ≤ v → v ≤ vertexSize →
      Speaks (decIn u) (v ∈ (g.inAdj u).filter (keepIn u)) (testIn u v))
    (hcover : ∀ u v, 1 ≤ u → u ≤ vertexSize → 1 ≤ v → v ≤ vertexSize → u ≠ v →
      (decOut u = true ∧ keepOut u v = true) ∨ (decIn v = true ∧ keepIn v u = true) ∨
      (keepOut u v = true ∧ keepIn v u = true)) :
    g.Agrees verdict := by
  intro u v hu hu' hv hv' hne
  have h₁ := hout u v hu hu' hv hv'
  have h₂ := hin v u hv hv' hu hu'
  rw [hverdict]
  constructor
  · intro hnon hedge
    refine combine_ne_nonNeighbor h₁ h₂ ?_ hnon
    simp only [List.mem_filter, hedge, Digraph.mem_inAdj_iff.mpr hedge, true_and]
    exact hcover u v hu hu' hv hv' hne
  · intro hnb
    rcases stored_of_combine_neighbor h₁ h₂ hnb with hs | hs
    · exact List.mem_of_mem_filter hs
    · exact Digraph.mem_inAdj_iff.mp (List.mem_of_mem_filter hs)

/-- Records that speak for what was kept answer correctly when the verdict of a pair
    draws the right conclusions from theirs. -/
theorem Graph.agrees_of_pairs {vertexSize : Nat} {g : Graph vertexSize} {ids : List Nat}
    {small : List (List Nat) → Prop} {calls : List Call} {first : Nat → Bool}
    {keep : Nat → Nat → Bool} (h : Covering ids g.lists small calls first keep)
    (hids : ∀ v, 1 ≤ v → v ≤ vertexSize → v ∈ ids) {decodable : Nat → Bool}
    {test : Nat → Nat → PairType} {verdict : Nat → Nat → PairType}
    (hedge : ∀ u v {s₁ s₂ : Prop}, Speaks (decodable u) s₁ (test u v) →
      Speaks (decodable v) s₂ (test v u) →
      (decodable u = true ∧ s₁) ∨ (decodable v = true ∧ s₂) ∨ (s₁ ∧ s₂) →
      verdict u v ≠ .nonNeighbor)
    (hstored : ∀ u v {s₁ s₂ : Prop}, Speaks (decodable u) s₁ (test u v) →
      Speaks (decodable v) s₂ (test v u) → verdict u v = .neighbor → s₁ ∨ s₂)
    (hspeaks : ∀ u v, 1 ≤ u → u ≤ vertexSize → 1 ≤ v → v ≤ vertexSize →
      Speaks (decodable u) (v ∈ (g.adj u).filter (keep u)) (test u v))
    (hfirst : ∀ u, 1 ≤ u → u ≤ vertexSize → first u = true → decodable u = true) :
    g.Agrees verdict := by
  intro u v hu hu' hv hv' hne
  have h₁ := hspeaks u v hu hu' hv hv'
  have h₂ := hspeaks v u hv hv' hu hu'
  constructor
  · intro hnon hadj
    refine hedge u v h₁ h₂ ?_ hnon
    simp only [List.mem_filter, hadj, Graph.mem_adj_comm.mp hadj, true_and]
    rcases h.cover_pair hids ⟨hu, hu'⟩ ⟨hv, hv'⟩ hne with ⟨hf, hk⟩ | ⟨hf, hk⟩ | ⟨-, -, hk, hk'⟩
    · exact Or.inl ⟨hfirst u hu hu' hf, hk⟩
    · exact Or.inr (Or.inl ⟨hfirst v hv hv' hf, hk⟩)
    · exact Or.inr (Or.inr ⟨hk, hk'⟩)
  · intro hnb
    rcases hstored u v h₁ h₂ hnb with hs | hs
    · exact List.mem_of_mem_filter hs
    · exact Graph.mem_adj_comm.mpr (List.mem_of_mem_filter hs)

section

variable {vertexSize : Nat} {g : Graph vertexSize} {ids : List Nat}
variable {small : List (List Nat) → Prop} {calls : List Call} {first : Nat → Bool}
variable {keep : Nat → Nat → Bool} {decodable : Nat → Bool} {test verdict : Nat → Nat → PairType}

/-- An undirected graph as one whose edges go both ways. -/
theorem Graph.agrees_of_covering (h : Covering ids g.lists small calls first keep)
    (hids : ∀ v, 1 ≤ v → v ≤ vertexSize → v ∈ ids)
    (hverdict : ∀ u v, verdict u v = combine (decodable u) (decodable v) (test u v) (test v u))
    (hspeaks : ∀ u v, 1 ≤ u → u ≤ vertexSize → 1 ≤ v → v ≤ vertexSize →
      Speaks (decodable u) (v ∈ (g.adj u).filter (keep u)) (test u v))
    (hfirst : ∀ u, 1 ≤ u → u ≤ vertexSize → first u = true → decodable u = true) :
    g.Agrees verdict := by
  refine g.agrees_of_pairs h hids ?_ ?_ hspeaks hfirst
  · intro u v s₁ s₂ h₁ h₂ hcover
    rw [hverdict]
    exact combine_ne_nonNeighbor h₁ h₂ hcover
  · intro u v s₁ s₂ h₁ h₂ hnb
    rw [hverdict] at hnb
    exact stored_of_combine_neighbor h₁ h₂ hnb

/-- The encoders that take the smaller of the two verdicts. -/
theorem Graph.agrees_of_covering_min (h : Covering ids g.lists small calls first keep)
    (hids : ∀ v, 1 ≤ v → v ≤ vertexSize → v ∈ ids)
    (hverdict : ∀ u v, verdict u v = PairType.min (test u v) (test v u))
    (hspeaks : ∀ u v, 1 ≤ u → u ≤ vertexSize → 1 ≤ v → v ≤ vertexSize →
      Speaks (decodable u) (v ∈ (g.adj u).filter (keep u)) (test u v))
    (hfirst : ∀ u, 1 ≤ u → u ≤ vertexSize → first u = true → decodable u = true) :
    g.Agrees verdict := by
  refine g.agrees_of_pairs h hids ?_ ?_ hspeaks hfirst
  · intro u v s₁ s₂ h₁ h₂ hcover
    rw [hverdict]
    exact min_ne_nonNeighbor h₁ h₂ hcover
  · intro u v s₁ s₂ h₁ h₂ hnb
    rw [hverdict] at hnb
    exact stored_of_min_neighbor h₁ h₂ hnb

end

end Vend
