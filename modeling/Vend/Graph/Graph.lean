import Mathlib.Data.List.Nodup
import Mathlib.Data.List.GetD
import Mathlib.Data.List.Perm.Subperm
import Mathlib.Tactic.ByContra

/-! # Graphs as the builds receive them

    `adjacency_list_` and `in_adj_list_` of `graph/graph.h`: vectors of
    `VERTEX_SIZE + 1` neighbour lists, of which index 0 is unused. The builds
    never look at anything but these lists.
-/

namespace Vend

/-- A loop-free undirected graph on `1 .. vertexSize`. -/
structure Graph (vertexSize : Nat) where
  /-- `adjacency_list_`. -/
  adjacencyList : List (List Nat)
  zero : adjacencyList.getD 0 [] = []
  length : adjacencyList.length = vertexSize + 1
  range : ∀ v < vertexSize + 1, ∀ w ∈ adjacencyList.getD v [], 1 ≤ w ∧ w ≤ vertexSize
  loopless : ∀ v < vertexSize + 1, v ∉ adjacencyList.getD v []
  nodup : ∀ v < vertexSize + 1, (adjacencyList.getD v []).Nodup
  symm : ∀ v < vertexSize + 1, ∀ w ∈ adjacencyList.getD v [], v ∈ adjacencyList.getD w []

namespace Graph

variable {vertexSize : Nat} (g : Graph vertexSize)

/-- `adjacency_list_->at(v)`. -/
def adj (v : Nat) : List Nat := g.adjacencyList.getD v []

/-- The lists are sorted. -/
def Sorted : Prop := ∀ v, (g.adj v).Pairwise (· < ·)

theorem adj_of_lt {v : Nat} (hv : vertexSize < v) : g.adj v = [] := by
  unfold adj
  rw [List.getD_eq_default]
  rw [g.length]
  exact hv

theorem adj_zero : g.adj 0 = [] := g.zero

/-- The graph without edges. -/
def edgeless (vertexSize : Nat) : Graph vertexSize where
  adjacencyList := List.replicate (vertexSize + 1) []
  zero := by simp
  length := by simp
  range v _ := by simp [List.getD_eq_getElem?_getD]
  loopless v _ := by simp [List.getD_eq_getElem?_getD]
  nodup v _ := by simp [List.getD_eq_getElem?_getD]
  symm v _ := by simp [List.getD_eq_getElem?_getD]

theorem edgeless_sorted (vertexSize : Nat) : (edgeless vertexSize).Sorted := by
  intro v
  simp [edgeless, adj, List.getD_eq_getElem?_getD]

variable {g} {v w : Nat}

theorem mem_range (hw : w ∈ g.adj v) : 1 ≤ w ∧ w ≤ vertexSize := by
  rcases Nat.lt_or_ge vertexSize v with hv | hv
  · simp [g.adj_of_lt hv] at hw
  · exact g.range v (by omega) w hw

theorem not_mem_adj_self : v ∉ g.adj v := by
  intro hw
  have hrange := mem_range hw
  exact g.loopless v (by omega) hw

theorem nodup_adj : (g.adj v).Nodup := by
  rcases Nat.lt_or_ge vertexSize v with hv | hv
  · simp [g.adj_of_lt hv]
  · exact g.nodup v (by omega)

theorem mem_adj_comm : w ∈ g.adj v ↔ v ∈ g.adj w := by
  have key : ∀ {v w}, w ∈ g.adj v → v ∈ g.adj w := by
    intro v w hw
    rcases Nat.lt_or_ge vertexSize v with hv | hv
    · simp [g.adj_of_lt hv] at hw
    · exact g.symm v (by omega) w hw
  exact ⟨key, key⟩

end Graph

/-- A loop-free directed graph on `1 .. vertexSize`. -/
structure Digraph (vertexSize : Nat) where
  /-- `adjacency_list_`: the targets of a vertex. -/
  adjacencyList : List (List Nat)
  /-- `in_adj_list_`: the sources of a vertex. -/
  inAdjList : List (List Nat)
  zero : adjacencyList.getD 0 [] = [] ∧ inAdjList.getD 0 [] = []
  length : adjacencyList.length = vertexSize + 1 ∧ inAdjList.length = vertexSize + 1
  range : ∀ v < vertexSize + 1, ∀ w ∈ adjacencyList.getD v [] ++ inAdjList.getD v [],
    1 ≤ w ∧ w ≤ vertexSize
  loopless : ∀ v < vertexSize + 1, v ∉ adjacencyList.getD v []
  nodup : ∀ v < vertexSize + 1, (adjacencyList.getD v []).Nodup ∧ (inAdjList.getD v []).Nodup
  transpose : (∀ v < vertexSize + 1, ∀ w ∈ adjacencyList.getD v [], v ∈ inAdjList.getD w []) ∧
    ∀ v < vertexSize + 1, ∀ w ∈ inAdjList.getD v [], v ∈ adjacencyList.getD w []

namespace Digraph

variable {vertexSize : Nat} (g : Digraph vertexSize)

/-- `adjacency_list_->at(v)`. -/
def adj (v : Nat) : List Nat := g.adjacencyList.getD v []

/-- `in_adj_list_->at(v)`. -/
def inAdj (v : Nat) : List Nat := g.inAdjList.getD v []

/-- Both families of lists are sorted. -/
def Sorted : Prop := ∀ v, (g.adj v).Pairwise (· < ·) ∧ (g.inAdj v).Pairwise (· < ·)

theorem adj_of_lt {v : Nat} (hv : vertexSize < v) : g.adj v = [] ∧ g.inAdj v = [] := by
  unfold adj inAdj
  rw [List.getD_eq_default, List.getD_eq_default]
  · exact ⟨rfl, rfl⟩
  · rw [g.length.2]
    exact hv
  · rw [g.length.1]
    exact hv

variable {g} {v w : Nat}

theorem mem_range (hw : w ∈ g.adj v ++ g.inAdj v) : 1 ≤ w ∧ w ≤ vertexSize := by
  rcases Nat.lt_or_ge vertexSize v with hv | hv
  · simp [g.adj_of_lt hv] at hw
  · exact g.range v (by omega) w hw

theorem mem_inAdj_iff : v ∈ g.inAdj w ↔ w ∈ g.adj v := by
  constructor
  · intro hv
    rcases Nat.lt_or_ge vertexSize w with hw | hw
    · simp [g.adj_of_lt hw] at hv
    · exact g.transpose.2 w (by omega) v hv
  · intro hw
    rcases Nat.lt_or_ge vertexSize v with hv | hv
    · simp [g.adj_of_lt hv] at hw
    · exact g.transpose.1 v (by omega) w hw

theorem not_mem_adj_self : v ∉ g.adj v := by
  intro hw
  have hrange := mem_range (List.mem_append_left _ hw)
  exact g.loopless v (by omega) hw

theorem sorted_of_forall_lt (h : ∀ x < vertexSize + 1,
    (g.adj x).Pairwise (· < ·) ∧ (g.inAdj x).Pairwise (· < ·)) : g.Sorted := by
  intro x
  rcases Nat.lt_or_ge vertexSize x with hx | hx
  · rw [(g.adj_of_lt hx).1, (g.adj_of_lt hx).2]
    exact ⟨List.Pairwise.nil, List.Pairwise.nil⟩
  · exact h x (by omega)

theorem nodup_adj : (g.adj v).Nodup ∧ (g.inAdj v).Nodup := by
  rcases Nat.lt_or_ge vertexSize v with hv | hv
  · simp [g.adj_of_lt hv]
  · exact g.nodup v (by omega)

end Digraph

/-! ## The graph behind the update operations -/

/-- The graph that `db_` holds: `Get` returns the neighbours of a vertex, and no
    neighbours for an id without a record. -/
structure Db (vertexSize : Nat) where
  get : Nat → List Nat
  range : ∀ v w, w ∈ get v → 1 ≤ w ∧ w ≤ vertexSize
  loopless : ∀ v, v ∉ get v
  nodup : ∀ v, (get v).Nodup
  symm : ∀ v w, w ∈ get v → v ∈ get w

namespace Db

variable {vertexSize : Nat}

/-- The lists are sorted. -/
def Sorted (db : Db vertexSize) : Prop := ∀ v, (db.get v).Pairwise (· < ·)

/-- `db'` is `db` with the edge `uv`. -/
def Adds (db : Db vertexSize) (u v : Nat) (db' : Db vertexSize) : Prop :=
  ∀ x y, y ∈ db'.get x ↔ y ∈ db.get x ∨ (x = u ∧ y = v) ∨ (x = v ∧ y = u)

/-- `db'` is `db` without the edge `uv`. -/
def Removes (db : Db vertexSize) (u v : Nat) (db' : Db vertexSize) : Prop :=
  ∀ x y, y ∈ db'.get x ↔ y ∈ db.get x ∧ ¬ ((x = u ∧ y = v) ∨ (x = v ∧ y = u))

theorem Adds.symm {db db' : Db vertexSize} {u v : Nat} (h : db.Adds u v db') :
    db.Adds v u db' := by
  intro x y
  rw [h x y]
  tauto

theorem Removes.symm {db db' : Db vertexSize} {u v : Nat} (h : db.Removes u v db') :
    db.Removes v u db' := by
  intro x y
  rw [h x y]
  tauto

/-- The ends of the new edge, in either order. -/
theorem Adds.of_ends {db db' : Db vertexSize} {u v a b : Nat} (h : db.Adds u v db')
    (hends : (a = u ∧ b = v) ∨ (a = v ∧ b = u)) : db.Adds a b db' := by
  rcases hends with ⟨rfl, rfl⟩ | ⟨rfl, rfl⟩
  · exact h
  · exact h.symm

theorem mem_range_self {db : Db vertexSize} {v w : Nat} (hw : w ∈ db.get v) :
    1 ≤ v ∧ v ≤ vertexSize :=
  db.range w v (db.symm v w hw)

theorem length_le (db : Db vertexSize) (v : Nat) : (db.get v).length ≤ vertexSize := by
  have hsub : (db.get v).Subperm (List.range' 1 vertexSize) := by
    apply List.subperm_of_subset (db.nodup v)
    intro w hw
    have := db.range v w hw
    rw [List.mem_range'_1]
    omega
  simpa using hsub.length_le

/-- The database without the edge `uv`. -/
def remove (db : Db vertexSize) (u v : Nat) : Db vertexSize where
  get x := (db.get x).filter fun y => ¬ ((x = u ∧ y = v) ∨ (x = v ∧ y = u))
  range x y hy := db.range x y (List.mem_of_mem_filter hy)
  loopless x hx := db.loopless x (List.mem_of_mem_filter hx)
  nodup x := (db.nodup x).filter _
  symm x y hy := by
    rw [List.mem_filter, decide_eq_true_eq] at hy ⊢
    refine ⟨db.symm x y hy.1, ?_⟩
    have := hy.2
    tauto

theorem removes_remove (db : Db vertexSize) (u v : Nat) : db.Removes u v (db.remove u v) := by
  intro x y
  rw [remove, List.mem_filter, decide_eq_true_eq]

end Db

namespace Graph

variable {vertexSize : Nat} (g : Graph vertexSize)

/-- The database after a graph has been loaded. -/
def db : Db vertexSize where
  get := g.adj
  range := fun _ _ => mem_range
  loopless := fun _ => not_mem_adj_self
  nodup := fun _ => nodup_adj
  symm := fun _ _ => mem_adj_comm.mp

variable {g} {g' : Graph vertexSize} {u v : Nat}

/-- `Sorted`, `Adds` and `Removes` speak of ids `1 .. vertexSize` only. -/
theorem sorted_of_forall_lt (h : ∀ x < vertexSize + 1, (g.adj x).Pairwise (· < ·)) :
    g.Sorted := by
  intro x
  rcases Nat.lt_or_ge vertexSize x with hx | hx
  · rw [g.adj_of_lt hx]
    exact List.Pairwise.nil
  · exact h x (by omega)

/-- Both ends of an edge are vertices. -/
theorem le_of_mem_adj {x y : Nat} (hy : y ∈ g.adj x) : x ≤ vertexSize ∧ y ≤ vertexSize :=
  ⟨(mem_range (mem_adj_comm.mp hy)).2, (mem_range hy).2⟩

theorem adds_of_forall_lt (hu : u ≤ vertexSize) (hv : v ≤ vertexSize)
    (h : ∀ x < vertexSize + 1, ∀ y < vertexSize + 1,
      (y ∈ g'.adj x ↔ y ∈ g.adj x ∨ (x = u ∧ y = v) ∨ (x = v ∧ y = u))) :
    g.db.Adds u v g'.db := by
  intro x y
  change y ∈ g'.adj x ↔ y ∈ g.adj x ∨ _
  by_cases hxy : x ≤ vertexSize ∧ y ≤ vertexSize
  · exact h x (by omega) y (by omega)
  · have hno : ∀ g : Graph vertexSize, y ∉ g.adj x := fun g hy => hxy (le_of_mem_adj hy)
    refine iff_of_false (hno g') ?_
    rintro (hold | hnew | hnew)
    · exact hno g hold
    all_goals omega

theorem removes_of_forall_lt
    (h : ∀ x < vertexSize + 1, ∀ y < vertexSize + 1,
      (y ∈ g'.adj x ↔ y ∈ g.adj x ∧ ¬ ((x = u ∧ y = v) ∨ (x = v ∧ y = u)))) :
    g.db.Removes u v g'.db := by
  intro x y
  change y ∈ g'.adj x ↔ y ∈ g.adj x ∧ _
  by_cases hxy : x ≤ vertexSize ∧ y ≤ vertexSize
  · exact h x (by omega) y (by omega)
  · have hno : ∀ g : Graph vertexSize, y ∉ g.adj x := fun g hy => hxy (le_of_mem_adj hy)
    exact iff_of_false (hno g') fun hold => hno g hold.1

end Graph

end Vend
