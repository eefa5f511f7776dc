import Vend.Dbengine.RocksDb
import Vend.Lib.BinarySearch
import Vend.Lib.Run

/-! # The graph in the database

    `DbInsert`, `DbDelete` and `DbQuery` of `graph/graph.cpp`, with `db_type_` 0:
    the edges of the graph as the neighbour lists in RocksDB.

    The operations keep a list in order only when the new id is its largest, they
    read the second list into a buffer that still holds the first one, and a list
    that becomes empty is not written back. `queries_agree` covers the runs in
    which none of this matters.
-/

namespace Vend

namespace GraphStore

open RocksDb

/-! ## Section 1: Model -/

/-- `DbInsert(vertex1, vertex2)`. -/
def dbInsert (db : RocksDb) (vertex1 vertex2 : Nat) : RocksDb :=
  let neighbors := (db.get vertex1 []).2 ++ [vertex2]
  let db := db.put vertex1 neighbors
  -- the buffer is not emptied in between
  let neighbors := (db.get vertex2 neighbors).2 ++ [vertex1]
  db.put vertex2 neighbors

/-- One half of `DbDelete`: `std::find`, `erase` and `Put`. -/
def dbDeleteFrom (db : RocksDb) (vertex other : Nat) : RocksDb :=
  let neighbors := (db.get vertex []).2
  if other ∈ neighbors then db.put vertex (neighbors.erase other) else db

/-- `DbDelete(vertex1, vertex2)`. -/
def dbDelete (db : RocksDb) (vertex1 vertex2 : Nat) : RocksDb :=
  dbDeleteFrom (dbDeleteFrom db vertex1 vertex2) vertex2 vertex1

/-- `DbQuery(vertex1, vertex2)`. -/
def dbQuery (db : RocksDb) (vertex1 vertex2 : Nat) : Bool :=
  BinarySearch.binarySearch (db.get vertex1 []).2 vertex2

/-! ## Section 2: Runs -/

/-- An edge set, as a relation. -/
abbrev Edges := Nat → Nat → Prop

/-- The edge set with `uv`. -/
def Edges.add (edges : Edges) (u v : Nat) : Edges :=
  fun x y => edges x y ∨ (x = u ∧ y = v) ∨ (x = v ∧ y = u)

/-- The edge set without `uv`. -/
def Edges.remove (edges : Edges) (u v : Nat) : Edges :=
  fun x y => edges x y ∧ ¬ ((x = u ∧ y = v) ∨ (x = v ∧ y = u))

/-- The database, and the edges that it should hold. -/
structure State where
  db : RocksDb
  edges : Edges

/-- The calls that change the graph. -/
inductive Update where
  | insert (u v : Nat)
  | delete (u v : Nat)

/-- A call with `uint32_t` ids: an insertion of an absent pair or a deletion of a
    present one. -/
def Step (s : State) : Update → State → Prop
  | .insert u v, s' => u < 2 ^ 32 ∧ v < 2 ^ 32 ∧ u ≠ v ∧ ¬ s.edges u v ∧
      s' = ⟨dbInsert s.db u v, s.edges.add u v⟩
  | .delete u v, s' => u < 2 ^ 32 ∧ v < 2 ^ 32 ∧ u ≠ v ∧ s.edges u v ∧
      s' = ⟨dbDelete s.db u v, s.edges.remove u v⟩

/-- A store whose lists are sorted, nonempty and symmetric, with its edges. -/
structure Initial (s : State) : Prop where
  sorted : ∀ x, (s.db.list x).Pairwise (· ≤ ·)
  nonempty : ∀ x, s.db.lookup x ≠ none → s.db.list x ≠ []
  symm : ∀ x y, y ∈ s.db.list x → x ∈ s.db.list y
  edges_iff : ∀ x y, x ≠ y → (s.edges x y ↔ y ∈ s.db.list x)

/-- The updates that the code carries out. An inserted id is the largest of both
    lists; a missing second list is filled from an empty buffer. A deleted id occurs
    once in both lists and is not alone there. -/
def Carried (s : State) : Update → Prop
  | .insert u v => (∀ w ∈ s.db.list u, w ≤ v) ∧
      if s.db.lookup v = none then s.db.list u = [] ∧ v ≤ u else ∀ w ∈ s.db.list v, w ≤ u
  | .delete u v => (v ∉ (s.db.list u).erase v ∧ (s.db.list u).erase v ≠ []) ∧
      (u ∉ (s.db.list v).erase u ∧ (s.db.list v).erase u ≠ [])

/-- `DbQuery` answers from the edge set, in both directions. -/
def QueriesAgree (s : State) : Prop :=
  ∀ x y, x ≠ y → (dbQuery s.db x y = true ↔ s.edges x y) ∧ (dbQuery s.db y x = true ↔ s.edges x y)

/-! ## Section 3: One record -/

section

variable (db : RocksDb) {u v x : Nat}

theorem dbInsert_eq (u v : Nat) :
    dbInsert db u v = (db.put u (db.list u ++ [v])).put v
      (((db.put u (db.list u ++ [v])).get v (db.list u ++ [v])).2 ++ [u]) := rfl

theorem dbDeleteFrom_eq (u v : Nat) :
    dbDeleteFrom db u v =
      if v ∈ db.list u then db.put u ((db.list u).erase v) else db := rfl

theorem dbQuery_eq (x y : Nat) :
    dbQuery db x y = BinarySearch.binarySearch (db.list x) y := rfl

/-- The second list is appended to what the buffer holds when it is read. -/
theorem list_dbInsert_right (hu : u < 2 ^ 32) (hv : v < 2 ^ 32) (huv : u ≠ v) :
    (dbInsert db u v).list v =
      (if db.lookup v = none then db.list u ++ [v] else db.list v) ++ [u] := by
  have hget : ((db.put u (db.list u ++ [v])).get v (db.list u ++ [v])).2 =
      if db.lookup v = none then db.list u ++ [v] else db.list v := by
    split
    next hnone => exact get_of_lookup_none _ (by rw [lookup_put_ne db huv.symm, hnone])
    next hsome =>
      rw [get_of_lookup_ne_none _ (by rw [lookup_put_ne db huv.symm]; exact hsome),
        list_put_ne db huv.symm]
  rw [dbInsert_eq, hget, list_put_self _ (by simp)]
  intro w hw
  have hlu := db.list_lt (x := u)
  have hlv := db.list_lt (x := v)
  split at hw <;> simp only [List.mem_append, List.mem_singleton] at hw
  · rcases hw with (hw | rfl) | rfl
    · exact hlu w hw
    · exact hv
    · exact hu
  · rcases hw with hw | rfl
    · exact hlv w hw
    · exact hu

theorem list_dbInsert_left (hv : v < 2 ^ 32) (huv : u ≠ v) :
    (dbInsert db u v).list u = db.list u ++ [v] := by
  rw [dbInsert_eq, list_put_ne _ huv, list_put_self _ (by simp)]
  intro w hw
  rcases List.mem_append.mp hw with hw | hw
  · exact db.list_lt w hw
  · rwa [List.mem_singleton.mp hw]

theorem list_dbInsert_ne (hxu : x ≠ u) (hxv : x ≠ v) : (dbInsert db u v).list x = db.list x := by
  rw [dbInsert_eq, list_put_ne _ hxv, list_put_ne _ hxu]

theorem list_dbDeleteFrom_self (hne : (db.list u).erase v ≠ []) :
    (dbDeleteFrom db u v).list u = (db.list u).erase v := by
  rw [dbDeleteFrom_eq]
  split
  next =>
    apply list_put_self db hne
    intro w hw
    exact db.list_lt w (List.mem_of_mem_erase hw)
  next hmem => rw [List.erase_of_not_mem hmem]

theorem list_dbDeleteFrom_ne (hx : x ≠ u) : (dbDeleteFrom db u v).list x = db.list x := by
  rw [dbDeleteFrom_eq]
  split
  · exact list_put_ne db hx
  · rfl

end

/-! ## Section 4: The invariant of a run -/

/-- The lists are sorted and say, of two vertices, which edges there are. A list may
    hold its own vertex: nothing asks for that. -/
structure Holds (s : State) : Prop where
  sorted : ∀ x, (s.db.list x).Pairwise (· ≤ ·)
  mem_iff : ∀ x y, x ≠ y → (y ∈ s.db.list x ↔ s.edges x y)
  symm : ∀ x y, s.edges x y → s.edges y x

theorem queriesAgree_of_holds {s : State} (h : Holds s) : QueriesAgree s := by
  intro x y hxy
  rw [dbQuery_eq, dbQuery_eq, BinarySearch.binarySearch_iff (h.sorted x) y,
    BinarySearch.binarySearch_iff (h.sorted y) x, h.mem_iff x y hxy, h.mem_iff y x hxy.symm]
  exact ⟨Iff.rfl, h.symm y x, h.symm x y⟩

theorem holds_of_initial {s : State} (h : Initial s) : Holds s := by
  refine ⟨h.sorted, fun x y hxy => (h.edges_iff x y hxy).symm, ?_⟩
  intro x y hedge
  by_cases hxy : x = y
  · rwa [← hxy] at hedge ⊢
  · rw [h.edges_iff x y hxy] at hedge
    exact (h.edges_iff y x (Ne.symm hxy)).mpr (h.symm x y hedge)

theorem pairwise_concat {l : List Nat} {a : Nat} (hl : l.Pairwise (· ≤ ·)) (ha : ∀ w ∈ l, w ≤ a) :
    (l ++ [a]).Pairwise (· ≤ ·) := by
  rw [List.pairwise_append]
  refine ⟨hl, List.pairwise_singleton _ _, ?_⟩
  intro w hw b hb
  rw [List.mem_singleton.mp hb]
  exact ha w hw

theorem holds_insert {s : State} {u v : Nat} (h : Holds s) (hu : u < 2 ^ 32) (hv : v < 2 ^ 32)
    (huv : u ≠ v) (hcarried : Carried s (.insert u v)) :
    Holds ⟨dbInsert s.db u v, s.edges.add u v⟩ := by
  obtain ⟨hleft, hright⟩ := hcarried
  have hlist_u := list_dbInsert_left s.db hv huv
  have hlist_v := list_dbInsert_right s.db hu hv huv
  constructor
  · intro x
    by_cases hxu : x = u
    · subst hxu
      rw [hlist_u]
      exact pairwise_concat (h.sorted x) hleft
    · by_cases hxv : x = v
      · subst hxv
        rw [hlist_v]
        split at hright
        next hnone =>
          -- two new lists: the second one starts with its own vertex
          obtain ⟨hempty, hle⟩ := hright
          rw [if_pos hnone, hempty]
          simp [hle]
        next hsome =>
          rw [if_neg hsome]
          exact pairwise_concat (h.sorted x) hright
      · rw [list_dbInsert_ne s.db hxu hxv]
        exact h.sorted x
  · intro x y hxy
    have hold := h.mem_iff x y hxy
    by_cases hxu : x = u
    · subst hxu
      rw [hlist_u, List.mem_append, List.mem_singleton, hold]
      simp [Edges.add, huv]
    · by_cases hxv : x = v
      · subst hxv
        rw [hlist_v, List.mem_append, List.mem_singleton]
        split at hright
        next hnone =>
          rw [list_of_lookup_none s.db hnone] at hold
          rw [if_pos hnone, hright.1]
          have hno : ¬ s.edges x y := fun hedge => by simpa using hold.mpr hedge
          simp [Edges.add, hno, hxu, Ne.symm hxy]
        next hsome =>
          rw [if_neg hsome, hold]
          simp [Edges.add, hxu]
      · rw [list_dbInsert_ne s.db hxu hxv, hold]
        simp [Edges.add, hxu, hxv]
  · rintro x y (hedge | ⟨rfl, rfl⟩ | ⟨rfl, rfl⟩)
    · exact Or.inl (h.symm x y hedge)
    · exact Or.inr (Or.inr ⟨rfl, rfl⟩)
    · exact Or.inr (Or.inl ⟨rfl, rfl⟩)

/-- Erasing the only occurrence of an id. -/
theorem mem_erase_iff {l : List Nat} {a b : Nat} (hgone : a ∉ l.erase a) :
    b ∈ l.erase a ↔ b ∈ l ∧ b ≠ a := by
  constructor
  · intro hb
    refine ⟨List.mem_of_mem_erase hb, ?_⟩
    rintro rfl
    exact hgone hb
  · rintro ⟨hb, hne⟩
    exact (List.mem_erase_of_ne hne).mpr hb

theorem holds_delete {s : State} {u v : Nat} (h : Holds s) (huv : u ≠ v)
    (hcarried : Carried s (.delete u v)) :
    Holds ⟨dbDelete s.db u v, s.edges.remove u v⟩ := by
  obtain ⟨⟨hgone_u, hne_u⟩, ⟨hgone_v, hne_v⟩⟩ := hcarried
  have hlist_u : (dbDelete s.db u v).list u = (s.db.list u).erase v := by
    rw [dbDelete, list_dbDeleteFrom_ne _ huv, list_dbDeleteFrom_self _ hne_u]
  have hlist_v : (dbDelete s.db u v).list v = (s.db.list v).erase u := by
    have hsame : (dbDeleteFrom s.db u v).list v = s.db.list v :=
      list_dbDeleteFrom_ne _ huv.symm
    rw [dbDelete, list_dbDeleteFrom_self _ (by rw [hsame]; exact hne_v), hsame]
  have hlist_ne : ∀ x, x ≠ u → x ≠ v → (dbDelete s.db u v).list x = s.db.list x := by
    intro x hxu hxv
    rw [dbDelete, list_dbDeleteFrom_ne _ hxv, list_dbDeleteFrom_ne _ hxu]
  -- the lists stay sorted, hold the edges that are left, and stay symmetric
  constructor
  · intro x
    by_cases hxu : x = u
    · subst hxu
      rw [hlist_u]
      exact (h.sorted x).sublist List.erase_sublist
    · by_cases hxv : x = v
      · subst hxv
        rw [hlist_v]
        exact (h.sorted x).sublist List.erase_sublist
      · rw [hlist_ne x hxu hxv]
        exact h.sorted x
  · intro x y hxy
    have hold := h.mem_iff x y hxy
    by_cases hxu : x = u
    · subst hxu
      rw [hlist_u, mem_erase_iff hgone_u, hold]
      simp [Edges.remove, huv]
    · by_cases hxv : x = v
      · subst hxv
        rw [hlist_v, mem_erase_iff hgone_v, hold]
        simp [Edges.remove, hxu]
      · rw [hlist_ne x hxu hxv, hold]
        simp [Edges.remove, hxu, hxv]
  · rintro x y ⟨hedge, hne⟩
    refine ⟨h.symm x y hedge, ?_⟩
    rintro (⟨rfl, rfl⟩ | ⟨rfl, rfl⟩)
    · exact hne (Or.inr ⟨rfl, rfl⟩)
    · exact hne (Or.inl ⟨rfl, rfl⟩)

/-- In a run whose updates are all carried out the queries agree with the edges after
    every call. -/
theorem queries_agree {s : State} (hrun : Run.Reachable Initial Step Carried s) :
    QueriesAgree s := by
  apply queriesAgree_of_holds
  refine Run.Reachable.invariant (P := Holds) (fun s => holds_of_initial) ?_ hrun
  · intro s i s' hholds hcarried hstep
    cases i with
    | insert u v =>
      obtain ⟨hu, hv, huv, -, rfl⟩ := hstep
      exact holds_insert hholds hu hv huv hcarried
    | delete u v =>
      obtain ⟨-, -, huv, -, rfl⟩ := hstep
      exact holds_delete hholds huv hcarried

/-- The edges 4-2, 5-3 and 4-5 inserted into an empty database, and 5-4 deleted. -/
theorem queries_agree_fourCalls :
    QueriesAgree ⟨dbDelete (dbInsert (dbInsert (dbInsert ∅ 4 2) 5 3) 4 5) 5 4,
      (((Edges.add (fun _ _ => False) 4 2).add 5 3).add 4 5).remove 5 4⟩ := by
  have hlist : ∀ x, RocksDb.list ∅ x = [] := fun x => rfl
  have hstart : Run.Reachable Initial Step Carried ⟨∅, fun _ _ => False⟩ :=
    .start ⟨by simp [hlist], by simp, by simp [hlist], by simp [hlist]⟩
  have hfirst : Run.Reachable Initial Step Carried
      ⟨dbInsert ∅ 4 2, Edges.add (fun _ _ => False) 4 2⟩ :=
    .next (i := .insert 4 2) hstart ⟨by decide, by decide⟩
      ⟨by decide, by decide, by decide, by simp, rfl⟩
  -- 3 has no record yet, and 5 has no neighbours
  have hsecond : Run.Reachable Initial Step Carried
      ⟨dbInsert (dbInsert ∅ 4 2) 5 3, (Edges.add (fun _ _ => False) 4 2).add 5 3⟩ :=
    .next (i := .insert 5 3) hfirst ⟨by decide, by decide⟩
      ⟨by decide, by decide, by decide, by simp [Edges.add], rfl⟩
  have hthird : Run.Reachable Initial Step Carried
      ⟨dbInsert (dbInsert (dbInsert ∅ 4 2) 5 3) 4 5,
        ((Edges.add (fun _ _ => False) 4 2).add 5 3).add 4 5⟩ :=
    .next (i := .insert 4 5) hsecond ⟨by decide, by decide⟩
      ⟨by decide, by decide, by decide, by simp [Edges.add], rfl⟩
  exact queries_agree (.next (i := .delete 5 4) hthird ⟨⟨by decide, by decide⟩, by decide, by decide⟩
    ⟨by decide, by decide, by decide, by simp [Edges.add], rfl⟩)

/-- The edge between two vertices without other neighbours is still found after its
    deletion: `Put` ignores the empty lists. -/
theorem delete_only_edge_ignored :
    ∃ s, Run.Reachable Initial Step (fun _ _ => True) s ∧ ¬ s.edges 1 2 ∧
      dbQuery s.db 1 2 = true ∧ ¬ QueriesAgree s := by
  have hmem : ∀ x y, y ∈ pairStore.list x ↔ (x = 1 ∧ y = 2) ∨ (x = 2 ∧ y = 1) := by
    intro x y
    rw [list_pairStore]
    split
    · simp_all
    · split <;> simp_all
  have hinit : Initial ⟨pairStore, fun x y => y ∈ pairStore.list x⟩ := by
    refine ⟨?_, ?_, ?_, fun _ _ _ => Iff.rfl⟩
    · intro x
      rw [list_pairStore]
      split
      · simp
      · split <;> simp
    · intro x hx
      by_contra hnil
      apply hx
      rw [list_pairStore] at hnil
      split at hnil
      · cases hnil
      next h₁ =>
        split at hnil
        · cases hnil
        next h₂ => exact lookup_pairStore_of_ne h₁ h₂
    · intro x y
      rw [hmem, hmem]
      omega
  have hquery : dbQuery (dbDelete pairStore 1 2) 1 2 = true := by decide +kernel
  have hgone : ¬ Edges.remove (fun x y => y ∈ pairStore.list x) 1 2 1 2 := by
    simp [Edges.remove]
  refine ⟨⟨dbDelete pairStore 1 2, Edges.remove (fun x y => y ∈ pairStore.list x) 1 2⟩, ?_, hgone,
    hquery, fun hagree => hgone ((hagree 1 2 (by decide)).1.mp hquery)⟩
  refine .next (i := .delete 1 2) (.start hinit) trivial ?_
  exact ⟨by decide, by decide, by decide, (hmem 1 2).mpr (Or.inl ⟨rfl, rfl⟩), rfl⟩

end GraphStore

end Vend
