import Vend.Dbengine.RocksDb
import Mathlib.Data.List.GetD

/-! # Drawing the pairs

    The `CreateList` functions of `insert_execution.h`, `delete_execution.h`,
    `random_query_execution.h` and `query_execution.h`. They draw numbers in a `while` loop
    until the list is long enough. The first three draw two vertices in a round. The one of
    the walk goes through all vertices in a shuffled order and draws two neighbours of each,
    so it depends on the graph whether a round adds a pair.

    What the random engine gives is a parameter, and so is the number of rounds that are
    looked at: `none` says that these were not enough.

    `walk_ends_iff` says of which graphs the walk can come to its end: some vertex must have
    two different neighbours.
-/

namespace Vend

namespace CreateList

/-! ## Section 1: Model -/

/-- What the random engine gives: the shuffled `random_array`, the values of `u(e)`, and how
    many rounds of the loop are looked at. -/
structure Chance where
  order : List Nat
  draws : Nat → Nat
  rounds : Nat

/-- How many numbers have been drawn, and `*vertex_list`. -/
structure Drawing where
  drawn : Nat
  vertexList : List (Nat × Nat)

/-- `while (vertex_list->size() < vertex_size)`. -/
def loop (listSize : Nat) (round : Drawing → Drawing) : Nat → Drawing → Option Drawing
  | 0, d => if d.vertexList.length < listSize then none else some d
  | rounds + 1, d =>
    if d.vertexList.length < listSize then loop listSize round rounds (round d) else some d

/-- A round that draws two vertices. Equal ones are dropped. -/
def drawPair (pick draws : Nat → Nat) (d : Drawing) : Drawing :=
  let vertex1 := pick (draws d.drawn)
  let vertex2 := pick (draws (d.drawn + 1))
  ⟨d.drawn + 2, if vertex1 = vertex2 then d.vertexList else d.vertexList ++ [(vertex1, vertex2)]⟩

/-- `CreateList` of the insertions, deletions and random queries. -/
def random (pick : Nat → Nat) (listSize : Nat) (chance : Chance) : Option (List (Nat × Nat)) :=
  (loop listSize (drawPair pick chance.draws) chance.rounds ⟨0, []⟩).map Drawing.vertexList

/-- The body of the inner loop of the walk, which has returned once the list is full. -/
def visit (listSize : Nat) (getNeighbors : Nat → List Nat) (draws : Nat → Nat) (d : Drawing)
    (vertex : Nat) : Drawing :=
  if listSize ≤ d.vertexList.length then d
  else
    let neighbors := getNeighbors vertex
    let neighborSize := neighbors.length % 2 ^ 32
    -- `int neighbor_size` is at most 1, or negative
    if neighborSize ≤ 1 ∨ 2 ^ 31 ≤ neighborSize then d
    else
      let v1 := neighbors.getD (draws d.drawn % neighborSize) 0
      let v2 := neighbors.getD (draws (d.drawn + 1) % neighborSize) 0
      ⟨d.drawn + 2, if v1 = v2 then d.vertexList else d.vertexList ++ [(v1, v2)]⟩

/-- `CreateList` of the walk. `int i` of the loop that fills `random_array` reaches
    `VERTEX_SIZE + 1`. -/
def walk (vertexSize : Nat) (getNeighbors : Nat → List Nat) (listSize : Nat) (chance : Chance) :
    Option (List (Nat × Nat)) := do
  guard (vertexSize + 1 < 2 ^ 31)
  let d ← loop listSize (chance.order.foldl (visit listSize getNeighbors chance.draws))
    chance.rounds ⟨0, []⟩
  return d.vertexList

/-! ## Section 2: What is drawn -/

section

variable {listSize : Nat} {round : Drawing → Drawing} {P : Drawing → Prop}

/-- What the rounds keep holds of the result, which is long enough. -/
theorem loop_rule (hround : ∀ d, d.vertexList.length < listSize → P d → P (round d))
    {rounds : Nat} {d d' : Drawing} (hd : P d) (hloop : loop listSize round rounds d = some d') :
    P d' ∧ listSize ≤ d'.vertexList.length := by
  induction rounds generalizing d with
  | zero =>
    rw [loop] at hloop
    split at hloop
    next => cases hloop
    next hfull =>
      cases hloop
      exact ⟨hd, Nat.le_of_not_lt hfull⟩
  | succ rounds ih =>
    rw [loop] at hloop
    split at hloop
    next hshort => exact ih (hround d hshort hd) hloop
    next hfull =>
      cases hloop
      exact ⟨hd, Nat.le_of_not_lt hfull⟩

/-- The loop ends if every round adds a pair. -/
theorem exists_loop (hround : ∀ d, d.vertexList.length < listSize → P d →
      P (round d) ∧ d.vertexList.length < (round d).vertexList.length)
    {rounds : Nat} {d : Drawing} (hd : P d) (henough : listSize ≤ d.vertexList.length + rounds) :
    ∃ d', loop listSize round rounds d = some d' := by
  induction rounds generalizing d with
  | zero => exact ⟨d, if_neg (Nat.not_lt.mpr henough)⟩
  | succ rounds ih =>
    by_cases hshort : d.vertexList.length < listSize
    · obtain ⟨hnext, hadds⟩ := hround d hshort hd
      obtain ⟨d', hloop⟩ := ih hnext (by omega)
      exact ⟨d', by rw [loop, if_pos hshort, hloop]⟩
    · exact ⟨d, by rw [loop, if_neg hshort]⟩

/-- The loop does not end if no round adds a pair. -/
theorem loop_eq_none (hround : ∀ d, d.vertexList.length < listSize →
      (round d).vertexList.length ≤ d.vertexList.length)
    (rounds : Nat) {d : Drawing} (hshort : d.vertexList.length < listSize) :
    loop listSize round rounds d = none := by
  induction rounds generalizing d with
  | zero => rw [loop, if_pos hshort]
  | succ rounds ih =>
    rw [loop, if_pos hshort]
    exact ih (Nat.lt_of_le_of_lt (hround d hshort) hshort)

/-- Pairs of different ids, each of them satisfying `Q`, and no more than there should be. -/
structure Good (Q : Nat → Prop) (listSize : Nat) (vertexList : List (Nat × Nat)) : Prop where
  length : vertexList.length ≤ listSize
  mem : ∀ pair ∈ vertexList, Q pair.1 ∧ Q pair.2
  ne : ∀ pair ∈ vertexList, pair.1 ≠ pair.2

variable {Q : Nat → Prop} {vertexList : List (Nat × Nat)}

theorem good_nil : Good Q listSize [] :=
  ⟨Nat.zero_le _, fun _ h => absurd h (by simp), fun _ h => absurd h (by simp)⟩

/-- Two ids have been drawn. -/
theorem Good.draw (hgood : Good Q listSize vertexList) (hshort : vertexList.length < listSize)
    {v1 v2 : Nat} (h1 : Q v1) (h2 : Q v2) :
    Good Q listSize (if v1 = v2 then vertexList else vertexList ++ [(v1, v2)]) := by
  split
  next => exact hgood
  next hne =>
    refine ⟨?_, ?_, ?_⟩
    · rw [List.length_append, List.length_singleton]
      exact hshort
    · intro pair hpair
      rcases List.mem_append.mp hpair with hpair | hpair
      · exact hgood.mem pair hpair
      · rw [List.mem_singleton.mp hpair]
        exact ⟨h1, h2⟩
    · intro pair hpair
      rcases List.mem_append.mp hpair with hpair | hpair
      · exact hgood.ne pair hpair
      · rw [List.mem_singleton.mp hpair]
        exact hne

/-- The vertices that are drawn in pairs. -/
theorem random_good {pick : Nat → Nat} {chance : Chance} (hpick : ∀ n, Q (pick (chance.draws n)))
    (h : random pick listSize chance = some vertexList) :
    Good Q listSize vertexList ∧ vertexList.length = listSize := by
  obtain ⟨d, hloop, rfl⟩ := Option.map_eq_some_iff.mp h
  have hrule := @loop_rule listSize (drawPair pick chance.draws)
    (fun d => Good Q listSize d.vertexList)
    (fun d hshort hgood => hgood.draw hshort (hpick _) (hpick _)) _ _ _ good_nil hloop
  exact ⟨hrule.1, Nat.le_antisymm hrule.1.length hrule.2⟩

end

/-! ## Section 3: The walk -/

section

variable {listSize : Nat} {getNeighbors : Nat → List Nat} {draws : Nat → Nat} {d : Drawing}
variable {vertex : Nat}

/-- A position that is drawn is one of the list. -/
theorem getD_mem {neighbors : List Nat} (hsize : ¬ neighbors.length % 2 ^ 32 ≤ 1) (n : Nat) :
    neighbors.getD (n % (neighbors.length % 2 ^ 32)) 0 ∈ neighbors := by
  have hmod : n % (neighbors.length % 2 ^ 32) < neighbors.length % 2 ^ 32 :=
    Nat.mod_lt n (by omega)
  have hle : neighbors.length % 2 ^ 32 ≤ neighbors.length := Nat.mod_le _ _
  rw [List.getD_eq_getElem _ _ (Nat.lt_of_lt_of_le hmod hle)]
  exact List.getElem_mem _

/-- A vertex is passed over, or two of its neighbours are drawn. -/
theorem visit_cases (d : Drawing) (vertex : Nat) :
    visit listSize getNeighbors draws d vertex = d ∨
      (d.vertexList.length < listSize ∧ ∃ v1 ∈ getNeighbors vertex, ∃ v2 ∈ getNeighbors vertex,
        visit listSize getNeighbors draws d vertex = ⟨d.drawn + 2,
          if v1 = v2 then d.vertexList else d.vertexList ++ [(v1, v2)]⟩) := by
  unfold visit
  by_cases hfull : listSize ≤ d.vertexList.length
  · exact Or.inl (if_pos hfull)
  · by_cases hskip : (getNeighbors vertex).length % 2 ^ 32 ≤ 1 ∨
        2 ^ 31 ≤ (getNeighbors vertex).length % 2 ^ 32
    · exact Or.inl ((if_neg hfull).trans (if_pos hskip))
    · have hsize := (not_or.mp hskip).1
      exact Or.inr ⟨Nat.lt_of_not_le hfull, _, getD_mem hsize _, _, getD_mem hsize _,
        (if_neg hfull).trans (if_neg hskip)⟩

theorem visit_good {Q : Nat → Prop} (hQ : ∀ w ∈ getNeighbors vertex, Q w)
    (hgood : Good Q listSize d.vertexList) :
    Good Q listSize (visit listSize getNeighbors draws d vertex).vertexList := by
  rcases visit_cases d vertex with heq | ⟨hshort, v1, h1, v2, h2, heq⟩
  · rwa [heq]
  · rw [heq]
    exact hgood.draw hshort (hQ v1 h1) (hQ v2 h2)

/-- An even number of draws has been made, and no pair is taken back. -/
theorem visit_grows (d : Drawing) (vertex : Nat) :
    (visit listSize getNeighbors draws d vertex).drawn % 2 = d.drawn % 2 ∧
      d.vertexList.length ≤ (visit listSize getNeighbors draws d vertex).vertexList.length := by
  rcases visit_cases d vertex with heq | ⟨-, v1, -, v2, -, heq⟩
  · rw [heq]
    exact ⟨rfl, Nat.le_refl _⟩
  · rw [heq]
    refine ⟨Nat.add_mod_right d.drawn 2, ?_⟩
    dsimp only
    split
    · exact Nat.le_refl _
    · rw [List.length_append]
      exact Nat.le_add_right _ _

theorem foldl_visit_grows (order : List Nat) (d : Drawing) :
    (order.foldl (visit listSize getNeighbors draws) d).drawn % 2 = d.drawn % 2 ∧
      d.vertexList.length ≤
        (order.foldl (visit listSize getNeighbors draws) d).vertexList.length := by
  induction order generalizing d with
  | nil => exact ⟨rfl, Nat.le_refl _⟩
  | cons vertex order ih =>
    obtain ⟨hparity, hlen⟩ := @visit_grows listSize getNeighbors draws d vertex
    obtain ⟨hparity', hlen'⟩ := ih (visit listSize getNeighbors draws d vertex)
    exact ⟨hparity'.trans hparity, Nat.le_trans hlen hlen'⟩

theorem foldl_visit_good {Q : Nat → Prop} (order : List Nat)
    (hQ : ∀ vertex, ∀ w ∈ getNeighbors vertex, Q w) (hgood : Good Q listSize d.vertexList) :
    Good Q listSize (order.foldl (visit listSize getNeighbors draws) d).vertexList := by
  induction order generalizing d with
  | nil => exact hgood
  | cons vertex order ih => exact ih (visit_good (hQ vertex) hgood)

/-- The walk draws pairs of neighbours. -/
theorem walk_good {Q : Nat → Prop} {vertexSize : Nat} {chance : Chance}
    {vertexList : List (Nat × Nat)} (hQ : ∀ vertex, ∀ w ∈ getNeighbors vertex, Q w)
    (h : walk vertexSize getNeighbors listSize chance = some vertexList) :
    Good Q listSize vertexList ∧ vertexList.length = listSize := by
  obtain ⟨-, -, hrest⟩ := Option.bind_eq_some_iff.mp h
  obtain ⟨d, hloop, hdone⟩ := Option.bind_eq_some_iff.mp hrest
  cases hdone
  have hrule := @loop_rule listSize (chance.order.foldl (visit listSize getNeighbors chance.draws))
    (fun d => Good Q listSize d.vertexList)
    (fun d _ hgood => foldl_visit_good chance.order hQ hgood) _ _ _ good_nil hloop
  exact ⟨hrule.1, Nat.le_antisymm hrule.1.length hrule.2⟩

/-! ## Section 4: When the walk ends -/

/-- The draws go back and forth between two positions. -/
def alternate (i j n : Nat) : Nat := if n % 2 = 0 then i else j

/-- Nothing else is drawn. -/
theorem alternate_eq (i j n : Nat) : alternate i j n = i ∨ alternate i j n = j := by
  unfold alternate
  split
  · exact Or.inl rfl
  · exact Or.inr rfl

theorem alternate_ne {pick : Nat → Nat} {i j : Nat} (hne : pick i ≠ pick j) (n : Nat)
    (heven : n % 2 = 0) : pick (alternate i j n) ≠ pick (alternate i j (n + 1)) := by
  have hodd : ¬ (n + 1) % 2 = 0 := by omega
  rwa [alternate, alternate, if_pos heven, if_neg hodd]

/-- Two positions with different neighbours give a pair. -/
theorem visit_alternate {i j : Nat} (hshort : d.vertexList.length < listSize)
    (hparity : d.drawn % 2 = 0) (hi : i < (getNeighbors vertex).length)
    (hj : j < (getNeighbors vertex).length) (hlen : (getNeighbors vertex).length < 2 ^ 31)
    (hne : (getNeighbors vertex).getD i 0 ≠ (getNeighbors vertex).getD j 0) :
    d.vertexList.length <
      (visit listSize getNeighbors (alternate i j) d vertex).vertexList.length := by
  have hij : i ≠ j := fun heq => hne (by rw [heq])
  have hmod : (getNeighbors vertex).length % 2 ^ 32 = (getNeighbors vertex).length :=
    Nat.mod_eq_of_lt (by omega)
  have heven : alternate i j d.drawn = i := if_pos hparity
  have hodd : alternate i j (d.drawn + 1) = j := if_neg (by omega)
  have hkeep : ¬ ((getNeighbors vertex).length ≤ 1 ∨ 2 ^ 31 ≤ (getNeighbors vertex).length) := by
    omega
  simp only [visit, if_neg (Nat.not_le.mpr hshort), hmod, if_neg hkeep, heven, hodd,
    Nat.mod_eq_of_lt hi, Nat.mod_eq_of_lt hj, if_neg hne, List.length_append,
    List.length_singleton]
  exact Nat.lt_succ_self _

/-- No pair without two different neighbours. -/
theorem visit_of_alike (halike : ∀ a ∈ getNeighbors vertex, ∀ b ∈ getNeighbors vertex, a = b)
    (d : Drawing) : (visit listSize getNeighbors draws d vertex).vertexList = d.vertexList := by
  rcases visit_cases d vertex with heq | ⟨-, v1, h1, v2, h2, heq⟩
  · rw [heq]
  · rw [heq]
    exact if_pos (halike v1 h1 v2 h2)

theorem foldl_visit_of_alike {order : List Nat}
    (halike : ∀ vertex ∈ order, ∀ a ∈ getNeighbors vertex, ∀ b ∈ getNeighbors vertex, a = b)
    (d : Drawing) :
    (order.foldl (visit listSize getNeighbors draws) d).vertexList = d.vertexList := by
  induction order generalizing d with
  | nil => rfl
  | cons vertex order ih =>
    rw [List.foldl_cons, ih fun v hv => halike v (List.mem_cons_of_mem _ hv),
      visit_of_alike (halike vertex (by simp))]

/-- A walk over these vertices comes to its end for some draws, after some rounds, if and only
    if one of them has two different neighbours. -/
theorem walk_ends_iff {vertexSize : Nat} (hsize : vertexSize + 1 < 2 ^ 31) (hpos : 0 < listSize)
    (hlen : ∀ vertex, (getNeighbors vertex).length < 2 ^ 31) (order : List Nat) :
    (∃ draws rounds, walk vertexSize getNeighbors listSize ⟨order, draws, rounds⟩ ≠ none) ↔
      ∃ vertex ∈ order, ∃ a ∈ getNeighbors vertex, ∃ b ∈ getNeighbors vertex, a ≠ b := by
  constructor
  · rintro ⟨draws, rounds, hends⟩
    by_contra hno
    push Not at hno
    have hround : ∀ d : Drawing, d.vertexList.length < listSize →
        (order.foldl (visit listSize getNeighbors draws) d).vertexList.length ≤
          d.vertexList.length :=
      fun d _ => Nat.le_of_eq (congrArg List.length (foldl_visit_of_alike hno d))
    apply hends
    rw [walk, guard, if_pos hsize, @loop_eq_none _ _ hround rounds ⟨0, []⟩ hpos]
    rfl
  · rintro ⟨vertex, hvertex, a, ha, b, hb, hne⟩
    obtain ⟨i, hi, rfl⟩ := List.mem_iff_getElem.mp ha
    obtain ⟨j, hj, rfl⟩ := List.mem_iff_getElem.mp hb
    rw [← List.getD_eq_getElem _ 0 hi, ← List.getD_eq_getElem _ 0 hj] at hne
    obtain ⟨before, behind, horder⟩ := List.append_of_mem hvertex
    -- whatever the vertices before it have done, this one adds a pair
    have hround : ∀ d : Drawing, d.vertexList.length < listSize → d.drawn % 2 = 0 →
        (order.foldl (visit listSize getNeighbors (alternate i j)) d).drawn % 2 = 0 ∧
          d.vertexList.length <
            (order.foldl (visit listSize getNeighbors (alternate i j)) d).vertexList.length := by
      intro d hshort hparity
      refine ⟨(foldl_visit_grows order d).1.trans hparity, ?_⟩
      rw [horder, List.foldl_append, List.foldl_cons]
      generalize hmiddle : before.foldl (visit listSize getNeighbors (alternate i j)) d = d₁
      obtain ⟨hparity₁, hlen₁⟩ :=
        @foldl_visit_grows listSize getNeighbors (alternate i j) before d
      rw [hmiddle] at hparity₁ hlen₁
      refine Nat.lt_of_lt_of_le ?_ (foldl_visit_grows behind _).2
      by_cases hshort₁ : d₁.vertexList.length < listSize
      · exact Nat.lt_of_le_of_lt hlen₁
          (visit_alternate hshort₁ (hparity₁.trans hparity) hi hj (hlen vertex) hne)
      · have hgrows := (@visit_grows listSize getNeighbors (alternate i j) d₁ vertex).2
        omega
    obtain ⟨d', hloop⟩ := exists_loop hround (Nat.zero_mod 2 : (⟨0, []⟩ : Drawing).drawn % 2 = 0)
      (by simp : listSize ≤ (⟨0, []⟩ : Drawing).vertexList.length + listSize)
    refine ⟨alternate i j, listSize, ?_⟩
    rw [walk, guard, if_pos hsize, Option.bind_eq_bind, Option.pure_def, Option.bind_some, hloop]
    simp

end

/-- Two vertices in a round, and different ones, make the loop end. -/
theorem exists_random {pick : Nat → Nat} {listSize : Nat} {chance : Chance}
    (hrounds : listSize ≤ chance.rounds)
    (hne : ∀ n, n % 2 = 0 → pick (chance.draws n) ≠ pick (chance.draws (n + 1))) :
    random pick listSize chance ≠ none := by
  have hround : ∀ d : Drawing, d.vertexList.length < listSize → d.drawn % 2 = 0 →
      (drawPair pick chance.draws d).drawn % 2 = 0 ∧
        d.vertexList.length < (drawPair pick chance.draws d).vertexList.length := by
    intro d _ hparity
    refine ⟨(Nat.add_mod_right d.drawn 2).trans hparity, ?_⟩
    simp only [drawPair, if_neg (hne d.drawn hparity), List.length_append, List.length_singleton]
    exact Nat.lt_succ_self _
  obtain ⟨d', hloop⟩ := exists_loop hround (Nat.zero_mod 2 : (⟨0, []⟩ : Drawing).drawn % 2 = 0)
    (by simpa using hrounds : listSize ≤ (⟨0, []⟩ : Drawing).vertexList.length + chance.rounds)
  rw [random, hloop]
  simp

end CreateList

end Vend
