import Vend.Vend.Covering
import Mathlib.Data.List.Perm.Basic

/-! # Worklist peeling

    The build that `DeltaSIMDVEND::BuildEncoding`, `RangeCompVend::BuildEncoding`
    and `DirSIMDVend::BuildEncoding` share. A vertex whose lists fit into a record
    is encoded and taken out of the graph (`filtered`). Its remaining neighbours go
    to a worklist, since their own lists have become shorter. When the worklist is
    empty, the rest is encoded.

    The worklists are unordered sets. A set is modelled as the list of its elements
    in the order of insertion, and the order in which round `n` goes through a set
    is an arbitrary permutation `iterate n` of it. `lists v` are the lists of a
    vertex, as in `Covering`, and `fits` is the test on the lists of a call.

    `peel_spec` says that the loop ends and what holds of its calls. The counters of the
    builds are `int`, so `VERTEX_SIZE + 1` has to be one.
-/

namespace Vend

namespace WorklistPeeling

/-! ## Section 1: Model -/

/-- The local variables of `BuildEncoding`, with the calls made so far. -/
structure Peeling where
  filtered : List Bool
  calls : List Call
  deriving DecidableEq, Repr

/-- `unordered_set::insert` of a range. -/
def insertAll (set : List Nat) (ids : List Nat) : List Nat :=
  ids.foldl (fun set id => if id ∈ set then set else set ++ [id]) set

/-- `filtered[vertex]`. -/
def Peeling.isFiltered (p : Peeling) (vertex : Nat) : Bool := p.filtered.getD vertex false

/-- The lists of a vertex without the neighbours that were taken out. -/
def Peeling.remaining (p : Peeling) (lists : Nat → List (List Nat)) (vertex : Nat) :
    List (List Nat) :=
  (lists vertex).map (unfiltered p.filtered)

/-- Encode a vertex, take it out and put its neighbours on the worklist. -/
def takeOut (vertex : Nat) (neighbors : List (List Nat)) (st : Peeling × List Nat) :
    Peeling × List Nat :=
  (⟨st.1.filtered.set vertex true, st.1.calls ++ [⟨true, vertex, neighbors⟩]⟩,
    insertAll st.2 neighbors.flatten)

/-- The first round: every vertex of `encode_list`, with all its neighbours. -/
def firstRound (vertexSize : Nat) (lists : Nat → List (List Nat))
    (fits : List (List Nat) → Bool) : Peeling × List Nat :=
  let encodeList := (List.range' 1 vertexSize).filter fun id => fits (lists id)
  encodeList.foldl (fun st vertex => takeOut vertex (lists vertex) st)
    (⟨List.replicate (vertexSize + 1) false, []⟩, [])

/-- The body of the loop over `vertices_related`. -/
def visit (lists : Nat → List (List Nat)) (fits : List (List Nat) → Bool)
    (st : Peeling × List Nat) (vertex : Nat) : Peeling × List Nat :=
  if st.1.isFiltered vertex then st
  else
    let neighbors := st.1.remaining lists vertex
    if fits neighbors then takeOut vertex neighbors st else st

/-- The loop `while (!vertices_related.empty())`; `none` when it takes more rounds than
    `fuel`. -/
def relatedLoop (lists : Nat → List (List Nat)) (fits : List (List Nat) → Bool)
    (iterate : Nat → List Nat → List Nat) :
    Nat → Nat → List Nat → Peeling → Option Peeling
  | 0, _, _, _ => none
  | fuel + 1, round, verticesRelated, p =>
    if verticesRelated = [] then some p
    else
      let (p, nextList) := (iterate round verticesRelated).foldl (visit lists fits) (p, [])
      relatedLoop lists fits iterate fuel (round + 1) nextList p

/-- Every order in which the sets may be gone through. -/
def Iterates (iterate : Nat → List Nat → List Nat) : Prop := ∀ n set, (iterate n set).Perm set

/-- The calls of the final loop. -/
def finalCalls (vertexSize : Nat) (lists : Nat → List (List Nat)) (p : Peeling) : List Call :=
  ((List.range' 1 vertexSize).filter fun vertex => !p.isFiltered vertex).map fun vertex =>
    ⟨false, vertex, p.remaining lists vertex⟩

/-- The peeling up to the empty worklist. `int idx` counts the vertices of the first round
    and `int vertex` those of the loop that follows. -/
def peeling (vertexSize : Nat) (lists : Nat → List (List Nat)) (fits : List (List Nat) → Bool)
    (iterate : Nat → List Nat → List Nat) : Option Peeling := do
  guard (vertexSize + 1 < 2 ^ 31)
  let (p, verticesRelated) := firstRound vertexSize lists fits
  relatedLoop lists fits iterate (vertexSize + 2) 0 verticesRelated p

/-- All calls of `EncodeVertex` in the order in which they are made. -/
def peel (vertexSize : Nat) (lists : Nat → List (List Nat)) (fits : List (List Nat) → Bool)
    (iterate : Nat → List Nat → List Nat) : Option (List Call) := do
  let p ← peeling vertexSize lists fits iterate
  return p.calls ++ finalCalls vertexSize lists p

/-! ## Section 2: The worklists -/

theorem mem_insertAll {set ids : List Nat} {x : Nat} :
    x ∈ insertAll set ids ↔ x ∈ set ∨ x ∈ ids := by
  unfold insertAll
  induction ids generalizing set with
  | nil => simp
  | cons id ids ih =>
    rw [List.foldl_cons, ih]
    by_cases hid : id ∈ set
    · rw [if_pos hid, List.mem_cons]
      constructor
      · tauto
      · rintro (h | rfl | h)
        · exact Or.inl h
        · exact Or.inl hid
        · exact Or.inr h
    · rw [if_neg hid, List.mem_append, List.mem_singleton, List.mem_cons]
      tauto

/-- The lists of a graph: neighbours are ids, no vertex is its own neighbour, and
    neighbours are mutual. -/
structure Linked (vertexSize : Nat) (lists : Nat → List (List Nat)) : Prop where
  range : ∀ v w, w ∈ (lists v).flatten → 1 ≤ w ∧ w ≤ vertexSize
  loopless : ∀ v, v ∉ (lists v).flatten
  symm : ∀ v w, w ∈ (lists v).flatten → v ∈ (lists w).flatten

/-! ## Section 3: The calls of the peeling -/

/-- What holds of the peeling at any time. `keep v w` says whether the call of `v` kept
    `w`: a neighbour is left out only after it was itself encoded with `v`. -/
structure Peeled (vertexSize : Nat) (lists : Nat → List (List Nat))
    (fits : List (List Nat) → Bool) (p : Peeling) (keep : Nat → Nat → Bool) : Prop where
  length : p.filtered.length = vertexSize + 1
  range : ∀ c ∈ p.calls, 1 ≤ c.vertex ∧ c.vertex ≤ vertexSize
  nodup : (p.calls.map Call.vertex).Nodup
  filtered_iff : ∀ v, p.isFiltered v = true ↔ v ∈ p.calls.map Call.vertex
  call : ∀ c ∈ p.calls, c.firstLoop = true ∧ fits c.neighbors = true ∧
    c.neighbors = (lists c.vertex).map fun l => l.filter (keep c.vertex)
  omitted : ∀ before c after, p.calls = before ++ c :: after → ∀ w, keep c.vertex w = false →
    w ∈ before.map Call.vertex ∧ keep w c.vertex = true

/-- In front of the first round every vertex is there. -/
theorem isFiltered_start (n v : Nat) :
    (⟨List.replicate n false, []⟩ : Peeling).isFiltered v = false := by
  unfold Peeling.isFiltered
  rw [List.getD_eq_getElem?_getD, List.getElem?_replicate]
  split <;> rfl

theorem isFiltered_takeOut {vertex : Nat} {neighbors : List (List Nat)} {st : Peeling × List Nat}
    (hv : vertex < st.1.filtered.length) (w : Nat) :
    (takeOut vertex neighbors st).1.isFiltered w = (decide (w = vertex) || st.1.isFiltered w) := by
  unfold takeOut Peeling.isFiltered
  by_cases hw : w = vertex
  · subst hw
    simp [List.getD_eq_getElem?_getD, hv]
  · have hne : vertex ≠ w := fun h => hw h.symm
    simp [List.getD_eq_getElem?_getD, hw, hne]

section

variable {vertexSize : Nat} {lists : Nat → List (List Nat)} {fits : List (List Nat) → Bool}
variable {p : Peeling} {keep : Nat → Nat → Bool}

/-- A vertex still in the graph was kept by all calls. -/
theorem Peeled.keep_open (h : Peeled vertexSize lists fits p keep) {v w : Nat}
    (hv : p.isFiltered v = true) (hw : p.isFiltered w = false) : keep v w = true := by
  by_contra hfalse
  obtain ⟨c, hc, rfl⟩ := List.mem_map.mp ((h.filtered_iff v).mp hv)
  obtain ⟨before, after, hsplit⟩ := List.append_of_mem hc
  have hearlier := (h.omitted before c after hsplit w (by simpa using hfalse)).1
  have hin : w ∈ p.calls.map Call.vertex := by
    rw [hsplit, List.map_append]
    exact List.mem_append_left _ hearlier
  rw [← h.filtered_iff, hw] at hin
  exact absurd hin (by simp)

/-- A call that keeps all its neighbours but those taken out extends the peeling. -/
theorem Peeled.takeOut (h : Peeled vertexSize lists fits p keep) {vertex : Nat}
    (hv : 1 ≤ vertex ∧ vertex ≤ vertexSize) (hopen : p.isFiltered vertex = false)
    {k : Nat → Bool} (hk : ∀ w, k w = false → p.isFiltered w = true)
    (hfits : fits ((lists vertex).map fun l => l.filter k) = true) (set : List Nat) :
    Peeled vertexSize lists fits
      (WorklistPeeling.takeOut vertex ((lists vertex).map fun l => l.filter k) (p, set)).1
      (fun v => if v = vertex then k else keep v) := by
  have hnew : vertex ∉ p.calls.map Call.vertex := by
    rw [← h.filtered_iff, hopen]
    simp
  have hold : ∀ c ∈ p.calls, c.vertex ≠ vertex :=
    fun c hc heq => hnew (heq ▸ List.mem_map_of_mem hc)
  have hlength := h.length
  refine ⟨?_, ?_, ?_, ?_, ?_, ?_⟩
  · simpa [WorklistPeeling.takeOut] using hlength
  · intro c hc
    rcases List.mem_append.mp hc with hc | hc
    · exact h.range c hc
    · rw [List.mem_singleton] at hc
      subst hc
      exact hv
  · show ((p.calls ++ [_]).map Call.vertex).Nodup
    rw [List.map_append, List.nodup_append]
    refine ⟨h.nodup, by simp, ?_⟩
    intro a ha b hb heq
    simp only [List.map_cons, List.map_nil, List.mem_singleton] at hb
    exact hnew (hb ▸ heq ▸ ha)
  · intro v
    rw [isFiltered_takeOut (by show vertex < p.filtered.length; omega)]
    show (decide (v = vertex) || p.isFiltered v) = true ↔ v ∈ (p.calls ++ [_]).map Call.vertex
    rw [Bool.or_eq_true, decide_eq_true_eq, h.filtered_iff, List.map_append, List.mem_append,
      List.map_cons, List.map_nil, List.mem_singleton]
    exact or_comm
  · intro c hc
    rcases List.mem_append.mp hc with hc | hc
    · simp only [if_neg (hold c hc)]
      exact h.call c hc
    · rw [List.mem_singleton] at hc
      subst hc
      exact ⟨rfl, hfits, by rw [if_pos rfl]⟩
  · intro before c after heq w hw
    change p.calls ++ [⟨true, vertex, _⟩] = _ at heq
    rcases List.eq_nil_or_concat after with rfl | ⟨after', last, rfl⟩
    · -- The new call leaves out only vertices that were taken out before.
      obtain ⟨hbefore, hc⟩ := List.append_inj' heq rfl
      rw [List.cons.injEq] at hc
      rw [← hc.1] at hw ⊢
      rw [if_pos rfl] at hw
      have hin := (h.filtered_iff w).mp (hk w hw)
      have hne : w ≠ vertex := fun heq => hnew (heq ▸ hin)
      refine ⟨hbefore ▸ hin, ?_⟩
      rw [if_neg hne]
      exact h.keep_open (hk w hw) hopen
    · rw [List.concat_eq_append, ← List.cons_append, ← List.append_assoc] at heq
      -- an earlier call is as it was
      obtain ⟨hcalls, -⟩ := List.append_inj' heq rfl
      have hc : c ∈ p.calls := by rw [hcalls]; simp
      rw [if_neg (hold c hc)] at hw
      obtain ⟨hin, hkeep⟩ := h.omitted before c after' hcalls w hw
      obtain ⟨c', hc', rfl⟩ := List.mem_map.mp hin
      have hc'' : c' ∈ p.calls := by
        rw [hcalls]
        exact List.mem_append_left _ hc'
      rw [if_neg (hold c' hc'')]
      exact ⟨hin, hkeep⟩

/-- The lists that are passed leave out exactly the vertices taken out. -/
theorem remaining_eq (p : Peeling) (v : Nat) :
    p.remaining lists v = (lists v).map fun l => l.filter fun w => !p.isFiltered w := rfl

theorem mem_flatten_remaining {v w : Nat} :
    w ∈ (p.remaining lists v).flatten ↔ w ∈ (lists v).flatten ∧ p.isFiltered w = false := by
  rw [remaining_eq, flatten_map_filter, List.mem_filter]
  simp

/-- Visiting a vertex either leaves everything as it is, or the vertex is still there,
    fits, and is taken out. -/
theorem visit_cases (lists : Nat → List (List Nat)) (fits : List (List Nat) → Bool)
    (st : Peeling × List Nat) (vertex : Nat) :
    (visit lists fits st vertex = st ∧
      (st.1.isFiltered vertex = true ∨ fits (st.1.remaining lists vertex) = false)) ∨
    (st.1.isFiltered vertex = false ∧ fits (st.1.remaining lists vertex) = true ∧
      visit lists fits st vertex =
        WorklistPeeling.takeOut vertex (st.1.remaining lists vertex) st) := by
  unfold visit
  by_cases hf : st.1.isFiltered vertex = true
  · exact Or.inl ⟨by rw [if_pos hf], Or.inl hf⟩
  · by_cases hfit : fits (st.1.remaining lists vertex) = true
    · refine Or.inr ⟨by simpa using hf, hfit, ?_⟩
      rw [if_neg hf]
      exact if_pos hfit
    · refine Or.inl ⟨?_, Or.inr (by simpa using hfit)⟩
      rw [if_neg hf]
      exact if_neg hfit

end

/-! ## Section 4: The vertices that wait -/

/-- Every vertex that is still there and does not wait to be tested has lists that do
    not fit. -/
def Tested (vertexSize : Nat) (lists : Nat → List (List Nat)) (fits : List (List Nat) → Bool)
    (p : Peeling) (waiting : List Nat) : Prop :=
  ∀ v, 1 ≤ v → v ≤ vertexSize → p.isFiltered v = false → v ∉ waiting →
    fits (p.remaining lists v) = false

section

variable {vertexSize : Nat} {lists : Nat → List (List Nat)} {fits : List (List Nat) → Bool}
variable (hlinked : Linked vertexSize lists)
include hlinked

/-- Taking out a vertex only shortens the lists of its neighbours. -/
theorem remaining_takeOut {vertex v : Nat} {neighbors : List (List Nat)}
    {st : Peeling × List Nat} (hlt : vertex < st.1.filtered.length)
    (hv : v ∉ (lists vertex).flatten) :
    (takeOut vertex neighbors st).1.remaining lists v = st.1.remaining lists v := by
  rw [remaining_eq, remaining_eq]
  apply List.map_congr_left
  intro l hl
  apply List.filter_congr
  intro w hw
  have hne : w ≠ vertex := by
    rintro rfl
    exact hv (hlinked.symm v w (List.mem_flatten.mpr ⟨l, hl, hw⟩))
  rw [isFiltered_takeOut hlt]
  simp [hne]

theorem Tested.takeOut {vertex : Nat} {neighbors : List (List Nat)} {st : Peeling × List Nat}
    {rest : List Nat} (hlt : vertex < st.1.filtered.length)
    (hneighbors : ∀ v, st.1.isFiltered v = false → v ∈ (lists vertex).flatten →
      v ∈ neighbors.flatten)
    (h : Tested vertexSize lists fits st.1 (vertex :: rest ++ st.2)) :
    Tested vertexSize lists fits (WorklistPeeling.takeOut vertex neighbors st).1
      (rest ++ (WorklistPeeling.takeOut vertex neighbors st).2) := by
  intro v h₁ h₂ hopen hwait
  rw [isFiltered_takeOut hlt, Bool.or_eq_false_iff, decide_eq_false_iff_not] at hopen
  have hnext : v ∉ rest ∧ v ∉ st.2 ∧ v ∉ neighbors.flatten := by
    rw [List.mem_append, WorklistPeeling.takeOut, mem_insertAll] at hwait
    tauto
  have hfar : v ∉ (lists vertex).flatten := fun hmem => hnext.2.2 (hneighbors v hopen.2 hmem)
  rw [remaining_takeOut hlinked hlt hfar]
  refine h v h₁ h₂ hopen.2 ?_
  rw [List.mem_append, List.mem_cons]
  tauto

end

/-! ## Section 5: Rounds -/

/-- The state inside a round: `rest` is still to be visited and `st.2` is the worklist of
    the next round. -/
structure Working (vertexSize : Nat) (lists : Nat → List (List Nat))
    (fits : List (List Nat) → Bool) (st : Peeling × List Nat) (rest : List Nat) : Prop where
  peeled : ∃ keep, Peeled vertexSize lists fits st.1 keep
  tested : Tested vertexSize lists fits st.1 (rest ++ st.2)
  range : ∀ v ∈ rest ++ st.2, 1 ≤ v ∧ v ≤ vertexSize

section

variable {vertexSize : Nat} {lists : Nat → List (List Nat)} {fits : List (List Nat) → Bool}
variable (hlinked : Linked vertexSize lists)
include hlinked

/-- One visit: either nothing changes or there is one more call. -/
theorem Working.visit {st : Peeling × List Nat} {vertex : Nat} {rest : List Nat}
    (h : Working vertexSize lists fits st (vertex :: rest)) :
    Working vertexSize lists fits (visit lists fits st vertex) rest ∧
      (visit lists fits st vertex = st ∨
        (visit lists fits st vertex).1.calls.length = st.1.calls.length + 1) := by
  obtain ⟨keep, hpeeled⟩ := h.peeled
  have hv := h.range vertex (by simp)
  have hlt : vertex < st.1.filtered.length := by
    rw [hpeeled.length]
    omega
  rcases visit_cases lists fits st vertex with
    ⟨hsame, hwhy⟩ | ⟨hopen, hfit, htake⟩
  · rw [hsame]
    refine ⟨⟨h.peeled, ?_, fun v hv => h.range v (by simp at hv ⊢; tauto)⟩, Or.inl rfl⟩
    intro v h₁ h₂ hvopen hwait
    by_cases heq : v = vertex
    · subst heq
      rcases hwhy with hf | hfit
      · rw [hf] at hvopen
        cases hvopen
      · exact hfit
    · refine h.tested v h₁ h₂ hvopen ?_
      rw [List.cons_append, List.mem_cons]
      exact fun hor => hor.elim heq hwait
  · rw [htake]
    refine ⟨⟨?_, ?_, ?_⟩, Or.inr (by simp [WorklistPeeling.takeOut])⟩
    · exact ⟨_, hpeeled.takeOut hv hopen (k := fun w => !st.1.isFiltered w) (by simp) hfit st.2⟩
    · exact h.tested.takeOut hlinked hlt fun v hvopen hmem =>
        mem_flatten_remaining.mpr ⟨hmem, hvopen⟩
    · intro v hmem
      rw [List.mem_append, WorklistPeeling.takeOut, mem_insertAll, mem_flatten_remaining] at hmem
      rcases hmem with hmem | hmem | ⟨hmem, -⟩
      · exact h.range v (by simp [hmem])
      · exact h.range v (by simp [hmem])
      · exact hlinked.range vertex v hmem

/-- A whole round. -/
theorem Working.foldl_visit {st : Peeling × List Nat} {rest : List Nat}
    (h : Working vertexSize lists fits st rest) :
    Working vertexSize lists fits (rest.foldl (WorklistPeeling.visit lists fits) st) [] ∧
      (rest.foldl (WorklistPeeling.visit lists fits) st = st ∨
        st.1.calls.length <
          (rest.foldl (WorklistPeeling.visit lists fits) st).1.calls.length) := by
  induction rest generalizing st with
  | nil => exact ⟨h, Or.inl rfl⟩
  | cons vertex rest ih =>
    obtain ⟨hnext, hstep⟩ := h.visit hlinked
    obtain ⟨hdone, hrest⟩ := ih hnext
    refine ⟨hdone, ?_⟩
    rw [List.foldl_cons]
    rcases hstep with hsame | hmore
    · rw [hsame] at hrest ⊢
      exact hrest
    · right
      rcases hrest with hsame | hlt
      · rw [hsame, hmore]
        omega
      · omega

omit hlinked in
theorem Peeled.length_calls_le {p : Peeling} {keep : Nat → Nat → Bool}
    (h : Peeled vertexSize lists fits p keep) : p.calls.length ≤ vertexSize := by
  have hsub : (p.calls.map Call.vertex).Subperm (List.range' 1 vertexSize) := by
    apply List.subperm_of_subset h.nodup
    intro v hv
    obtain ⟨c, hc, rfl⟩ := List.mem_map.mp hv
    have := h.range c hc
    rw [List.mem_range'_1]
    omega
  simpa using hsub.length_le

/-- The loop ends: a round that encodes no vertex leaves no worklist. -/
theorem relatedLoop_run {iterate : Nat → List Nat → List Nat}
    (hiterate : ∀ n set, (iterate n set).Perm set) {fuel : Nat} (round : Nat)
    {related : List Nat} {p : Peeling} (h : Working vertexSize lists fits (p, related) [])
    (hfuel : vertexSize - p.calls.length + 2 ≤ fuel) :
    ∃ p', relatedLoop lists fits iterate fuel round related p = some p' ∧
      (∃ keep, Peeled vertexSize lists fits p' keep) ∧ Tested vertexSize lists fits p' [] := by
  induction fuel generalizing round related p with
  | zero => omega
  | succ fuel ih =>
    rw [relatedLoop]
    by_cases hempty : related = []
    · subst hempty
      exact ⟨p, if_pos rfl, h.peeled, h.tested⟩
    · rw [if_neg hempty]
      have hperm := hiterate round related
      have hround : Working vertexSize lists fits (p, []) (iterate round related) := by
        refine ⟨h.peeled, ?_, fun v hv => h.range v ?_⟩
        · intro v h₁ h₂ hopen hwait
          refine h.tested v h₁ h₂ hopen ?_
          rwa [List.append_nil, hperm.mem_iff] at hwait
        · rwa [List.append_nil, hperm.mem_iff] at hv
      obtain ⟨hdone, hprogress⟩ := hround.foldl_visit hlinked
      rcases hprogress with hsame | hlt
      · obtain ⟨fuel, rfl⟩ : ∃ n, fuel = n + 1 := ⟨fuel - 1, by omega⟩
        rw [hsame] at hdone ⊢
        exact ⟨p, if_pos rfl, hdone.peeled, hdone.tested⟩
      · obtain ⟨keep, hpeeled⟩ := hdone.peeled
        have hle := hpeeled.length_calls_le
        have hlt' : p.calls.length < _ := hlt
        exact ih _ hdone (by omega)

omit hlinked in
theorem map_filter_true (ls : List (List Nat)) : (ls.map fun l => l.filter fun _ => true) = ls := by
  simp

/-- One step of the first round. -/
theorem Working.takeOut {st : Peeling × List Nat} {vertex : Nat} {rest : List Nat}
    (h : Working vertexSize lists fits st (vertex :: rest))
    (hopen : st.1.isFiltered vertex = false) (hfit : fits (lists vertex) = true) :
    Working vertexSize lists fits (WorklistPeeling.takeOut vertex (lists vertex) st) rest := by
  obtain ⟨keep, hpeeled⟩ := h.peeled
  have hv := h.range vertex (by simp)
  have hlt : vertex < st.1.filtered.length := by
    rw [hpeeled.length]
    omega
  refine ⟨?_, h.tested.takeOut hlinked hlt fun v _ hmem => hmem, ?_⟩
  · have hnext := hpeeled.takeOut hv hopen (k := fun _ => true) nofun
      (by rw [map_filter_true]; exact hfit) st.2
    rw [map_filter_true] at hnext
    exact ⟨_, hnext⟩
  · intro v hmem
    rw [List.mem_append, WorklistPeeling.takeOut, mem_insertAll] at hmem
    rcases hmem with hmem | hmem | hmem
    · exact h.range v (by simp [hmem])
    · exact h.range v (by simp [hmem])
    · exact hlinked.range vertex v hmem

theorem Working.foldl_takeOut {st : Peeling × List Nat} {rest : List Nat}
    (h : Working vertexSize lists fits st rest) (hnodup : rest.Nodup)
    (hopen : ∀ v ∈ rest, st.1.isFiltered v = false) (hfit : ∀ v ∈ rest, fits (lists v) = true) :
    Working vertexSize lists fits
      (rest.foldl (fun st vertex => WorklistPeeling.takeOut vertex (lists vertex) st) st) [] := by
  induction rest generalizing st with
  | nil => exact h
  | cons vertex rest ih =>
    rw [List.nodup_cons] at hnodup
    rw [List.foldl_cons]
    refine ih (h.takeOut hlinked (hopen vertex (by simp)) (hfit vertex (by simp))) hnodup.2 ?_
      fun v hv => hfit v (by simp [hv])
    intro v hv
    obtain ⟨keep, hpeeled⟩ := h.peeled
    have hrange := h.range vertex (by simp)
    have hne : v ≠ vertex := fun heq => hnodup.1 (heq ▸ hv)
    rw [isFiltered_takeOut (by rw [hpeeled.length]; omega), hopen v (by simp [hv])]
    simp [hne]

theorem working_firstRound :
    Working vertexSize lists fits (firstRound vertexSize lists fits) [] := by
  have hnone := isFiltered_start (vertexSize + 1)
  have hstart : Working vertexSize lists fits (⟨List.replicate (vertexSize + 1) false, []⟩, [])
      ((List.range' 1 vertexSize).filter fun id => fits (lists id)) := by
    refine ⟨⟨fun _ _ => true, ⟨by simp, nofun, List.nodup_nil, ?_, nofun, ?_⟩⟩, ?_, ?_⟩
    · intro v
      rw [hnone]
      simp
    · intro before c after heq
      exact absurd heq (by simp)
    · intro v h₁ h₂ _ hwait
      rw [List.append_nil, List.mem_filter, List.mem_range'_1] at hwait
      have hremaining : (⟨List.replicate (vertexSize + 1) false, []⟩ : Peeling).remaining lists v =
          lists v := by
        rw [remaining_eq]
        simp only [hnone]
        exact map_filter_true _
      rw [hremaining]
      by_contra hfit
      exact hwait ⟨by omega, by simpa using hfit⟩
    · intro v hv
      rw [List.append_nil, List.mem_filter, List.mem_range'_1] at hv
      omega
  refine hstart.foldl_takeOut hlinked (List.Nodup.filter _ List.nodup_range') (fun v _ => hnone v) ?_
  intro v hv
  exact (List.mem_filter.mp hv).2

/-! ## Section 6: All calls -/

/-- The worklist loop ends, and what it leaves is a finished peeling. -/
theorem peeling_run (hsize : vertexSize + 1 < 2 ^ 31) {iterate : Nat → List Nat → List Nat}
    (hiterate : ∀ n set, (iterate n set).Perm set) :
    ∃ p keep, peeling vertexSize lists fits iterate = some p ∧
      Peeled vertexSize lists fits p keep ∧ Tested vertexSize lists fits p [] := by
  have hstart : Working vertexSize lists fits (firstRound vertexSize lists fits) [] :=
    working_firstRound hlinked
  obtain ⟨p, hrun, ⟨keep, hpeeled⟩, htested⟩ :=
    relatedLoop_run hlinked hiterate 0 hstart (show _ ≤ vertexSize + 2 by omega)
  refine ⟨p, keep, ?_, hpeeled, htested⟩
  rw [peeling, guard, if_pos hsize]
  exact hrun

omit hlinked in
/-- The counters do not hold `2 ^ 31`. -/
theorem peeling_eq_none (hsize : ¬ vertexSize + 1 < 2 ^ 31) (iterate : Nat → List Nat → List Nat) :
    peeling vertexSize lists fits iterate = none := by
  simp only [peeling, guard, if_neg hsize]
  rfl

omit hlinked in
theorem peel_eq_none (hsize : ¬ vertexSize + 1 < 2 ^ 31) (iterate : Nat → List Nat → List Nat) :
    peel vertexSize lists fits iterate = none := by
  rw [peel, peeling_eq_none hsize]
  rfl

/-- The build makes its calls, and they are those of a finished peeling. -/
theorem peel_run (hsize : vertexSize + 1 < 2 ^ 31) {iterate : Nat → List Nat → List Nat}
    (hiterate : ∀ n set, (iterate n set).Perm set) :
    ∃ p keep, peel vertexSize lists fits iterate = some (p.calls ++ finalCalls vertexSize lists p) ∧
      Peeled vertexSize lists fits p keep ∧ Tested vertexSize lists fits p [] := by
  obtain ⟨p, keep, hrun, hpeeled, htested⟩ :
      ∃ p keep, peeling vertexSize lists fits iterate = some p ∧ _ :=
    peeling_run hlinked hsize hiterate
  refine ⟨p, keep, ?_, hpeeled, htested⟩
  simp only [peel, hrun, Option.bind_eq_bind, Option.bind_some, Option.pure_def]

omit hlinked in
theorem mem_finalCalls {p : Peeling} {c : Call} :
    c ∈ finalCalls vertexSize lists p ↔ (1 ≤ c.vertex ∧ c.vertex ≤ vertexSize) ∧
      p.isFiltered c.vertex = false ∧ c = ⟨false, c.vertex, p.remaining lists c.vertex⟩ := by
  unfold finalCalls
  rw [List.mem_map]
  constructor
  · rintro ⟨v, hv, rfl⟩
    rw [List.mem_filter, List.mem_range'_1] at hv
    have hle : v ≤ vertexSize := by omega
    exact ⟨⟨hv.1.1, hle⟩, by simpa using hv.2, rfl⟩
  · rintro ⟨hrange, hopen, heq⟩
    refine ⟨c.vertex, ?_, heq.symm⟩
    rw [List.mem_filter, List.mem_range'_1, hopen]
    exact ⟨by omega, rfl⟩

omit hlinked in
/-- Every vertex is encoded once. -/
theorem Peeled.perm {p : Peeling} {keep : Nat → Nat → Bool}
    (h : Peeled vertexSize lists fits p keep) :
    ((p.calls ++ finalCalls vertexSize lists p).map Call.vertex).Perm
      (List.range' 1 vertexSize) := by
  have hfinal : (finalCalls vertexSize lists p).map Call.vertex =
      (List.range' 1 vertexSize).filter fun v => !p.isFiltered v := by
    rw [finalCalls, List.map_map]
    exact List.map_id _
  rw [List.map_append, hfinal]
  have hnodup : (p.calls.map Call.vertex ++
      (List.range' 1 vertexSize).filter fun v => !p.isFiltered v).Nodup := by
    rw [List.nodup_append]
    refine ⟨h.nodup, List.Nodup.filter _ List.nodup_range', ?_⟩
    rintro v hv w hw rfl
    rw [List.mem_filter, (h.filtered_iff v).mpr hv] at hw
    exact absurd hw.2 (by simp)
  apply (List.perm_ext_iff_of_nodup hnodup List.nodup_range').mpr
  intro v
  rw [List.mem_append, List.mem_filter, ← h.filtered_iff]
  constructor
  · rintro (hv | hv)
    · obtain ⟨c, hc, rfl⟩ := List.mem_map.mp ((h.filtered_iff v).mp hv)
      have := h.range c hc
      rw [List.mem_range'_1]
      omega
    · exact hv.1
  · intro hv
    cases hf : p.isFiltered v with
    | true => exact Or.inl rfl
    | false => exact Or.inr ⟨hv, rfl⟩

/-- What a build by worklist promises. The calls of the final loop pass lists that do not
    fit, and a neighbour is left out only after a call that fits and passes the vertex. -/
structure Peels (vertexSize : Nat) (lists : Nat → List (List Nat))
    (fits : List (List Nat) → Bool) (calls : List Call) : Prop where
  perm : (calls.map Call.vertex).Perm (List.range' 1 vertexSize)
  omitted : ∀ before c after, calls = before ++ c :: after →
    ∀ w ∈ (lists c.vertex).flatten, w ∉ c.neighbors.flatten →
    ∃ c' ∈ before, c'.vertex = w ∧ fits c'.neighbors = true ∧ c.vertex ∈ c'.neighbors.flatten
  final : ∀ c ∈ calls, c.firstLoop = false → fits c.neighbors = false

/-- A vertex that was kept stands in the lists of the call. -/
theorem Peeled.mem_neighbors {p : Peeling} {keep : Nat → Nat → Bool}
    (h : Peeled vertexSize lists fits p keep) {c : Call} (hc : c ∈ p.calls) {v : Nat}
    (hlink : c.vertex ∈ (lists v).flatten) (hkeep : keep c.vertex v = true) :
    v ∈ c.neighbors.flatten := by
  rw [(h.call c hc).2.2, flatten_map_filter, List.mem_filter]
  exact ⟨hlinked.symm v c.vertex hlink, hkeep⟩

theorem peels_of_peeled {p : Peeling} {keep : Nat → Nat → Bool}
    (h : Peeled vertexSize lists fits p keep) (htested : Tested vertexSize lists fits p []) :
    Peels vertexSize lists fits (p.calls ++ finalCalls vertexSize lists p) := by
  refine ⟨h.perm, ?_, ?_⟩
  · intro before c after heq w hw hout
    -- a last call leaves out vertices of the peeling, all of whose calls stand in front of it
    have hlast : c ∈ finalCalls vertexSize lists p → p.calls ⊆ before →
        ∃ c' ∈ before, c'.vertex = w ∧ fits c'.neighbors = true ∧
          c.vertex ∈ c'.neighbors.flatten := by
      intro hc hsub
      obtain ⟨-, hopen, hcall⟩ := mem_finalCalls.mp hc
      have hfiltered : p.isFiltered w = true := by
        by_contra hfalse
        apply hout
        rw [hcall]
        exact mem_flatten_remaining.mpr ⟨hw, by simpa using hfalse⟩
      obtain ⟨c', hc', rfl⟩ := List.mem_map.mp ((h.filtered_iff w).mp hfiltered)
      exact ⟨c', hsub hc', rfl, (h.call c' hc').2.1,
        h.mem_neighbors hlinked hc' hw (h.keep_open hfiltered hopen)⟩
    rcases List.append_eq_append_iff.mp heq with ⟨rest, hbefore, hfinal⟩ | ⟨rest, hcalls, hfinal⟩
    · exact hlast (by rw [hfinal]; simp) (by rw [hbefore]; simp)
    · cases rest with
      | nil =>
        rw [List.nil_append] at hfinal
        rw [List.append_nil] at hcalls
        exact hlast (by rw [← hfinal]; simp) (by rw [hcalls]; simp)
      | cons first rest =>
        rw [List.cons_append, List.cons.injEq] at hfinal
        obtain ⟨rfl, -⟩ := hfinal
        -- a call of the peeling
        have hc : c ∈ p.calls := by rw [hcalls]; simp
        have hkeep : keep c.vertex w = false := by
          by_contra htrue
          apply hout
          rw [(h.call c hc).2.2, flatten_map_filter, List.mem_filter]
          exact ⟨hw, by simpa using htrue⟩
        obtain ⟨hin, hkeep'⟩ := h.omitted before c rest hcalls w hkeep
        obtain ⟨c', hc', rfl⟩ := List.mem_map.mp hin
        have hc'' : c' ∈ p.calls := by rw [hcalls]; exact List.mem_append_left _ hc'
        exact ⟨c', hc', rfl, (h.call c' hc'').2.1, h.mem_neighbors hlinked hc'' hw hkeep'⟩
  · intro c hc hlast
    rcases List.mem_append.mp hc with hc | hc
    · -- calls of the peeling fit; the others were tested and do not
      rw [(h.call c hc).1] at hlast
      cases hlast
    · obtain ⟨hrange, hopen, hcall⟩ := mem_finalCalls.mp hc
      rw [hcall]
      exact htested c.vertex hrange.1 hrange.2 hopen List.not_mem_nil

omit hlinked in
theorem covering_of_peeled {p : Peeling} {keep : Nat → Nat → Bool}
    (h : Peeled vertexSize lists fits p keep) :
    Covering (List.range' 1 vertexSize) lists (fun ls => fits ls = true)
      (p.calls ++ finalCalls vertexSize lists p) p.isFiltered
      (fun v w => if p.isFiltered v then keep v w else !p.isFiltered w) := by
  refine ⟨h.perm, ?_, ?_, ?_⟩
  · intro c hc
    rcases List.mem_append.mp hc with hc | hc
    · have hf := (h.filtered_iff c.vertex).mpr (List.mem_map_of_mem hc)
      obtain ⟨hfirst, -, hneighbors⟩ := h.call c hc
      simp only [hf, if_true]
      exact ⟨hfirst, hneighbors⟩
    · obtain ⟨-, hopen, hcall⟩ := mem_finalCalls.mp hc
      rw [hcall]
      simp only [hopen, Bool.false_eq_true, if_false]
      exact ⟨trivial, remaining_eq p c.vertex⟩
  · intro c hc hfirst
    rcases List.mem_append.mp hc with hc | hc
    · exact (h.call c hc).2.1
    · rw [(mem_finalCalls.mp hc).2.2] at hfirst
      cases hfirst
  · intro v _ w _ hne
    cases hv : p.isFiltered v with
    | false =>
      cases hw : p.isFiltered w with
      | false => simp
      | true => simp [h.keep_open hw hv]
    | true =>
      cases hw : p.isFiltered w with
      | false => simp [h.keep_open hv hw]
      | true =>
        simp only [if_true, true_and]
        by_contra hnone
        -- of two vertices taken out, the later call may omit the earlier one, which kept it
        have hkeep : keep v w = false := by
          cases hk : keep v w
          · rfl
          · exact absurd (Or.inl hk) hnone
        obtain ⟨c, hc, rfl⟩ := List.mem_map.mp ((h.filtered_iff v).mp hv)
        obtain ⟨before, after, hsplit⟩ := List.append_of_mem hc
        have hback := (h.omitted before c after hsplit w hkeep).2
        exact hnone (Or.inr (Or.inl hback))

/-- The worklist build ends, and its calls are as promised. -/
theorem peel_spec (hsize : vertexSize + 1 < 2 ^ 31) {iterate : Nat → List Nat → List Nat}
    (hiterate : ∀ n set, (iterate n set).Perm set) :
    ∃ calls first keep, peel vertexSize lists fits iterate = some calls ∧
      Peels vertexSize lists fits calls ∧
      Covering (List.range' 1 vertexSize) lists (fun ls => fits ls = true) calls first keep := by
  obtain ⟨p, keep, hrun, hpeeled, htested⟩ :
      ∃ p keep, peel vertexSize lists fits iterate = _ ∧ _ := peel_run hlinked hsize hiterate
  exact ⟨_, _, _, hrun, peels_of_peeled hlinked hpeeled htested, covering_of_peeled hpeeled⟩

end

end WorklistPeeling

/-! ## Section 7: The undirected builds -/

namespace Graph

variable {vertexSize : Nat} {g : Graph vertexSize}

theorem linked : WorklistPeeling.Linked vertexSize g.lists := by
  constructor
  · intro v w hw
    rw [flatten_lists] at hw
    exact mem_range hw
  · intro v
    rw [flatten_lists]
    exact not_mem_adj_self
  · intro v w hw
    rw [flatten_lists] at hw ⊢
    exact mem_adj_comm.mp hw

end Graph

namespace WorklistPeeling

/-- The neighbours that a call passes. -/
def passed (c : Call) : List Nat := c.neighbors.getD 0 []

/-- The calls of an undirected build: `requiredSize` is `GetRequiredBytes` or
    `GetRequiredBits` of the codec, and `maxLen` is `GetBytesSize()` of the encoder. -/
def encodeCalls {vertexSize : Nat} (g : Graph vertexSize) (requiredSize : List Nat → Nat)
    (maxLen : Nat) (iterate : Nat → List Nat → List Nat) : Option (List Call) :=
  peel vertexSize g.lists (fun ls => decide (requiredSize (ls.getD 0 []) ≤ maxLen)) iterate

end WorklistPeeling

namespace DeltaSIMDVend

/-- The calls of `DeltaSIMDVEND::BuildEncoding`. -/
def encodeCalls {vertexSize : Nat} : Graph vertexSize → (List Nat → Nat) → Nat →
    (Nat → List Nat → List Nat) → Option (List Call) :=
  WorklistPeeling.encodeCalls

end DeltaSIMDVend

namespace RangeCompVend

/-- The calls of `RangeCompVend::BuildEncoding`. -/
def encodeCalls {vertexSize : Nat} : Graph vertexSize → (List Nat → Nat) → Nat →
    (Nat → List Nat → List Nat) → Option (List Call) :=
  WorklistPeeling.encodeCalls

end RangeCompVend

namespace WorklistPeeling

/-- What the calls of an undirected build are. -/
structure PeelsGraph {vertexSize : Nat} (g : Graph vertexSize) (requiredSize : List Nat → Nat)
    (maxLen : Nat) (calls : List Call) : Prop where
  range : ∀ c ∈ calls, 1 ≤ c.vertex ∧ c.vertex ≤ vertexSize
  once : ∀ v, 1 ≤ v → v ≤ vertexSize → calls.countP (fun c => decide (c.vertex = v)) = 1
  covered : ∀ c ∈ calls, ∀ c' ∈ calls, c'.vertex ∈ g.adj c.vertex →
    c'.vertex ∈ passed c ∨ c.vertex ∈ passed c'
  omitted : ∀ before c after, calls = before ++ c :: after →
    ∀ w ∈ g.adj c.vertex, w ∉ passed c →
    ∃ c' ∈ before, c'.vertex = w ∧ requiredSize (passed c') ≤ maxLen ∧ c.vertex ∈ passed c'
  final : ∀ c ∈ calls, c.firstLoop = false → maxLen < requiredSize (passed c)

section

variable {vertexSize : Nat} {g : Graph vertexSize} {requiredSize : List Nat → Nat} {maxLen : Nat}
variable {calls : List Call}

theorem peelsGraph_of_peels
    (h : Peels vertexSize g.lists (fun ls => decide (requiredSize (ls.getD 0 []) ≤ maxLen)) calls)
    (hone : ∀ c ∈ calls, c.neighbors = [passed c]) :
    PeelsGraph g requiredSize maxLen calls := by
  have hflat : ∀ c ∈ calls, c.neighbors.flatten = passed c := by
    intro c hc
    rw [hone c hc]
    simp [passed]
  have hnodup : (calls.map Call.vertex).Nodup := h.perm.nodup_iff.mpr List.nodup_range'
  have homitted : ∀ before c after, calls = before ++ c :: after →
      ∀ w ∈ g.adj c.vertex, w ∉ passed c →
      ∃ c' ∈ before, c'.vertex = w ∧ requiredSize (passed c') ≤ maxLen ∧ c.vertex ∈ passed c' := by
    intro before c after heq w hw hout
    have hc : c ∈ calls := by rw [heq]; simp
    obtain ⟨c', hc', hvertex, hfit, hmem⟩ := h.omitted before c after heq w
      (by rw [g.flatten_lists]; exact hw) (by rw [hflat c hc]; exact hout)
    have hc'' : c' ∈ calls := by rw [heq]; exact List.mem_append_left _ hc'
    rw [hflat c' hc''] at hmem
    exact ⟨c', hc', hvertex, of_decide_eq_true hfit, hmem⟩
  refine ⟨?_, ?_, ?_, homitted, ?_⟩
  · intro c hc
    have hmem := h.perm.mem_iff.mp (List.mem_map_of_mem hc)
    rw [List.mem_range'_1] at hmem
    omega
  · intro v hv hle
    -- every vertex has one call
    have hcount : (calls.map Call.vertex).count v = 1 :=
      List.count_eq_one_of_mem hnodup (h.perm.mem_iff.mpr (List.mem_range'_1.mpr (by omega)))
    rw [List.count, List.countP_map] at hcount
    rw [← hcount]
    apply List.countP_congr
    intro c _
    simp
  · intro c hc c' hc' hmem
    by_cases hin : c'.vertex ∈ passed c
    · exact Or.inl hin
    · -- The call that `c` relies on is `c'`, the only one of its vertex.
      right
      obtain ⟨before, after, heq⟩ := List.append_of_mem hc
      obtain ⟨c'', hc'', hvertex, -, hback⟩ := homitted before c after heq _ hmem hin
      have hc''' : c'' ∈ calls := by rw [heq]; exact List.mem_append_left _ hc''
      rwa [List.inj_on_of_nodup_map hnodup hc''' hc' hvertex] at hback
  · intro c hc hlast
    have hfit := h.final c hc hlast
    exact Nat.lt_of_not_le (of_decide_eq_false hfit)

/-- The worklist build of an undirected graph. -/
theorem encodeCalls_spec (hsize : vertexSize + 1 < 2 ^ 31) {iterate : Nat → List Nat → List Nat}
    (hiterate : ∀ n set, (iterate n set).Perm set) :
    ∃ calls first keep, encodeCalls g requiredSize maxLen iterate = some calls ∧
      PeelsGraph g requiredSize maxLen calls ∧
      Covering (List.range' 1 vertexSize) g.lists
        (fun ls => decide (requiredSize (ls.getD 0 []) ≤ maxLen) = true) calls first keep := by
  obtain ⟨calls, first, keep, hrun, hpeels, hcover⟩ := peel_spec g.linked hsize hiterate
  refine ⟨calls, first, keep, hrun, peelsGraph_of_peels hpeels ?_, hcover⟩
  intro c hc
  rw [passed, (hcover.call_eq c hc).2]
  rfl

end

/-- For every order in which the sets are gone through, both worklist builds end and make the
    calls they should, as long as their counters hold the vertices. -/
theorem builds_peel_iff {vertexSize : Nat} (g : Graph vertexSize) (requiredSize : List Nat → Nat)
    (maxLen : Nat) {iterate : Nat → List Nat → List Nat}
    (hiterate : ∀ n set, (iterate n set).Perm set) :
    ((∃ calls, DeltaSIMDVend.encodeCalls g requiredSize maxLen iterate = some calls ∧
      PeelsGraph g requiredSize maxLen calls) ↔ vertexSize + 1 < 2 ^ 31) ∧
    ((∃ calls, RangeCompVend.encodeCalls g requiredSize maxLen iterate = some calls ∧
      PeelsGraph g requiredSize maxLen calls) ↔ vertexSize + 1 < 2 ^ 31) := by
  have hiff : (∃ calls, encodeCalls g requiredSize maxLen iterate = some calls ∧
      PeelsGraph g requiredSize maxLen calls) ↔ vertexSize + 1 < 2 ^ 31 := by
    constructor
    · rintro ⟨calls, hrun, -⟩
      by_contra hsize
      rw [encodeCalls, peel_eq_none hsize] at hrun
      cases hrun
    · intro hsize
      obtain ⟨calls, -, -, hrun, hpeels, -⟩ := encodeCalls_spec (g := g) hsize hiterate
      exact ⟨calls, hrun, hpeels⟩
  exact ⟨hiff, hiff⟩

/-- The path `1 - 2 - 3 - 4`. -/
def path : Graph 4 where
  adjacencyList := [[], [2], [1, 3], [2, 4], [3]]
  zero := by decide
  length := by decide
  range := by decide
  loopless := by decide
  nodup := by decide
  symm := by decide

theorem builds_peel_path :
    (∃ calls, DeltaSIMDVend.encodeCalls path List.length 1 (fun _ set => set.reverse) = some calls ∧
      PeelsGraph path List.length 1 calls) ∧
    ∃ calls, RangeCompVend.encodeCalls path List.length 1 (fun _ set => set.reverse) = some calls ∧
      PeelsGraph path List.length 1 calls := by
  have hiff := builds_peel_iff path List.length 1 fun _ set => List.reverse_perm set
  exact ⟨hiff.1.mpr (by decide), hiff.2.mpr (by decide)⟩

/-- With `VERTEX_SIZE = 2 ^ 31 - 1` the last vertex is the last `int`. -/
theorem edgeless_not_peeled :
    ¬ ((∃ calls, DeltaSIMDVend.encodeCalls (Graph.edgeless (2 ^ 31 - 1)) List.length 1
        (fun _ set => set) = some calls ∧
      PeelsGraph (Graph.edgeless (2 ^ 31 - 1)) List.length 1 calls) ∧
    ∃ calls, RangeCompVend.encodeCalls (Graph.edgeless (2 ^ 31 - 1)) List.length 1
        (fun _ set => set) = some calls ∧
      PeelsGraph (Graph.edgeless (2 ^ 31 - 1)) List.length 1 calls) := by
  rintro ⟨⟨calls, hrun, -⟩, -⟩
  rw [DeltaSIMDVend.encodeCalls, encodeCalls, peel_eq_none (by decide)] at hrun
  cases hrun

end WorklistPeeling

end Vend
