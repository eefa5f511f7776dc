import Vend.Encode.RangeEncode
import Vend.Lib.Run

/-! # Insertion into the range encoding

    `RangeEncode::InsertPair` re-encodes one endpoint, the one whose record is
    emptier, from the ids that `GetAllNeighbors` returns and the new neighbour.

    A run starts from records that cover the graph, as the peeling build leaves
    them, and `db_` is changed right after each call. The invariant of a run is
    that for every edge a record that holds a whole list knows the other
    endpoint, or neither record denies the other. Two cases break it:

    * When the chosen record is full, `GetBlockInt` runs off its end without
      returning a value.
    * When both records hold windows, the record of the second endpoint is left
      alone and may go on denying the first.
-/

namespace Vend

namespace RangeEncode

open BitSetSIMD

/-! ## Section 1: Model -/

/-- `GetEncodeType(vertex)`. -/
def getEncodeType (c : Config) (encodes : Records) (vertex : Nat) : EncodeType :=
  if !getFlag (encodes.record vertex) then .nonDecodable
  else if word (encodes.record vertex) (maxIntSize c) = 0 then .unFull
  else .full

/-- `GetBlockInt(vertex)`. The only `return` is behind an empty word; without one
    the function has no value. -/
def getBlockInt (c : Config) (encode : BitSetSIMD) : Option (List Nat) :=
  if getFlag encode then
    if 0 ∈ slots c encode then some ((slots c encode).takeWhile (· ≠ 0)) else none
  else none

/-- `GetAllNeighbors(vertex)`. -/
def getAllNeighbors (c : Config) (db : Nat → List Nat) (vertex : Nat) (encodes : Records) :
    Option (List Nat) :=
  if getFlag (encodes.record vertex) then getBlockInt c (encodes.record vertex)
  else some (db vertex)

/-- The endpoints of `InsertPair` after the swap by encode type. -/
def insertOrder (c : Config) (encodes : Records) (vertex1 vertex2 : Nat) : Nat × Nat :=
  if (getEncodeType c encodes vertex2).val < (getEncodeType c encodes vertex1).val then
    (vertex2, vertex1)
  else (vertex1, vertex2)

/-- `InsertPair(vertex1, vertex2)`. -/
def insertPair (c : Config) (db : Nat → List Nat) (vertex1 vertex2 : Nat) (encodes : Records) :
    Option Records := do
  let (vertex1, vertex2) := insertOrder c encodes vertex1 vertex2
  let neighbors ← getAllNeighbors c db vertex1 encodes
  return encodeVertex c vertex1 (neighbors ++ [vertex2]) encodes

/-! ## Section 2: Runs -/

/-- Every record was written from a list of neighbours, and for every edge both
    lists hold the other endpoint, or one of them does and its record holds the
    whole list. -/
structure Built (c : Config) (encodes : Records) (db : Db c.vertexSize)
    (lists : Nat → List Nat) : Prop where
  length : encodes.length = c.vertexSize + 1
  record : ∀ x, 1 ≤ x → x ≤ c.vertexSize →
    ∃ bs, IsRecord c bs ∧ encodes.record x = encodeBits c (lists x) bs
  lists_sub : ∀ x, ∀ y ∈ lists x, y ∈ db.get x
  covered : ∀ x y, y ∈ db.get x →
    (y ∈ lists x ∧ x ∈ lists y) ∨ (y ∈ lists x ∧ getFlag (encodes.record x) = true) ∨
    (x ∈ lists y ∧ getFlag (encodes.record y) = true)

/-- The states in which a run starts. -/
def Start (c : Config) (s : UpdateState c) : Prop := ∃ lists, Built c s.1 s.2 lists

/-- `InsertPair(u, v)` on an absent pair, then `uv` is added to the database. -/
def InsertStep (c : Config) (s : UpdateState c) (pair : Nat × Nat) (s' : UpdateState c) : Prop :=
  IsPair c pair.1 pair.2 ∧ pair.2 ∉ s.2.get pair.1 ∧
    insertPair c s.2.get pair.1 pair.2 s.1 = some s'.1 ∧ s.2.Adds pair.1 pair.2 s'.2

/-- No edge of the current graph is denied. -/
def Safe (c : Config) (s : UpdateState c) : Prop :=
  ∀ x y, y ∈ s.2.get x → nePairTest c s.1 x y ≠ .nonNeighbor

/-- A call that does no harm: the chosen record has an empty word, or it holds a
    window and the other record does not deny its vertex. -/
def InsertHarmless (c : Config) (s : UpdateState c) (pair : Nat × Nat) : Prop :=
  ∃ a b, insertOrder c s.1 pair.1 pair.2 = (a, b) ∧
    (getEncodeType c s.1 a = .unFull ∨
      (getEncodeType c s.1 a = .nonDecodable ∧ nonNeighborTest c s.1 b a ≠ .nonNeighbor))

/-- The record of `x` holds a whole list with `y` in it. -/
def Knows (c : Config) (encodes : Records) (x y : Nat) : Prop :=
  getFlag (encodes.record x) = true ∧ nonNeighborTest c encodes x y = .neighbor

/-- The records of an edge do not lose it. -/
def Covered (c : Config) (encodes : Records) (x y : Nat) : Prop :=
  Knows c encodes x y ∨ Knows c encodes y x ∨
    (nonNeighborTest c encodes x y ≠ .nonNeighbor ∧ nonNeighborTest c encodes y x ≠ .nonNeighbor)

/-- What a run keeps. -/
structure RunInv (c : Config) (s : UpdateState c) : Prop where
  length : s.1.length = c.vertexSize + 1
  record : ∀ x, 1 ≤ x → x ≤ c.vertexSize → ∃ ids bs, IdList c ids ∧ IsRecord c bs ∧
    s.1.record x = encodeBits c ids bs
  covered : ∀ x y, y ∈ s.2.get x → Covered c s.1 x y

theorem Covered.symm {c : Config} {encodes : Records} {x y : Nat} (h : Covered c encodes x y) :
    Covered c encodes y x := by
  rcases h with h | h | ⟨h₁, h₂⟩
  · exact Or.inr (Or.inl h)
  · exact Or.inl h
  · exact Or.inr (Or.inr ⟨h₂, h₁⟩)

theorem Covered.nePairTest_ne {c : Config} {encodes : Records} {x y : Nat}
    (h : Covered c encodes x y) : nePairTest c encodes x y ≠ .nonNeighbor := by
  rw [nePairTest_eq_min]
  rcases h with ⟨-, h⟩ | ⟨-, h⟩ | ⟨h₁, h₂⟩
  · rw [h, PairType.min_neighbor_left]
    simp
  · rw [h, PairType.min_neighbor_right]
    simp
  · intro hmin
    rcases PairType.min_eq_nonNeighbor hmin with ⟨h, -⟩ | ⟨h, -⟩
    · exact h₁ h
    · exact h₂ h

theorem RunInv.safe {c : Config} {s : UpdateState c} (h : RunInv c s) : Safe c s :=
  fun x y hy => (h.covered x y hy).nePairTest_ne

section

variable {c : Config} (hc : Ranged c)
include hc

theorem runInv_of_start {s : UpdateState c} (h : Start c s) : RunInv c s := by
  obtain ⟨lists, h⟩ := h
  have hids : ∀ x, IdList c (lists x) := fun x y hy => s.2.range x y (h.lists_sub x y hy)
  have hspeaks : ∀ x y, 1 ≤ x → x ≤ c.vertexSize → 1 ≤ y → y ≤ c.vertexSize →
      Speaks (getFlag (s.1.record x)) (y ∈ lists x) (nonNeighborTest c s.1 x y) := by
    intro x y hx hx' hy hy'
    obtain ⟨bs, hbs, heq⟩ := h.record x hx hx'
    rw [nonNeighborTest, heq]
    exact speaks_encodeBits hc.worded (hids x) hbs hy hy'
  refine ⟨h.length, ?_, ?_⟩
  · intro x hx hx'
    obtain ⟨bs, hbs, heq⟩ := h.record x hx hx'
    exact ⟨lists x, bs, hids x, hbs, heq⟩
  · intro x y hy
    obtain ⟨hx, hx'⟩ := Db.mem_range_self hy
    obtain ⟨hy₁, hy'⟩ := s.2.range x y hy
    have hxy := hspeaks x y hx hx' hy₁ hy'
    have hyx := hspeaks y x hy₁ hy' hx hx'
    rcases h.covered x y hy with ⟨h₁, h₂⟩ | ⟨hmem, hflag⟩ | ⟨hmem, hflag⟩
    · exact Or.inr (Or.inr ⟨hxy.ne_nonNeighbor h₁, hyx.ne_nonNeighbor h₂⟩)
    · rw [hflag] at hxy
      exact Or.inl ⟨hflag, hxy.eq_neighbor hmem⟩
    · rw [hflag] at hyx
      exact Or.inr (Or.inl ⟨hflag, hyx.eq_neighbor hmem⟩)

/-! ## Section 3: Rewriting one record -/

section EncodeVertex

variable {encodes : Records} {x : Nat} {ids : List Nat}
variable (hlen : encodes.length = c.vertexSize + 1)
variable (hx : 1 ≤ x ∧ x ≤ c.vertexSize)
include hlen hx

omit hc in
theorem record_encodeVertex_self :
    (encodeVertex c x ids encodes).record x = encodeBits c ids (encodes.record x) := by
  rw [encodeVertex, Records.record_update _ _ (by omega), if_pos rfl]

omit hc in
theorem record_encodeVertex_of_ne {y : Nat} (hne : y ≠ x) :
    (encodeVertex c x ids encodes).record y = encodes.record y := by
  rw [encodeVertex, Records.record_update _ _ (by omega), if_neg hne]

omit hc in
theorem nonNeighborTest_encodeVertex_of_ne {y : Nat} (hne : y ≠ x) (z : Nat) :
    nonNeighborTest c (encodeVertex c x ids encodes) y z = nonNeighborTest c encodes y z := by
  rw [nonNeighborTest, nonNeighborTest, record_encodeVertex_of_ne hlen hx hne]

omit hc in
theorem knows_encodeVertex_of_ne {y : Nat} (hne : y ≠ x) {z : Nat} (h : Knows c encodes y z) :
    Knows c (encodeVertex c x ids encodes) y z := by
  rw [Knows, record_encodeVertex_of_ne hlen hx hne,
    nonNeighborTest_encodeVertex_of_ne hlen hx hne]
  exact h

omit hc in
theorem covered_encodeVertex_of_ne {y z : Nat} (hy : y ≠ x) (hz : z ≠ x)
    (h : Covered c encodes y z) : Covered c (encodeVertex c x ids encodes) y z := by
  rcases h with h | h | ⟨h₁, h₂⟩
  · exact Or.inl (knows_encodeVertex_of_ne hlen hx hy h)
  · exact Or.inr (Or.inl (knows_encodeVertex_of_ne hlen hx hz h))
  · refine Or.inr (Or.inr ⟨?_, ?_⟩)
    · rw [nonNeighborTest_encodeVertex_of_ne hlen hx hy]
      exact h₁
    · rw [nonNeighborTest_encodeVertex_of_ne hlen hx hz]
      exact h₂

/-- `EncodeVertex` keeps what a run keeps when every edge at its vertex is known to
    the other endpoint, or is in the new list and the list fits or the other record
    does not deny it. -/
theorem runInv_encodeVertex (hrec : IsRecord c (encodes.record x))
    (hothers : ∀ y, 1 ≤ y → y ≤ c.vertexSize → ∃ ids bs, IdList c ids ∧ IsRecord c bs ∧
      encodes.record y = encodeBits c ids bs)
    (hids : IdList c ids) {db : Db c.vertexSize}
    (hoff : ∀ y z, z ∈ db.get y → y ≠ x → z ≠ x → Covered c encodes y z)
    (hat : ∀ y ∈ db.get x, Knows c encodes y x ∨ (y ∈ ids ∧
      (ids.length ≤ maxIntSize c ∨ nonNeighborTest c encodes y x ≠ .nonNeighbor))) :
    RunInv c (encodeVertex c x ids encodes, db) := by
  have hedge : ∀ y ∈ db.get x, Covered c (encodeVertex c x ids encodes) x y := by
    intro y hy
    have hne : y ≠ x := fun heq => db.loopless x (heq ▸ hy)
    obtain ⟨hy₁, hy₂⟩ := db.range x y hy
    -- `y` knows `x`, or the new list of `x` names `y`
    rcases hat y hy with hknown | ⟨hmem, hfit | htest⟩
    · exact Or.inr (Or.inl (knows_encodeVertex_of_ne hlen hx hne hknown))
    · have hflag := getFlag_encodeBits hc.worded hids hrec
      have hspeaks := speaks_encodeBits hc.worded hids hrec hy₁ hy₂
      rw [decide_eq_true hfit] at hflag
      rw [hflag] at hspeaks
      left
      rw [Knows, nonNeighborTest, record_encodeVertex_self hlen hx]
      exact ⟨hflag, hspeaks.eq_neighbor hmem⟩
    · refine Or.inr (Or.inr ⟨?_, ?_⟩)
      · rw [nonNeighborTest, record_encodeVertex_self hlen hx]
        exact (speaks_encodeBits hc.worded hids hrec hy₁ hy₂).ne_nonNeighbor hmem
      · rw [nonNeighborTest_encodeVertex_of_ne hlen hx hne]
        exact htest
  refine ⟨by simp [encodeVertex, hlen], ?_, ?_⟩
  · intro y hy hy'
    by_cases hyx : y = x
    · subst hyx
      exact ⟨ids, encodes.record y, hids, hrec, record_encodeVertex_self hlen hx⟩
    · show ∃ ids bs, _ ∧ _ ∧ (encodeVertex c x _ encodes).record y = _
      rw [record_encodeVertex_of_ne hlen hx hyx]
      exact hothers y hy hy'
  · intro y z hz
    by_cases hyx : y = x
    · subst hyx
      exact hedge z hz
    · by_cases hzx : z = x
      · subst hzx
        exact (hedge y (db.symm _ _ hz)).symm
      · exact covered_encodeVertex_of_ne hlen hx hyx hzx (hoff y z hz hyx hzx)

end EncodeVertex

/-! ## Section 4: Insertion -/

omit hc in
/-- Words in front of empty ones are read back, but not when they are all of the record. -/
theorem getBlockInt_of_slots {bs : BitSetSIMD} {ids : List Nat} (hflag : getFlag bs = true)
    (hslots : slots c bs = ids ++ List.replicate (maxIntSize c - ids.length) 0)
    (hpos : ∀ id ∈ ids, id ≠ 0) :
    getBlockInt c bs = if ids.length < maxIntSize c then some ids else none := by
  rw [getBlockInt, if_pos hflag, hslots]
  by_cases hlt : ids.length < maxIntSize c
  · obtain ⟨n, hn⟩ : ∃ n, maxIntSize c - ids.length = n + 1 :=
      ⟨maxIntSize c - ids.length - 1, by omega⟩
    rw [if_pos hlt, hn, List.replicate_succ, if_pos (by simp),
      List.takeWhile_append_of_pos fun id hid => decide_eq_true (hpos id hid)]
    simp
  · -- every word holds an id
    rw [if_neg hlt, show maxIntSize c - ids.length = 0 by omega, List.replicate_zero,
      List.append_nil, if_neg fun hzero => hpos 0 hzero rfl]

omit hc in
/-- A record that holds its whole list gives it back when there is an empty word behind it. -/
theorem getBlockInt_encodeBits (hc : Worded c) {ids : List Nat} (hids : IdList c ids)
    (hfit : ids.length ≤ maxIntSize c) {bs : BitSetSIMD} (hbs : IsRecord c bs) :
    getBlockInt c (encodeBits c ids bs) =
      if ids.length < maxIntSize c then some (ids.insertionSort (· ≤ ·)) else none := by
  have hwords := wordRecord_encodeBits hc hids hfit hbs
  rw [getBlockInt_of_slots hwords.flag hwords.slots, List.length_insertionSort]
  intro id hid
  have := (hids id ((List.mem_insertionSort _).mp hid)).1
  omega

/-- A record with an empty last word gives back its list. -/
theorem getBlockInt_of_empty {ids : List Nat} (hids : IdList c ids) {bs : BitSetSIMD}
    (hbs : IsRecord c bs) (hflag : getFlag (encodeBits c ids bs) = true)
    (hword : word (encodeBits c ids bs) (maxIntSize c) = 0) :
    ids.length < maxIntSize c ∧
      getBlockInt c (encodeBits c ids bs) = some (ids.insertionSort (· ≤ ·)) := by
  have hm := maxIntSize_ge hc.worded
  have hfit : ids.length ≤ maxIntSize c := by
    rw [getFlag_encodeBits hc.worded hids hbs, decide_eq_true_eq] at hflag
    exact hflag
  have hblock := getBlockInt_encodeBits hc.worded hids hfit hbs
  have hlt : ids.length < maxIntSize c := by
    by_contra hge
    -- the empty word ends the search, and the list is not full
    have hlen : maxIntSize c - 1 < (slots c (encodeBits c ids bs)).length := by
      simp [slots]
      omega
    have hlast := getElem_slots hlen
    rw [show maxIntSize c - 1 + 1 = maxIntSize c by omega, hword] at hlast
    have hmem : (0 : Nat) ∈ slots c (encodeBits c ids bs) := hlast ▸ List.getElem_mem _
    rw [getBlockInt, if_pos hflag, if_pos hmem, if_neg hge] at hblock
    cases hblock
  rw [if_pos hlt] at hblock
  exact ⟨hlt, hblock⟩

omit hc in
theorem insertOrder_cases {s : UpdateState c} {u v a b : Nat}
    (h : insertOrder c s.1 u v = (a, b)) : (a = u ∧ b = v) ∨ (a = v ∧ b = u) := by
  unfold insertOrder at h
  split at h <;> simp only [Prod.mk.injEq] at h <;> omega

omit hc in
theorem getFlag_of_unFull {encodes : Records} {x : Nat}
    (h : getEncodeType c encodes x = .unFull) :
    getFlag (encodes.record x) = true ∧ word (encodes.record x) (maxIntSize c) = 0 := by
  unfold getEncodeType at h
  cases hflag : getFlag (encodes.record x) <;> simp_all

omit hc in
theorem getFlag_of_nonDecodable {encodes : Records} {x : Nat}
    (h : getEncodeType c encodes x = .nonDecodable) : getFlag (encodes.record x) = false := by
  unfold getEncodeType at h
  cases hflag : getFlag (encodes.record x) with
  | false => rfl
  | true =>
    rw [hflag] at h
    simp only [Bool.not_true, Bool.false_eq_true, if_false] at h
    split at h <;> cases h

/-- The list that `InsertPair` encodes: all it knows and the new neighbour. -/
theorem RunInv.neighbors {s : UpdateState c} (h : RunInv c s) {a b : Nat} (hpair : IsPair c a b)
    (hguard : getEncodeType c s.1 a = .unFull ∨ (getEncodeType c s.1 a = .nonDecodable ∧
      nonNeighborTest c s.1 b a ≠ .nonNeighbor)) :
    ∃ neighbors, getAllNeighbors c s.2.get a s.1 = some neighbors ∧ IdList c neighbors ∧
      ∀ y, (y = b ∨ y ∈ s.2.get a) → Knows c s.1 y a ∨ (y ∈ neighbors ++ [b] ∧
        ((neighbors ++ [b]).length ≤ maxIntSize c ∨
          nonNeighborTest c s.1 y a ≠ .nonNeighbor)) := by
  obtain ⟨ha, ha', hb, hb', hab⟩ := hpair
  obtain ⟨ids, bs, hids, hbs, heq⟩ := h.record a ha ha'
  rcases hguard with htype | ⟨htype, htest⟩
  · -- the record holds the whole list and has room
    obtain ⟨hflag, hword⟩ := getFlag_of_unFull htype
    rw [heq] at hflag hword
    obtain ⟨hlt, hblock⟩ := getBlockInt_of_empty hc hids hbs hflag hword
    refine ⟨ids.insertionSort (· ≤ ·), ?_, ?_, ?_⟩
    · rw [getAllNeighbors, heq, if_pos hflag, hblock]
    · exact fun id hid => hids id ((List.mem_insertionSort _).mp hid)
    · have hfit : (ids.insertionSort (· ≤ ·) ++ [b]).length ≤ maxIntSize c := by
        rw [List.length_append, List.length_insertionSort, List.length_singleton]
        omega
      rintro y (rfl | hy)
      · exact Or.inr ⟨by simp, Or.inl hfit⟩
      · obtain ⟨hy₁, hy₂⟩ := s.2.range a y hy
        have hspeaks := speaks_encodeBits hc.worded hids hbs hy₁ hy₂
        rw [← heq] at hspeaks hflag
        rw [hflag] at hspeaks
        have hstored : nonNeighborTest c s.1 a y = .neighbor → y ∈ ids :=
          hspeaks.stored_of_neighbor
        have hin : y ∈ ids → y ∈ ids.insertionSort (· ≤ ·) ++ [b] := fun hmem =>
          List.mem_append_left _ ((List.mem_insertionSort _).mpr hmem)
        rcases h.covered a y hy with ⟨-, hknown⟩ | hknown | ⟨hne, -⟩
        · exact Or.inr ⟨hin (hstored hknown), Or.inl hfit⟩
        · exact Or.inl hknown
        · -- a whole list is never uncertain
          have hunc : nonNeighborTest c s.1 a y ≠ .uncertain := hspeaks.ne_uncertain rfl
          have hnb : nonNeighborTest c s.1 a y = .neighbor := by
            cases hcase : nonNeighborTest c s.1 a y <;> simp_all
          exact Or.inr ⟨hin (hstored hnb), Or.inl hfit⟩
  · -- the record holds a window and the list comes from the database
    have hflag := getFlag_of_nonDecodable htype
    refine ⟨s.2.get a, ?_, s.2.range a, ?_⟩
    · rw [getAllNeighbors, if_neg (by simp [hflag])]
    · rintro y (rfl | hy)
      · exact Or.inr ⟨by simp, Or.inr htest⟩
      · rcases h.covered a y hy with ⟨hknown, -⟩ | hknown | ⟨-, hne⟩
        · rw [hflag] at hknown
          cases hknown
        · exact Or.inl hknown
        · exact Or.inr ⟨List.mem_append_left _ hy, Or.inr hne⟩

theorem RunInv.isRecord {s : UpdateState c} (h : RunInv c s) {x : Nat} (hx : 1 ≤ x)
    (hx' : x ≤ c.vertexSize) : IsRecord c (s.1.record x) := by
  obtain ⟨ids, bs, hids, hbs, heq⟩ := h.record x hx hx'
  rw [heq]
  exact isRecord_encodeBits hc.worded hids hbs

/-- A harmless call returns. -/
theorem RunInv.insertPair_isSome {s : UpdateState c} (h : RunInv c s) {u v : Nat}
    (hpair : IsPair c u v) (hguard : InsertHarmless c s (u, v)) :
    (insertPair c s.2.get u v s.1).isSome = true := by
  obtain ⟨a, b, horder, htypes⟩ := hguard
  have hpair' : IsPair c a b := hpair.of_ends (insertOrder_cases horder)
  obtain ⟨neighbors, hget, -, -⟩ := h.neighbors hc hpair' htypes
  simp [insertPair, horder, hget]

/-- One harmless `InsertPair`. -/
theorem RunInv.insert {s s' : UpdateState c} (h : RunInv c s) {pair : Nat × Nat}
    (hguard : InsertHarmless c s pair) (hstep : InsertStep c s pair s') : RunInv c s' := by
  obtain ⟨hpair, -, heq, hadds⟩ := hstep
  obtain ⟨a, b, horder, htypes⟩ := hguard
  obtain ⟨encodes, db⟩ := s'
  simp only at heq hadds
  have hcases := insertOrder_cases horder
  have hpair' : IsPair c a b := hpair.of_ends hcases
  -- the edges of the new graph, in the order of the call
  have hedges := fun x y => (hadds.of_ends hcases x y).mp
  obtain ⟨neighbors, hget, hids, hkeep⟩ := h.neighbors hc hpair' htypes
  obtain ⟨ha, ha', hb, hb', hab⟩ := hpair'
  simp only [insertPair, horder, hget, Option.bind_eq_bind, Option.bind_some, Option.pure_def,
    Option.some.injEq] at heq
  subst heq
  refine runInv_encodeVertex hc h.length ⟨ha, ha'⟩ (h.isRecord hc ha ha') h.record ?_ ?_ ?_
  · intro y hy
    rcases List.mem_append.mp hy with hy | hy
    · exact hids y hy
    · rw [List.mem_singleton.mp hy]
      exact ⟨hb, hb'⟩
  · intro y z hz hya hza
    rcases hedges y z hz with hold | ⟨heq, -⟩ | ⟨-, heq⟩
    · exact h.covered y z hold
    · exact absurd heq hya
    · exact absurd heq hza
  · intro y hy
    apply hkeep
    rcases hedges a y hy with hold | ⟨-, heq⟩ | ⟨heq, -⟩
    · exact Or.inr hold
    · exact Or.inl heq
    · exact absurd heq hab

/-- In every run of harmless insertions no edge of the current graph is denied, and
    every harmless call returns. -/
theorem insertPair_keeps_edges {s : UpdateState c}
    (h : Run.Reachable (Start c) (InsertStep c) (InsertHarmless c) s) :
    Safe c s ∧ ∀ u v, IsPair c u v → InsertHarmless c s (u, v) →
      (insertPair c s.2.get u v s.1).isSome = true := by
  have hinv : RunInv c s := h.invariant
    (fun _ hs => runInv_of_start hc hs)
    (fun _ _ _ hs hguard hstep => hs.insert hc hguard hstep)
  exact ⟨hinv.safe, fun u v hpair hguard => hinv.insertPair_isSome hc hpair hguard⟩

end

/-- Ten vertices and three words for each. -/
def threeWordConfig : Config := Config.ofSizes 3 10 2 (by decide)

theorem threeWordConfig_ranged : Ranged threeWordConfig where
  kSize_ge := by decide
  kSize_le := by decide
  vertexSize_lt := by decide

/-- Two vertices of degree 3, neither of which fits two words. -/
def twoStars : Graph 10 where
  adjacencyList := [[], [], [8, 9, 10], [5], [5], [3, 4, 10], [], [], [2], [2], [2, 5]]
  zero := by decide
  length := by decide
  range := by decide
  loopless := by decide
  nodup := by decide
  symm := by decide

/-- `twoStars` with the edge between 1 and 6. -/
def twoStarsAnd16 : Graph 10 where
  adjacencyList := [[], [6], [8, 9, 10], [5], [5], [3, 4, 10], [1], [], [2], [2], [2, 5]]
  zero := by decide
  length := by decide
  range := by decide
  loopless := by decide
  nodup := by decide
  symm := by decide

/-- `twoStarsAnd16` with the edge between 2 and 7. -/
def twoStarsAnd16And27 : Graph 10 where
  adjacencyList := [[], [6], [7, 8, 9, 10], [5], [5], [3, 4, 10], [1], [2], [2], [2], [2, 5]]
  zero := by decide
  length := by decide
  range := by decide
  loopless := by decide
  nodup := by decide
  symm := by decide

/-- `twoStars` with the edge between 2 and 5. -/
def twoStarsAnd25 : Graph 10 where
  adjacencyList := [[], [], [5, 8, 9, 10], [5], [5], [2, 3, 4, 10], [], [], [2], [2], [2, 5]]
  zero := by decide
  length := by decide
  range := by decide
  loopless := by decide
  nodup := by decide
  symm := by decide

/-- Every vertex of `twoStars` encoded from all its neighbours. -/
def twoStarsRecords : Records :=
  Records.writeAll threeWordConfig fun x => encodeBits threeWordConfig (twoStars.adj x)

theorem start_twoStars : Start threeWordConfig (twoStarsRecords, twoStars.db) := by
  refine ⟨twoStars.adj, Records.length_writeAll _ _, ?_, fun _ _ h => h, ?_⟩
  · intro x hx hx'
    exact ⟨_, isRecord_ofBitSize _, Records.record_writeAll _ hx hx'⟩
  · exact fun x y hy => Or.inl ⟨hy, twoStars.db.symm x y hy⟩

/-- The records of `twoStars` after the insertion of the edge 1-6. -/
def twoStarsRecords16 : Records :=
  (insertPair threeWordConfig twoStars.adj 1 6 twoStarsRecords).getD []

/-- Two vertices without neighbours, then one of them and a window. -/
theorem insertPair_keeps_edges_two : ∃ encodes,
    insertPair threeWordConfig twoStars.adj 1 6 twoStarsRecords = some twoStarsRecords16 ∧
    insertPair threeWordConfig twoStarsAnd16.adj 7 2 twoStarsRecords16 = some encodes ∧
    Safe threeWordConfig (encodes, twoStarsAnd16And27.db) := by
  have hrun₁ : (insertPair threeWordConfig twoStars.adj 1 6 twoStarsRecords).isSome = true := by
    decide +kernel
  have hrun₂ : (insertPair threeWordConfig twoStarsAnd16.adj 7 2 twoStarsRecords16).isSome =
      true := by decide +kernel
  have heq₁ : insertPair threeWordConfig twoStars.adj 1 6 twoStarsRecords =
      some twoStarsRecords16 := by
    obtain ⟨encodes, heq⟩ := Option.isSome_iff_exists.mp hrun₁
    rw [twoStarsRecords16, heq, Option.getD_some]
  obtain ⟨encodes, heq₂⟩ := Option.isSome_iff_exists.mp hrun₂
  have hstep₁ : InsertStep threeWordConfig (twoStarsRecords, twoStars.db) (1, 6)
      (twoStarsRecords16, twoStarsAnd16.db) :=
    ⟨by decide, by decide, heq₁, Graph.adds_of_forall_lt (by decide) (by decide) (by decide)⟩
  have hstep₂ : InsertStep threeWordConfig (twoStarsRecords16, twoStarsAnd16.db) (7, 2)
      (encodes, twoStarsAnd16And27.db) :=
    ⟨by decide, by decide, heq₂, Graph.adds_of_forall_lt (by decide) (by decide) (by decide)⟩
  have hguard₁ : InsertHarmless threeWordConfig (twoStarsRecords, twoStars.db) (1, 6) :=
    ⟨1, 6, by decide +kernel, Or.inl (by decide +kernel)⟩
  have hguard₂ : InsertHarmless threeWordConfig (twoStarsRecords16, twoStarsAnd16.db) (7, 2) :=
    ⟨7, 2, by decide +kernel, Or.inl (by decide +kernel)⟩
  exact ⟨encodes, heq₁, heq₂, (insertPair_keeps_edges threeWordConfig_ranged
    (.next (.next (.start start_twoStars) hguard₁ hstep₁) hguard₂ hstep₂)).1⟩

/-- Inserting `(5, 2)` re-encodes vertex 5, whose window leaves 2 uncertain; the
    window of vertex 2 still denies 5. -/
theorem insertPair_denies_window_edge :
    Ranged threeWordConfig ∧
    ∃ s, Run.Reachable (Start threeWordConfig) (InsertStep threeWordConfig) (fun _ _ => True) s ∧
      2 ∈ s.2.get 5 ∧ nePairTest threeWordConfig s.1 5 2 = .nonNeighbor ∧
      ¬ Safe threeWordConfig s := by
  have hrun : (insertPair threeWordConfig twoStars.adj 5 2 twoStarsRecords).map
      (fun encodes => nePairTest threeWordConfig encodes 5 2) = some .nonNeighbor := by
    decide +kernel
  obtain ⟨encodes, heq, hverdict⟩ := Option.map_eq_some_iff.mp hrun
  have hstep : InsertStep threeWordConfig (twoStarsRecords, twoStars.db) (5, 2)
      (encodes, twoStarsAnd25.db) :=
    ⟨by decide, by decide, heq, Graph.adds_of_forall_lt (by decide) (by decide) (by decide)⟩
  have hedge : 2 ∈ twoStarsAnd25.db.get 5 := by decide
  exact ⟨threeWordConfig_ranged, _, .next (.start start_twoStars) trivial hstep, hedge, hverdict,
    fun hsafe => hsafe 5 2 hedge hverdict⟩

end RangeEncode

end Vend
