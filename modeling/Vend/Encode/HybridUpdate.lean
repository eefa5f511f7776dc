import Vend.Encode.HybridVerdict
import Vend.Graph.Graph
import Vend.Lib.Run

/-! # Updates of the hybrid encoding

    `HybridEncode::InsertPair` and `HybridEncode::DeletePair`. Both re-encode
    endpoints from the database list, in place.

    A run starts from records written on cleared bits that cover the graph, as
    the peeling build leaves them; `db_` holds the current graph and is changed
    right after each call. The invariant of a run is `Safe`: no edge of the
    current graph is denied. Neither operation keeps it in general:

    * `InsertPair` appends the new neighbour at the end of the list, whatever its
      id, does not add the first endpoint to the list of the second, and
      re-encodes from the whole database list, which may turn a decodable record
      into an undecodable one.
    * `DeletePair` re-encodes the second endpoint when its record denies the
      edge, not when it knows it, and leaves old slots behind.

    `InsertHarmless` and `DeleteHarmless` are the steps on which this does no
    harm, and on which the calls of `EncodeVertex` return.
-/

namespace Vend

namespace HybridEncode

open BitSetSIMD

/-! ## Section 1: Model -/

/-- `IsFull(vertex)`. -/
def isFull (c : Config) (encodes : Records) (vertex : Nat) : Bool :=
  (encodes.record vertex).blockGet (c.perEncodeBitSize - c.vertexBitSize) c.vertexBitSize ≠ 0

/-- `GetEncodeType(vertex)`. -/
def getEncodeType (c : Config) (encodes : Records) (vertex : Nat) : EncodeType :=
  if !isDecodable encodes vertex then .nonDecodable
  else if isFull c encodes vertex then .full
  else .unFull

/-- The endpoints of `InsertPair` after the swap by encode type. -/
def insertOrder (c : Config) (encodes : Records) (vertex1 vertex2 : Nat) : Nat × Nat :=
  if (getEncodeType c encodes vertex2).val < (getEncodeType c encodes vertex1).val then
    (vertex2, vertex1)
  else (vertex1, vertex2)

/-- `InsertPair(vertex1, vertex2)`; `GetAllNeighbors` is `DbQuery`. -/
def insertPair (c : Config) (hsimd : Bool) (db : Nat → List Nat) (vertex1 vertex2 : Nat)
    (encodes : Records) : Option Records :=
  if nePairTest c hsimd encodes vertex1 vertex2 = .uncertain then some encodes
  else do
    let (vertex1, vertex2) := insertOrder c encodes vertex1 vertex2
    let neighbor2 := db vertex2
    let neighbor1 := db vertex1 ++ [vertex2]
    let encodes ← encodeVertexAt c vertex1 neighbor1 encodes
    encodeVertexAt c vertex2 neighbor2 encodes

/-- `RemoveNeighbor(vertex1, vertex2)`. -/
def removeNeighbor (c : Config) (db : Nat → List Nat) (vertex1 vertex2 : Nat)
    (encodes : Records) : Option Records :=
  encodeVertexAt c vertex1 ((db vertex1).filter (· ≠ vertex2)) encodes

/-- `DeletePair(vertex1, vertex2)`. The second test is `==` where the first is `!=`. -/
def deletePair (c : Config) (hsimd : Bool) (db : Nat → List Nat) (vertex1 vertex2 : Nat)
    (encodes : Records) : Option Records := do
  let encodes ←
    if nonNeighborTest c hsimd encodes vertex1 vertex2 ≠ .nonNeighbor then
      removeNeighbor c db vertex1 vertex2 encodes
    else some encodes
  if nonNeighborTest c hsimd encodes vertex2 vertex1 = .nonNeighbor then
    removeNeighbor c db vertex2 vertex1 encodes
  else some encodes

/-! ## Section 2: Runs -/

/-- Every record was written on cleared bits from a sorted list of neighbours, which are
    fewer than `EncodeVertex` can count, and for every edge both lists hold the other
    endpoint, or one of them does and its record is decodable. -/
structure Built (c : Config) (encodes : Records) (db : Db c.vertexSize)
    (lists : Nat → List Nat) : Prop where
  sorted : db.Sorted
  length : encodes.length = c.vertexSize + 1
  record : ∀ x, 1 ≤ x → x ≤ c.vertexSize →
    encodes.record x = encodeBits c (lists x) (ofBitSize c.perEncodeBitSize)
  lists_sub : ∀ x, ∀ y ∈ lists x, y ∈ db.get x
  lists_sorted : ∀ x, (lists x).Pairwise (· ≤ ·)
  lists_length : ∀ x, (lists x).length < 2 ^ 31
  covered : ∀ x y, y ∈ db.get x →
    (y ∈ lists x ∧ x ∈ lists y) ∨ (y ∈ lists x ∧ isDecodable encodes x = true) ∨
    (x ∈ lists y ∧ isDecodable encodes y = true)

/-- Every vertex encoded from its list, on cleared bits. -/
def encodeAll (c : Config) (lists : Nat → List Nat) : Records :=
  Records.writeAll c fun x => encodeBits c (lists x)

/-- The states in which a run starts. -/
def Start (c : Config) (s : UpdateState c) : Prop := ∃ lists, Built c s.1 s.2 lists

/-- `InsertPair(u, v)` on an absent pair, then `uv` is added to the database. -/
def InsertStep (c : Config) (hsimd : Bool) (s : UpdateState c) (pair : Nat × Nat)
    (s' : UpdateState c) : Prop :=
  IsPair c pair.1 pair.2 ∧ pair.2 ∉ s.2.get pair.1 ∧
    insertPair c hsimd s.2.get pair.1 pair.2 s.1 = some s'.1 ∧
    s.2.Adds pair.1 pair.2 s'.2 ∧ s'.2.Sorted

/-- No edge of the current graph is denied. -/
def Safe (c : Config) (hsimd : Bool) (s : UpdateState c) : Prop :=
  ∀ x y, y ∈ s.2.get x → nePairTest c hsimd s.1 x y ≠ .nonNeighbor

/-- What a run keeps. -/
structure RunInv (c : Config) (hsimd : Bool) (s : UpdateState c) : Prop where
  sorted : s.2.Sorted
  length : s.1.length = c.vertexSize + 1
  isRecord : ∀ x, 1 ≤ x → x ≤ c.vertexSize → IsRecord c (s.1.record x)
  safe : Safe c hsimd s

section

variable {c : Config} (hc : c.Packed) (hv : c.vertexSize + 1 < 2 ^ 32) {hsimd : Bool}
variable {s : UpdateState c}
include hc hv

omit hc hv in
theorem Built.idList {encodes : Records} {db : Db c.vertexSize} {lists : Nat → List Nat}
    (h : Built c encodes db lists) (x : Nat) : IdList c (lists x) :=
  fun y hy => db.range x y (h.lists_sub x y hy)

/-- A built state is safe. -/
theorem runInv_of_start (h : Start c s) : RunInv c hsimd s := by
  obtain ⟨lists, h⟩ := h
  refine ⟨h.sorted, h.length, ?_, ?_⟩
  · intro x hx hx'
    rw [h.record x hx hx']
    have hlen := h.lists_length x
    exact isRecord_encodeBits hc hv (h.idList x) (by omega) (isRecord_ofBitSize c)
  · intro x y hy
    have hspeaks : ∀ x y, 1 ≤ y → 1 ≤ x → x ≤ c.vertexSize →
        Speaks (isDecodable s.1 x) (y ∈ lists x) (nonNeighborTest c hsimd s.1 x y) := by
      intro x y hy hx hx'
      have hlen := h.lists_length x
      have := speaks_encodeBits_fresh hc hv (h.idList x) (h.lists_sorted x)
        (by omega) hsimd hy
      rwa [← h.record x hx hx'] at this
    obtain ⟨hy₁, hy₂⟩ := s.2.range x y hy
    obtain ⟨hx₁, hx₂⟩ := Db.mem_range_self hy
    rw [nePairTest_eq_combine]
    refine combine_ne_nonNeighbor (hspeaks x y hy₁ hx₁ hx₂) (hspeaks y x hx₁ hy₁ hy₂) ?_
    rcases h.covered x y hy with ⟨h₁, h₂⟩ | ⟨h₁, h₂⟩ | ⟨h₁, h₂⟩
    · exact Or.inr (Or.inr ⟨h₁, h₂⟩)
    · exact Or.inl ⟨h₂, h₁⟩
    · exact Or.inr (Or.inl ⟨h₂, h₁⟩)

/-- Encoding every vertex from a part of its neighbourhood gives a built state when
    every edge is in both lists or in one that fits. -/
theorem built_encodeAll {db : Db c.vertexSize} (hsorted : db.Sorted) {lists : Nat → List Nat}
    (hsub : ∀ x, (lists x).Sublist (db.get x)) (hlen : ∀ x, (lists x).length < 2 ^ 31)
    (hcover : ∀ x y, y ∈ db.get x → (y ∈ lists x ∧ x ∈ lists y) ∨
      (y ∈ lists x ∧ (lists x).length ≤ c.maxKCoreSize) ∨
      (x ∈ lists y ∧ (lists y).length ≤ c.maxKCoreSize)) :
    Built c (encodeAll c lists) db lists := by
  have hrecord : ∀ x, 1 ≤ x → x ≤ c.vertexSize →
      (encodeAll c lists).record x = encodeBits c (lists x) (ofBitSize c.perEncodeBitSize) :=
    fun x => Records.record_writeAll fun x => encodeBits c (lists x)
  have hdec : ∀ x y, y ∈ db.get x → (lists x).length ≤ c.maxKCoreSize →
      isDecodable (encodeAll c lists) x = true := by
    intro x y hy hfit
    obtain ⟨hx, hx'⟩ := Db.mem_range_self hy
    have hlong := hlen x
    rw [isDecodable, hrecord x hx hx', isOne_encodeBits hc hv
      (fun z hz => db.range x z ((hsub x).subset hz)) (by omega) (isRecord_ofBitSize c)]
    exact decide_eq_true hfit
  refine ⟨hsorted, Records.length_writeAll _ _, hrecord, fun x y hy => (hsub x).subset hy,
    fun x => ((hsorted x).sublist (hsub x)).imp Nat.le_of_lt, hlen, ?_⟩
  · intro x y hy
    rcases hcover x y hy with hboth | ⟨hmem, hfit⟩ | ⟨hmem, hfit⟩
    · exact Or.inl hboth
    · exact Or.inr (Or.inl ⟨hmem, hdec x y hy hfit⟩)
    · exact Or.inr (Or.inr ⟨hmem, hdec y x (db.symm x y hy) hfit⟩)

/-! ## Section 3: Rewriting one record in place -/

omit hc hv in
theorem nePairTest_comm (encodes : Records) (u v : Nat) :
    nePairTest c hsimd encodes u v = nePairTest c hsimd encodes v u := by
  rw [nePairTest_eq_combine, nePairTest_eq_combine, combine_comm]

omit hc hv in
/-- A decodable endpoint that knows the other one settles the verdict. -/
theorem nePairTest_of_known {encodes : Records} {x y : Nat}
    (hdec : isDecodable encodes x = true)
    (htest : nonNeighborTest c hsimd encodes x y = .neighbor) :
    nePairTest c hsimd encodes x y = .neighbor := by
  rw [nePairTest_eq_combine, hdec, htest, combine_true_neighbor]

omit hc hv in
theorem nePairTest_ne_of_ne {encodes : Records} {x y : Nat}
    (h₁ : nonNeighborTest c hsimd encodes x y ≠ .nonNeighbor)
    (h₂ : nonNeighborTest c hsimd encodes y x ≠ .nonNeighbor) :
    nePairTest c hsimd encodes x y ≠ .nonNeighbor := by
  rw [nePairTest_eq_combine]
  exact combine_ne_of_ne h₁ h₂

section EncodeVertex

variable {encodes : Records} {x : Nat} {ids : List Nat}
variable (hlen : encodes.length = c.vertexSize + 1)
variable (hrec : ∀ x, 1 ≤ x → x ≤ c.vertexSize → IsRecord c (encodes.record x))
variable (hx : 1 ≤ x ∧ x ≤ c.vertexSize) (hids : IdList c ids)
include hlen hx

omit hc hv in
theorem record_encodeVertex_self :
    (encodeVertex c x ids encodes).record x = encodeBits c ids (encodes.record x) := by
  rw [encodeVertex, Records.record_update _ _ (by omega), if_pos rfl]

omit hc hv in
theorem record_encodeVertex_of_ne {y : Nat} (hne : y ≠ x) :
    (encodeVertex c x ids encodes).record y = encodes.record y := by
  rw [encodeVertex, Records.record_update _ _ (by omega), if_neg hne]

omit hc hv in
theorem nonNeighborTest_encodeVertex_of_ne {y : Nat} (hne : y ≠ x) (z : Nat) :
    nonNeighborTest c hsimd (encodeVertex c x ids encodes) y z =
      nonNeighborTest c hsimd encodes y z := by
  rw [nonNeighborTest, nonNeighborTest, record_encodeVertex_of_ne hlen hx hne]

omit hc hv in
theorem isDecodable_encodeVertex_of_ne {y : Nat} (hne : y ≠ x) :
    isDecodable (encodeVertex c x ids encodes) y = isDecodable encodes y := by
  rw [isDecodable, isDecodable, record_encodeVertex_of_ne hlen hx hne]

include hrec hids

omit hv in
/-- A list that fits is known in full. -/
theorem known_encodeVertex (hfit : ids.length ≤ c.maxKCoreSize)
    (hsort : hsimd = true ∨ ids.Pairwise (· ≤ ·)) {y : Nat} (hy : y ∈ ids) :
    isDecodable (encodeVertex c x ids encodes) x = true ∧
      nonNeighborTest c hsimd (encodeVertex c x ids encodes) x y = .neighbor := by
  have hfull := fullRecord_encodeBits hc (hrec x hx.1 hx.2) hids hfit
  rw [isDecodable, nonNeighborTest, record_encodeVertex_self hlen hx]
  exact ⟨hfull.flag, hfull.testBits_of_mem hsort (hids y hy).1 hy⟩

/-- Why the edge `xy` outlives the rewriting of `x` from `ids`: the list fits and
    holds `y`; or it holds `y` and the record of `y` does not deny `x`; or the
    record of `y` knows `x`. -/
def Outlives (c : Config) (hsimd : Bool) (encodes : Records) (x : Nat) (ids : List Nat)
    (y : Nat) : Prop :=
  (y ∈ ids ∧ ids.length ≤ c.maxKCoreSize ∧ (hsimd = true ∨ ids.Pairwise (· ≤ ·))) ∨
  (y ∈ ids ∧ ids.Pairwise (· ≤ ·) ∧ nonNeighborTest c hsimd encodes y x ≠ .nonNeighbor) ∨
  (isDecodable encodes y = true ∧ nonNeighborTest c hsimd encodes y x = .neighbor)

/-- `EncodeVertex` keeps what a run keeps when it keeps every edge at its vertex. -/
theorem runInv_encodeVertex (hlen' : ids.length < 2 ^ 32 - 1) {db : Db c.vertexSize}
    (hsorted : db.Sorted)
    (hoff : ∀ y z, z ∈ db.get y → y ≠ x → z ≠ x → nePairTest c hsimd encodes y z ≠ .nonNeighbor)
    (hat : ∀ y ∈ db.get x, Outlives c hsimd encodes x ids y) :
    RunInv c hsimd (encodeVertex c x ids encodes, db) := by
  have hedge : ∀ y ∈ db.get x,
      nePairTest c hsimd (encodeVertex c x ids encodes) x y ≠ .nonNeighbor := by
    intro y hy
    have hne : y ≠ x := fun heq => db.loopless x (heq ▸ hy)
    -- `x` knows `y`, both are uncertain, or `y` knows `x`
    rcases hat y hy with ⟨hmem, hfit, hsort⟩ | ⟨hmem, hsort, htest⟩ | ⟨hdec, htest⟩
    · obtain ⟨hflag, hknown⟩ := known_encodeVertex hc hlen hrec hx hids hfit hsort hmem
      rw [nePairTest_of_known hflag hknown]
      simp
    · apply nePairTest_ne_of_ne
      · rw [nonNeighborTest, record_encodeVertex_self hlen hx]
        exact testBits_encodeBits_of_mem hc hv hids hsort hlen' (hrec x hx.1 hx.2) hsimd hmem
      · rw [nonNeighborTest_encodeVertex_of_ne hlen hx hne]
        exact htest
    · rw [nePairTest_comm, nePairTest_of_known]
      · simp
      · rw [isDecodable_encodeVertex_of_ne hlen hx hne, hdec]
      · rw [nonNeighborTest_encodeVertex_of_ne hlen hx hne, htest]
  refine ⟨hsorted, by simp [encodeVertex, hlen], ?_, ?_⟩
  · intro y hy hy'
    by_cases hyx : y = x
    · rw [hyx, record_encodeVertex_self hlen hx]
      exact isRecord_encodeBits hc hv hids hlen' (hrec x hx.1 hx.2)
    · rw [record_encodeVertex_of_ne hlen hx hyx]
      exact hrec y hy hy'
  · intro y z hz
    by_cases hyx : y = x
    · subst hyx
      exact hedge z hz
    · by_cases hzx : z = x
      · subst hzx
        rw [nePairTest_comm]
        exact hedge y (db.symm _ _ hz)
      · -- neither record is touched
        have hold := hoff y z hz hyx hzx
        rw [nePairTest_eq_combine] at hold ⊢
        rwa [isDecodable_encodeVertex_of_ne hlen hx hyx, isDecodable_encodeVertex_of_ne hlen hx hzx,
          nonNeighborTest_encodeVertex_of_ne hlen hx hyx,
          nonNeighborTest_encodeVertex_of_ne hlen hx hzx]

end EncodeVertex

omit hc in
theorem length_get_lt (db : Db c.vertexSize) (x : Nat) : (db.get x).length < 2 ^ 32 - 1 := by
  have := db.length_le x
  omega

/-! ## Section 4: Insertion -/

/-- A step of `InsertPair` that does no harm: nothing is written, or the first
    endpoint stays decodable and the new neighbour is the largest (with the
    vectorised search, any) of its list, and the second endpoint stays decodable
    or can be hashed and its neighbours know it. -/
def InsertHarmless (c : Config) (hsimd : Bool) (s : UpdateState c) (pair : Nat × Nat) : Prop :=
  nePairTest c hsimd s.1 pair.1 pair.2 = .uncertain ∨
  ∃ a b, insertOrder c s.1 pair.1 pair.2 = (a, b) ∧
    (s.2.get a).length < c.maxKCoreSize ∧
    (hsimd = true ∨ ∀ y ∈ s.2.get a, y < b) ∧
    ((s.2.get b).length ≤ c.maxKCoreSize ∨ (s.2.get b).length < 2 ^ 31 ∧
      ∀ y ∈ s.2.get b, nonNeighborTest c hsimd s.1 y b ≠ .nonNeighbor)

omit hc hv in
/-- The order of `InsertPair` only exchanges the endpoints. -/
theorem insertOrder_cases {u v a b : Nat} (h : insertOrder c s.1 u v = (a, b)) :
    (a = u ∧ b = v) ∨ (a = v ∧ b = u) := by
  unfold insertOrder at h
  split at h <;> simp only [Prod.mk.injEq] at h <;> omega

/-- The two calls of `EncodeVertex` in `InsertPair`, for a pair in the order in
    which they are made. -/
theorem RunInv.insert_ordered (h : RunInv c hsimd s) {a b : Nat} (hpair : IsPair c a b)
    {db : Db c.vertexSize} (hadds : s.2.Adds a b db) (hsorted : db.Sorted)
    (hshort : (s.2.get a).length < c.maxKCoreSize)
    (hlast : hsimd = true ∨ ∀ y ∈ s.2.get a, y < b)
    (hother : (s.2.get b).length ≤ c.maxKCoreSize ∨
      ∀ y ∈ s.2.get b, nonNeighborTest c hsimd s.1 y b ≠ .nonNeighbor) :
    RunInv c hsimd
      (encodeVertex c b (s.2.get b) (encodeVertex c a (s.2.get a ++ [b]) s.1), db) := by
  obtain ⟨ha, ha', hb, hb', hab⟩ := hpair
  have hidsa : IdList c (s.2.get a ++ [b]) := by
    intro y hy
    rcases List.mem_append.mp hy with hy | hy
    · exact s.2.range a y hy
    · rw [List.mem_singleton.mp hy]
      exact ⟨hb, hb'⟩
  have hfit : (s.2.get a ++ [b]).length ≤ c.maxKCoreSize := by
    rw [List.length_append, List.length_singleton]
    omega
  have hsorta : hsimd = true ∨ (s.2.get a ++ [b]).Pairwise (· ≤ ·) := by
    rcases hlast with hs | hlast
    · exact Or.inl hs
    · right
      rw [List.pairwise_append]
      refine ⟨(h.sorted a).imp Nat.le_of_lt, List.pairwise_singleton _ _, ?_⟩
      intro y hy z hz
      rw [List.mem_singleton.mp hz]
      exact Nat.le_of_lt (hlast y hy)
  have hlena : (s.2.get a ++ [b]).length < 2 ^ 32 - 1 := by
    have := hc.maxKCoreSize_lt
    omega
  -- the record of `a` now stores all its neighbours, the new one included
  have hfirst : RunInv c hsimd (encodeVertex c a (s.2.get a ++ [b]) s.1, db) := by
    refine runInv_encodeVertex hc hv h.length h.isRecord ⟨ha, ha'⟩ hidsa hlena hsorted ?_ ?_
    · intro y z hz hya hza
      rcases (hadds y z).mp hz with hold | ⟨heq, -⟩ | ⟨-, heq⟩
      · exact h.safe y z hold
      · exact absurd heq hya
      · exact absurd heq hza
    · intro y hy
      refine Or.inl ⟨?_, hfit, hsorta⟩
      rw [List.mem_append, List.mem_singleton]
      rcases (hadds a y).mp hy with hold | ⟨-, heq⟩ | ⟨heq, -⟩
      · exact Or.inl hold
      · exact Or.inr heq
      · exact absurd heq hab
  refine runInv_encodeVertex hc hv hfirst.length hfirst.isRecord ⟨hb, hb'⟩ (s.2.range b)
    (length_get_lt hv s.2 b) hsorted (fun y z hz _ _ => hfirst.safe y z hz) ?_
  intro y hy
  have hsortb : (s.2.get b).Pairwise (· ≤ ·) := (h.sorted b).imp Nat.le_of_lt
  by_cases hya : y = a
  · -- the new edge is known to `a`
    subst hya
    exact Or.inr (Or.inr (known_encodeVertex hc h.length h.isRecord ⟨ha, ha'⟩ hidsa hfit hsorta
      (List.mem_append_right _ (List.mem_singleton_self b))))
  · have hold : y ∈ s.2.get b := by
      rcases (hadds b y).mp hy with hold | ⟨heq, -⟩ | ⟨-, heq⟩
      · exact hold
      · exact absurd heq.symm hab
      · exact absurd heq hya
    rcases hother with hfitb | hother
    · exact Or.inl ⟨hold, hfitb, Or.inr hsortb⟩
    · refine Or.inr (Or.inl ⟨hold, hsortb, ?_⟩)
      rw [nonNeighborTest_encodeVertex_of_ne h.length ⟨ha, ha'⟩ hya]
      exact hother y hold

/-- A harmless `InsertPair` returns, and what a run keeps is kept over the new graph. -/
theorem RunInv.exists_insert (h : RunInv c hsimd s) {pair : Nat × Nat}
    (hpair : IsPair c pair.1 pair.2) (hguard : InsertHarmless c hsimd s pair) :
    ∃ encodes', insertPair c hsimd s.2.get pair.1 pair.2 s.1 = some encodes' ∧
      ∀ db, s.2.Adds pair.1 pair.2 db → db.Sorted → RunInv c hsimd (encodes', db) := by
  by_cases hunc : nePairTest c hsimd s.1 pair.1 pair.2 = .uncertain
  · -- nothing is written and the new edge is uncertain already
    refine ⟨s.1, by rw [insertPair, if_pos hunc], fun db hadds hsorted => ?_⟩
    refine ⟨hsorted, h.length, h.isRecord, ?_⟩
    intro x y hy
    rcases (hadds x y).mp hy with hold | ⟨rfl, rfl⟩ | ⟨rfl, rfl⟩
    · exact h.safe x y hold
    · rw [hunc]
      simp
    · rw [nePairTest_comm, hunc]
      simp
  · obtain ⟨a, b, horder, hshort, hlast, hother⟩ := hguard.resolve_left hunc
    -- the endpoints in the order in which they are written
    have hends := insertOrder_cases horder
    have hslots := hc.maxKCoreSize_lt
    obtain ⟨ha, ha', hb, hb', hab⟩ := hpair.of_ends hends
    have hlen : s.1.length = c.vertexSize + 1 := h.length
    have hfirst : encodeVertexAt c a (s.2.get a ++ [b]) s.1 =
        some (encodeVertex c a (s.2.get a ++ [b]) s.1) := by
      apply encodeVertexAt_eq_some (by omega)
      rw [List.length_append, List.length_singleton]
      omega
    have hsecond : encodeVertexAt c b (s.2.get b) (encodeVertex c a (s.2.get a ++ [b]) s.1) =
        some (encodeVertex c b (s.2.get b) (encodeVertex c a (s.2.get a ++ [b]) s.1)) := by
      apply encodeVertexAt_eq_some
      · rw [encodeVertex, Records.length_update]
        omega
      · rcases hother with hfit | ⟨hlt, -⟩ <;> omega
    refine ⟨encodeVertex c b (s.2.get b) (encodeVertex c a (s.2.get a ++ [b]) s.1), ?_, ?_⟩
    · rw [insertPair, if_neg hunc, horder]
      simp only [hfirst, hsecond, Option.bind_eq_bind, Option.bind_some]
    · intro db hadds hsorted
      exact h.insert_ordered hc hv ⟨ha, ha', hb, hb', hab⟩ (hadds.of_ends hends) hsorted hshort
        hlast (hother.imp_right And.right)

/-- In every run of harmless insertions no edge of the current graph is denied, and every
    harmless call returns. -/
theorem insertPair_safe (h : Run.Reachable (Start c) (InsertStep c hsimd)
    (InsertHarmless c hsimd) s) :
    Safe c hsimd s ∧ ∀ u v, IsPair c u v → InsertHarmless c hsimd s (u, v) →
      (insertPair c hsimd s.2.get u v s.1).isSome = true := by
  have hinv : RunInv c hsimd s := by
    refine h.invariant (fun _ hs => runInv_of_start hc hv hs) ?_
    rintro s pair ⟨encodes, db⟩ hs hguard ⟨hpair, -, heq, hadds, hsorted⟩
    obtain ⟨encodes', hcall, hkeep⟩ := hs.exists_insert hc hv hpair hguard
    obtain rfl : encodes' = encodes := Option.some.inj (hcall.symm.trans heq)
    exact hkeep db hadds hsorted
  refine ⟨hinv.safe, fun u v hpair hguard => ?_⟩
  obtain ⟨encodes', hcall, -⟩ := @RunInv.exists_insert c hc hv hsimd s hinv (u, v) hpair hguard
  exact Option.isSome_iff_exists.mpr ⟨encodes', hcall⟩

end

open RangeVend (tenConfig tenConfig_packed)

/-- The edge between 1 and 3. -/
def oneEdge : Graph 10 where
  adjacencyList := [[], [3], [], [1], [], [], [], [], [], [], []]
  zero := by decide
  length := by decide
  range := by decide
  loopless := by decide
  nodup := by decide
  symm := by decide

/-- The path 1, 3, 5. -/
def upPath : Graph 10 where
  adjacencyList := [[], [3], [], [1, 5], [], [3], [], [], [], [], []]
  zero := by decide
  length := by decide
  range := by decide
  loopless := by decide
  nodup := by decide
  symm := by decide

/-- The path 2, 1, 3. -/
def downPath : Graph 10 where
  adjacencyList := [[], [2, 3], [1], [1], [], [], [], [], [], [], []]
  zero := by decide
  length := by decide
  range := by decide
  loopless := by decide
  nodup := by decide
  symm := by decide

/-- The paths 1, 3, 5 and 3, 5, 8. -/
def longPath : Graph 10 where
  adjacencyList := [[], [3], [], [1, 5], [], [3, 8], [], [], [5], [], []]
  zero := by decide
  length := by decide
  range := by decide
  loopless := by decide
  nodup := by decide
  symm := by decide

theorem start_oneEdge : Start tenConfig (encodeAll tenConfig oneEdge.adj, oneEdge.db) := by
  have hshort : ∀ x < 11, (oneEdge.adj x).length < 2 ^ 31 := by decide
  refine ⟨oneEdge.adj, built_encodeAll (c := tenConfig) tenConfig_packed (by decide)
    (show oneEdge.db.Sorted from Graph.sorted_of_forall_lt (by decide))
    (fun _ => List.Sublist.refl _) ?_ (fun x y hy => Or.inl ⟨hy, oneEdge.db.symm x y hy⟩)⟩
  intro x
  rcases Nat.lt_or_ge x 11 with hx | hx
  · exact hshort x hx
  · rw [oneEdge.adj_of_lt (by omega)]
    decide

/-- Two insertions, `3 - 5` and `5 - 8`. -/
theorem insertPair_safe_path : ∃ first second,
    insertPair tenConfig false oneEdge.adj 3 5 (encodeAll tenConfig oneEdge.adj) = some first ∧
    insertPair tenConfig false upPath.adj 5 8 first = some second ∧
    Safe tenConfig false (second, longPath.db) := by
  have hstart : Run.Reachable (Start tenConfig) (InsertStep tenConfig false)
      (InsertHarmless tenConfig false) (encodeAll tenConfig oneEdge.adj, oneEdge.db) :=
    .start start_oneEdge
  have hguard : InsertHarmless tenConfig false
      (encodeAll tenConfig oneEdge.adj, oneEdge.db) (3, 5) :=
    Or.inr ⟨3, 5, by decide +kernel, by decide +kernel, Or.inr (by decide +kernel),
      Or.inl (by decide +kernel)⟩
  obtain ⟨first, hfirst⟩ := Option.isSome_iff_exists.mp
    ((insertPair_safe tenConfig_packed (by decide) hstart).2 3 5 (by decide) hguard)
  have hnext : Run.Reachable (Start tenConfig) (InsertStep tenConfig false)
      (InsertHarmless tenConfig false) (first, upPath.db) :=
    .next hstart hguard ⟨by decide, by decide, hfirst,
      Graph.adds_of_forall_lt (by decide) (by decide) (by decide),
      Graph.sorted_of_forall_lt (by decide)⟩
  -- the record of 8 is empty, so it is the first endpoint only when the types differ
  have horder : (insertPair tenConfig false oneEdge.adj 3 5 (encodeAll tenConfig oneEdge.adj)).map
      (fun encodes => insertOrder tenConfig encodes 5 8) = some (5, 8) := by
    decide +kernel
  rw [show insertPair tenConfig false oneEdge.adj 3 5 (encodeAll tenConfig oneEdge.adj) =
    some first from hfirst] at horder
  have hguard' : InsertHarmless tenConfig false (first, upPath.db) (5, 8) :=
    Or.inr ⟨5, 8, Option.some.inj horder,
      show (upPath.adj 5).length < tenConfig.maxKCoreSize by decide +kernel,
      Or.inr (show ∀ y ∈ upPath.adj 5, y < 8 by decide),
      Or.inl (show (upPath.adj 8).length ≤ tenConfig.maxKCoreSize by decide +kernel)⟩
  obtain ⟨second, hsecond⟩ := Option.isSome_iff_exists.mp
    ((insertPair_safe tenConfig_packed (by decide) hnext).2 5 8 (by decide) hguard')
  refine ⟨first, second, hfirst, hsecond, (insertPair_safe tenConfig_packed (by decide)
    (.next hnext hguard' ⟨by decide, show 8 ∉ upPath.adj 5 by decide, hsecond, ?_, ?_⟩)).1⟩
  · exact Graph.adds_of_forall_lt (by decide) (by decide) (by decide)
  · exact Graph.sorted_of_forall_lt (by decide)

/-- Inserting `(1, 2)` when 1 is adjacent to 3 leaves the list `[3, 2]` in the
    record of 1, where the search for 2 stops at 3. -/
theorem insertPair_denies_edge :
    tenConfig.Packed ∧
    ∃ s, Run.Reachable (Start tenConfig) (InsertStep tenConfig false) (fun _ _ => True) s ∧
      2 ∈ s.2.get 1 ∧ nePairTest tenConfig false s.1 1 2 = .nonNeighbor ∧
      ¬ Safe tenConfig false s := by
  have hrun : (insertPair tenConfig false oneEdge.adj 1 2 (encodeAll tenConfig oneEdge.adj)).map
      (fun encodes => nePairTest tenConfig false encodes 1 2) = some .nonNeighbor := by
    decide +kernel
  obtain ⟨encodes, hcall, hverdict⟩ := Option.map_eq_some_iff.mp hrun
  have hstep : InsertStep tenConfig false (encodeAll tenConfig oneEdge.adj, oneEdge.db) (1, 2)
      (encodes, downPath.db) :=
    ⟨by decide, by decide, hcall, Graph.adds_of_forall_lt (by decide) (by decide) (by decide),
      Graph.sorted_of_forall_lt (by decide)⟩
  have hedge : 2 ∈ downPath.db.get 1 := by decide
  exact ⟨tenConfig_packed, (encodes, downPath.db), .next (.start start_oneEdge) trivial hstep,
    hedge, hverdict, fun hsafe => hsafe 1 2 hedge hverdict⟩

/-! ## Section 5: Deletion -/

/-- The records, the graph and the pair deleted last. -/
abbrev DeleteState (c : Config) : Type := UpdateState c × Option (Nat × Nat)

/-- `DeletePair(u, v)` on an edge, then `uv` is removed from the database. -/
def DeleteStep (c : Config) (hsimd : Bool) (s : DeleteState c) (pair : Nat × Nat)
    (s' : DeleteState c) : Prop :=
  pair.2 ∈ s.1.2.get pair.1 ∧
    deletePair c hsimd s.1.2.get pair.1 pair.2 s.1.1 = some s'.1.1 ∧
    s.1.2.Removes pair.1 pair.2 s'.1.2 ∧ s'.1.2.Sorted ∧ s'.2 = some pair

/-- No remaining edge is denied and the pair deleted last is not affirmed. -/
def SafeForgotten (c : Config) (hsimd : Bool) (s : DeleteState c) : Prop :=
  Safe c hsimd s.1 ∧ ∀ pair, s.2 = some pair → nePairTest c hsimd s.1.1 pair.1 pair.2 ≠ .neighbor

/-- Removing `other` from the record of `x` does no harm: a list that fits leaves
    no old slot with `other` in reach of the search, and a list that does not fit can be
    hashed and no other neighbour of `x` denies it. -/
def RemoveHarmless (c : Config) (hsimd : Bool) (s : UpdateState c) (x other : Nat) : Prop :=
  (((s.2.get x).filter (· ≠ other)).length ≤ c.maxKCoreSize →
    ¬ StaleHit c hsimd ((s.2.get x).filter (· ≠ other)) (s.1.record x) other) ∧
  (c.maxKCoreSize < ((s.2.get x).filter (· ≠ other)).length →
    ((s.2.get x).filter (· ≠ other)).length < 2 ^ 31 ∧
    ∀ y ∈ (s.2.get x).filter (· ≠ other), nonNeighborTest c hsimd s.1 y x ≠ .nonNeighbor)

instance (c : Config) (hsimd : Bool) (s : UpdateState c) (x other : Nat) :
    Decidable (RemoveHarmless c hsimd s x other) :=
  inferInstanceAs (Decidable (
    (((s.2.get x).filter (· ≠ other)).length ≤ c.maxKCoreSize →
      ¬ StaleHit c hsimd ((s.2.get x).filter (· ≠ other)) (s.1.record x) other) ∧
    (c.maxKCoreSize < ((s.2.get x).filter (· ≠ other)).length →
      ((s.2.get x).filter (· ≠ other)).length < 2 ^ 31 ∧
      ∀ y ∈ (s.2.get x).filter (· ≠ other), nonNeighborTest c hsimd s.1 y x ≠ .nonNeighbor)))

/-- A step of `DeletePair` that does no harm. The second endpoint keeps its record
    when it knows the first, so then it must be undecodable and the first must
    become decodable. -/
structure DeleteHarmless (c : Config) (hsimd : Bool) (s : DeleteState c) (pair : Nat × Nat) :
    Prop where
  known : nonNeighborTest c hsimd s.1.1 pair.2 pair.1 = .neighbor →
    isDecodable s.1.1 pair.2 = false ∧
    nonNeighborTest c hsimd s.1.1 pair.1 pair.2 ≠ .nonNeighbor ∧
    ((s.1.2.get pair.1).filter (· ≠ pair.2)).length ≤ c.maxKCoreSize
  first : nonNeighborTest c hsimd s.1.1 pair.1 pair.2 ≠ .nonNeighbor →
    RemoveHarmless c hsimd s.1 pair.1 pair.2
  second : nonNeighborTest c hsimd s.1.1 pair.2 pair.1 = .nonNeighbor →
    RemoveHarmless c hsimd s.1 pair.2 pair.1

section

variable {c : Config} (hc : c.Packed) (hv : c.vertexSize + 1 < 2 ^ 32) {hsimd : Bool}
include hc hv

omit hc hv in
/-- The records that `RemoveNeighbor` leaves when it returns. -/
def removed (c : Config) (db : Nat → List Nat) (vertex1 vertex2 : Nat) (encodes : Records) :
    Records :=
  encodeVertex c vertex1 ((db vertex1).filter (· ≠ vertex2)) encodes

omit hv in
/-- It does so when its step does no harm. -/
theorem removeNeighbor_eq_some {encodes : Records} {db : Db c.vertexSize} {x other : Nat}
    (hlen : encodes.length = c.vertexSize + 1) (hx : x ≤ c.vertexSize)
    (hguard : RemoveHarmless c hsimd (encodes, db) x other) :
    removeNeighbor c db.get x other encodes = some (removed c db.get x other encodes) := by
  have hslots := hc.maxKCoreSize_lt
  apply encodeVertexAt_eq_some (by omega)
  rcases Nat.lt_or_ge c.maxKCoreSize ((db.get x).filter (· ≠ other)).length with hlong | hfit
  · exact (hguard.2 hlong).1
  · omega

/-- A rewritten record does not affirm an id outside its list. -/
theorem nonNeighborTest_removed {encodes : Records} {db : Db c.vertexSize} {x other : Nat}
    (hlen : encodes.length = c.vertexSize + 1)
    (hrec : ∀ x, 1 ≤ x → x ≤ c.vertexSize → IsRecord c (encodes.record x))
    (hx : 1 ≤ x ∧ x ≤ c.vertexSize) (hother : 1 ≤ other)
    (hguard : RemoveHarmless c hsimd (encodes, db) x other) :
    nonNeighborTest c hsimd (removed c db.get x other encodes) x other ≠ .neighbor := by
  intro htest
  have hids : IdList c ((db.get x).filter (· ≠ other)) :=
    fun y hy => db.range x y (List.mem_filter.mp hy).1
  have hnot : other ∉ (db.get x).filter (· ≠ other) := by simp
  rw [removed, nonNeighborTest, record_encodeVertex_self hlen hx] at htest
  by_cases hfit : ((db.get x).filter (· ≠ other)).length ≤ c.maxKCoreSize
  · have hfull := fullRecord_encodeBits hc (hrec x hx.1 hx.2) hids hfit
    rcases hfull.mem_or_staleHit hother htest with hmem | hstale
    · exact hnot hmem
    · exact hguard.1 hfit hstale
  · have hle := List.length_filter_le (fun y => decide (y ≠ other)) (db.get x)
    have hlen' := length_get_lt hv db x
    obtain ⟨type, before, block, after, heq, -, hblock⟩ :=
      holdsCandidate_encodeBits hc hids (by omega) hv (by omega) (hrec x hx.1 hx.2)
    rw [heq] at hnot
    exact hnot (testBits_block_neighbor hblock hother htest)

omit hc hv in
/-- `RemoveNeighbor` encodes from the list that the database holds next. -/
theorem filter_get_eq {db db' : Db c.vertexSize} {x other : Nat} (hsorted : db.Sorted)
    (hsorted' : db'.Sorted) (hget : ∀ y, y ∈ db'.get x ↔ y ∈ db.get x ∧ y ≠ other) :
    (db.get x).filter (· ≠ other) = db'.get x := by
  have hperm : ((db.get x).filter (· ≠ other)).Perm (db'.get x) := by
    rw [List.perm_ext_iff_of_nodup ((db.nodup x).filter _) (db'.nodup x)]
    intro y
    rw [hget, List.mem_filter, decide_eq_true_eq]
  have hanti : ∀ a b, a ∈ (db.get x).filter (· ≠ other) → b ∈ db'.get x → a < b → b < a →
      a = b := by
    intro a b _ _ hab hba
    omega
  exact List.Perm.eq_of_pairwise hanti ((hsorted x).filter _) (hsorted' x) hperm

/-- `RemoveNeighbor` keeps what a run keeps over the graph without the edge. -/
theorem RunInv.removed {encodes : Records} {db db' : Db c.vertexSize} {x other : Nat}
    (h : RunInv c hsimd (encodes, db')) (hsorted : db.Sorted)
    (hx : 1 ≤ x ∧ x ≤ c.vertexSize)
    (hget : ∀ y, y ∈ db'.get x ↔ y ∈ db.get x ∧ y ≠ other)
    (hguard : RemoveHarmless c hsimd (encodes, db) x other) :
    RunInv c hsimd (HybridEncode.removed c db.get x other encodes, db') := by
  have hsort : (db'.get x).Pairwise (· ≤ ·) := (h.sorted x).imp Nat.le_of_lt
  rw [RemoveHarmless] at hguard
  rw [HybridEncode.removed]
  simp only [filter_get_eq hsorted h.sorted hget] at hguard ⊢
  refine runInv_encodeVertex hc hv h.length h.isRecord hx (db'.range x) (length_get_lt hv db' x)
    h.sorted (fun y z hz _ _ => h.safe y z hz) ?_
  intro y hy
  by_cases hfit : (db'.get x).length ≤ c.maxKCoreSize
  · exact Or.inl ⟨hy, hfit, Or.inr hsort⟩
  · exact Or.inr (Or.inl ⟨hy, hsort, (hguard.2 (by omega)).2 y hy⟩)

omit hc hv in
/-- `RemoveNeighbor` elsewhere leaves the condition on `x` as it was, since the
    rewritten vertex is not among its remaining neighbours. -/
theorem RemoveHarmless.of_removed {encodes : Records} {db : Db c.vertexSize} {x other : Nat}
    (hlen : encodes.length = c.vertexSize + 1) (hother : 1 ≤ other ∧ other ≤ c.vertexSize)
    (hne : x ≠ other) (h : RemoveHarmless c hsimd (encodes, db) x other) :
    RemoveHarmless c hsimd (HybridEncode.removed c db.get other x encodes, db) x other := by
  constructor
  · intro hfit
    show ¬ StaleHit c hsimd _ ((encodeVertex c other _ encodes).record x) other
    rw [record_encodeVertex_of_ne hlen hother hne]
    exact h.1 hfit
  · intro hlong
    refine ⟨(h.2 hlong).1, fun y hy => ?_⟩
    have hyo : y ≠ other := by simpa using (List.mem_filter.mp hy).2
    show nonNeighborTest c hsimd (encodeVertex c other _ encodes) y x ≠ .nonNeighbor
    rw [nonNeighborTest_encodeVertex_of_ne hlen hother hyo]
    exact (h.2 hlong).2 y hy

omit hc hv in
/-- Forgetting an edge denies no other. -/
theorem RunInv.forget {encodes : Records} {db db' : Db c.vertexSize} {u v : Nat}
    (h : RunInv c hsimd (encodes, db)) (hremoves : db.Removes u v db') (hsorted : db'.Sorted) :
    RunInv c hsimd (encodes, db') :=
  ⟨hsorted, h.length, h.isRecord, fun x y hy => h.safe x y ((hremoves x y).mp hy).1⟩

/-- The second half of `DeletePair`, when the first endpoint no longer affirms the
    pair. -/
theorem RunInv.delete_second {encodes : Records} {db db' : Db c.vertexSize} {u v : Nat}
    (h : RunInv c hsimd (encodes, db')) (hsorted : db.Sorted) (hedge : v ∈ db.get u)
    (hremoves : db.Removes u v db')
    (htest : nonNeighborTest c hsimd encodes u v ≠ .neighbor)
    (hknown : nonNeighborTest c hsimd encodes v u = .neighbor →
      isDecodable encodes u = true ∧ isDecodable encodes v = false)
    (hguard : nonNeighborTest c hsimd encodes v u = .nonNeighbor →
      RemoveHarmless c hsimd (encodes, db) v u) :
    ∃ encodes', (if nonNeighborTest c hsimd encodes v u = .nonNeighbor then
        removeNeighbor c db.get v u encodes else some encodes) = some encodes' ∧
      RunInv c hsimd (encodes', db') ∧ nePairTest c hsimd encodes' u v ≠ .neighbor := by
  have hu := Db.mem_range_self hedge
  have hv' := db.range u v hedge
  have hne : u ≠ v := fun heq => db.loopless u (heq ▸ hedge)
  have hlen : encodes.length = c.vertexSize + 1 := h.length
  have hrec : ∀ x, 1 ≤ x → x ≤ c.vertexSize → IsRecord c (encodes.record x) := h.isRecord
  by_cases hdenied : nonNeighborTest c hsimd encodes v u = .nonNeighbor
  · have hget : ∀ y, y ∈ db'.get v ↔ y ∈ db.get v ∧ y ≠ u := by
      intro y
      rw [hremoves v y]
      simp [hne.symm]
    refine ⟨HybridEncode.removed c db.get v u encodes, ?_,
      h.removed hc hv hsorted hv' hget (hguard hdenied), ?_⟩
    · rw [if_pos hdenied, removeNeighbor_eq_some hc hlen hv'.2 (hguard hdenied)]
    · rw [nePairTest_eq_combine]
      refine combine_ne_neighbor ?_ (Or.inl ?_)
      · rw [HybridEncode.removed, nonNeighborTest_encodeVertex_of_ne hlen hv' hne]
        exact htest
      · exact nonNeighborTest_removed hc hv hlen hrec hv' hu.1 (hguard hdenied)
  · refine ⟨encodes, if_neg hdenied, h, ?_⟩
    rw [nePairTest_eq_combine]
    refine combine_ne_neighbor htest ?_
    by_cases hknows : nonNeighborTest c hsimd encodes v u = .neighbor
    · exact Or.inr (hknown hknows)
    · exact Or.inl hknows

/-- A harmless `DeletePair` returns, and what a run keeps is kept over the graph without the
    edge. -/
theorem RunInv.delete {encodes : Records} {db db' : Db c.vertexSize} {last : Option (Nat × Nat)}
    {u v : Nat} (h : RunInv c hsimd (encodes, db)) (hedge : v ∈ db.get u)
    (hguard : DeleteHarmless c hsimd ((encodes, db), last) (u, v))
    (hremoves : db.Removes u v db') (hsorted' : db'.Sorted) :
    ∃ encodes', deletePair c hsimd db.get u v encodes = some encodes' ∧
      RunInv c hsimd (encodes', db') ∧ nePairTest c hsimd encodes' u v ≠ .neighbor := by
  have hu := Db.mem_range_self hedge
  have hv' := db.range u v hedge
  have hne : u ≠ v := fun heq => db.loopless u (heq ▸ hedge)
  have hlen : encodes.length = c.vertexSize + 1 := h.length
  have hrec : ∀ x, 1 ≤ x → x ≤ c.vertexSize → IsRecord c (encodes.record x) := h.isRecord
  have hbase := h.forget hremoves hsorted'
  obtain ⟨hknown, hfirst, hsecond⟩ := hguard
  simp only at hknown hfirst hsecond
  by_cases hkept : nonNeighborTest c hsimd encodes u v ≠ .nonNeighbor
  · -- the first endpoint is rewritten, the record of the second is untouched
    have hharm := hfirst hkept
    have hget : ∀ y, y ∈ db'.get u ↔ y ∈ db.get u ∧ y ≠ v := by
      intro y
      rw [hremoves u y]
      simp [hne]
    have hsame : ∀ z, nonNeighborTest c hsimd (HybridEncode.removed c db.get u v encodes)
        v z = nonNeighborTest c hsimd encodes v z := by
      intro z
      rw [HybridEncode.removed, nonNeighborTest_encodeVertex_of_ne hlen hu hne.symm]
    have hknown' : nonNeighborTest c hsimd (HybridEncode.removed c db.get u v encodes) v u =
        .neighbor → isDecodable (HybridEncode.removed c db.get u v encodes) u = true ∧
          isDecodable (HybridEncode.removed c db.get u v encodes) v = false := by
      intro hknows
      rw [hsame] at hknows
      obtain ⟨hdec, -, hfit⟩ := hknown hknows
      rw [HybridEncode.removed, isDecodable_encodeVertex_of_ne hlen hu hne.symm]
      refine ⟨?_, hdec⟩
      have hids : IdList c ((db.get u).filter (· ≠ v)) :=
        fun y hy => db.range u y (List.mem_filter.mp hy).1
      rw [isDecodable, record_encodeVertex_self hlen hu]
      exact (fullRecord_encodeBits hc (hrec u hu.1 hu.2) hids hfit).flag
    obtain ⟨encodes', hcall, hkeep⟩ := (hbase.removed hc hv h.sorted hu hget hharm).delete_second
      hc hv h.sorted hedge hremoves (nonNeighborTest_removed hc hv hlen hrec hu hv'.1 hharm) hknown'
      fun hdenied => (hsecond (hsame u ▸ hdenied)).of_removed hlen hu hne.symm
    refine ⟨encodes', ?_, hkeep⟩
    simp only [deletePair, if_pos hkept, removeNeighbor_eq_some hc hlen hu.2 hharm,
      Option.bind_eq_bind, Option.bind_some]
    exact hcall
  · have hdenied : nonNeighborTest c hsimd encodes u v = .nonNeighbor := by simpa using hkept
    obtain ⟨encodes', hcall, hkeep⟩ := hbase.delete_second hc hv h.sorted hedge hremoves
      (by rw [hdenied]; simp) (fun hknows => absurd hdenied (hknown hknows).2.1) hsecond
    refine ⟨encodes', ?_, hkeep⟩
    simp only [deletePair, if_neg hkept, Option.bind_eq_bind, Option.bind_some]
    exact hcall

/-- In every run of harmless deletions no remaining edge is denied, the pair deleted last is
    not affirmed, and every harmless call returns. -/
theorem deletePair_safe {s : DeleteState c}
    (h : Run.Reachable (fun s => Start c s.1 ∧ s.2 = none) (DeleteStep c hsimd)
      (DeleteHarmless c hsimd) s) :
    SafeForgotten c hsimd s ∧ ∀ u v, v ∈ s.1.2.get u → DeleteHarmless c hsimd s (u, v) →
      (deletePair c hsimd s.1.2.get u v s.1.1).isSome = true := by
  have hinv : RunInv c hsimd s.1 ∧ SafeForgotten c hsimd s := by
    refine h.invariant (P := fun s => RunInv c hsimd s.1 ∧ SafeForgotten c hsimd s) ?_ ?_
    · rintro s ⟨hs, hnone⟩
      have hinv : RunInv c hsimd s.1 := runInv_of_start hc hv hs
      exact ⟨hinv, hinv.safe, fun pair hpair => by simp [hnone] at hpair⟩
    · rintro s ⟨u, v⟩ ⟨⟨encodes, db⟩, last⟩ ⟨hs, -⟩ hguard ⟨hedge, heq, hremoves, hsorted, hlast⟩
      obtain ⟨encodes', hcall, hkeep, hforgot⟩ := hs.delete hc hv hedge hguard hremoves hsorted
      obtain rfl : encodes' = encodes := Option.some.inj (hcall.symm.trans heq)
      refine ⟨hkeep, hkeep.safe, fun pair hpair => ?_⟩
      obtain rfl : (u, v) = pair := Option.some.inj (hlast.symm.trans hpair)
      exact hforgot
  refine ⟨hinv.2, fun u v hedge hguard => ?_⟩
  obtain ⟨encodes', hcall, -⟩ := hinv.1.delete hc hv hedge hguard
    (Db.removes_remove s.1.2 u v) fun x => (hinv.1.sorted x).filter _
  exact Option.isSome_iff_exists.mpr ⟨encodes', hcall⟩

end

/-- Vertex 1 with the neighbours 2 and 5. -/
def fork : Graph 10 where
  adjacencyList := [[], [2, 5], [1], [], [], [1], [], [], [], [], []]
  zero := by decide
  length := by decide
  range := by decide
  loopless := by decide
  nodup := by decide
  symm := by decide

/-- The edge between 1 and 5. -/
def forkRest : Graph 10 where
  adjacencyList := [[], [5], [], [], [], [1], [], [], [], [], []]
  zero := by decide
  length := by decide
  range := by decide
  loopless := by decide
  nodup := by decide
  symm := by decide

/-- The peeled lists of `fork`: only vertex 1 stores its neighbours. -/
def forkLists (x : Nat) : List Nat := if x = 1 then [2, 5] else []

theorem start_fork : Start tenConfig (encodeAll tenConfig forkLists, fork.db) := by
  refine ⟨forkLists, built_encodeAll (c := tenConfig) tenConfig_packed (by decide)
    (show fork.db.Sorted from Graph.sorted_of_forall_lt (by decide)) ?_ ?_ ?_⟩
  · intro x
    by_cases hx : x = 1
    · subst hx
      exact List.Sublist.refl _
    · rw [forkLists, if_neg hx]
      exact List.nil_sublist _
  · intro x
    rw [forkLists]
    split <;> decide
  · -- every edge is at vertex 1, whose list fits
    have key : ∀ x < 11, ∀ y ∈ fork.adj x, y ∈ forkLists x ∨ x ∈ forkLists y := by decide
    have hfit : ∀ x, (forkLists x).length ≤ tenConfig.maxKCoreSize := by
      intro x
      by_cases hx : x = 1
      · rw [forkLists, if_pos hx]
        decide
      · rw [forkLists, if_neg hx]
        exact Nat.zero_le _
    intro x y hy
    have hx : 1 ≤ x ∧ x ≤ 10 := Db.mem_range_self hy
    rcases key x (by omega) y hy with hmem | hmem
    · exact Or.inr (Or.inl ⟨hmem, hfit x⟩)
    · exact Or.inr (Or.inr ⟨hmem, hfit y⟩)

theorem deletePair_safe_fork : ∃ encodes,
    deletePair tenConfig false fork.adj 1 2 (encodeAll tenConfig forkLists) = some encodes ∧
    SafeForgotten tenConfig false ((encodes, forkRest.db), some (1, 2)) := by
  have hstart : Run.Reachable (fun s => Start tenConfig s.1 ∧ s.2 = none)
      (DeleteStep tenConfig false) (DeleteHarmless tenConfig false)
      ((encodeAll tenConfig forkLists, fork.db), none) := .start ⟨start_fork, rfl⟩
  have hguard : DeleteHarmless tenConfig false
      ((encodeAll tenConfig forkLists, fork.db), none) (1, 2) :=
    ⟨by decide +kernel, by decide +kernel, by decide +kernel⟩
  have hedge : 2 ∈ fork.adj 1 := by decide
  obtain ⟨encodes, hcall⟩ := Option.isSome_iff_exists.mp
    ((deletePair_safe tenConfig_packed (by decide) hstart).2 1 2 hedge hguard)
  have hstep : DeleteStep tenConfig false ((encodeAll tenConfig forkLists, fork.db), none) (1, 2)
      ((encodes, forkRest.db), some (1, 2)) :=
    ⟨hedge, hcall, Graph.removes_of_forall_lt (by decide),
      Graph.sorted_of_forall_lt (by decide), rfl⟩
  exact ⟨encodes, hcall,
    (deletePair_safe tenConfig_packed (by decide) (.next hstart hguard hstep)).1⟩

/-- Ten vertices and no edge. -/
def noEdge : Graph 10 where
  adjacencyList := List.replicate 11 []
  zero := by decide
  length := by decide
  range := by decide
  loopless := by decide
  nodup := by decide
  symm := by decide

/-- Deleting the only edge of vertex 1 writes no slot of its record, where 3 stays,
    and leaves the record of 3 alone. -/
theorem deletePair_affirms_deleted :
    tenConfig.Packed ∧
    ∃ s, Run.Reachable (fun s => Start tenConfig s.1 ∧ s.2 = none) (DeleteStep tenConfig false)
        (fun _ _ => True) s ∧
      s.2 = some (1, 3) ∧ nePairTest tenConfig false s.1.1 1 3 = .neighbor ∧
      ¬ SafeForgotten tenConfig false s := by
  have hrun : (deletePair tenConfig false oneEdge.adj 1 3 (encodeAll tenConfig oneEdge.adj)).map
      (fun encodes => nePairTest tenConfig false encodes 1 3) = some .neighbor := by
    decide +kernel
  obtain ⟨encodes, hcall, hverdict⟩ := Option.map_eq_some_iff.mp hrun
  have hstep : DeleteStep tenConfig false ((encodeAll tenConfig oneEdge.adj, oneEdge.db), none)
      (1, 3) ((encodes, noEdge.db), some (1, 3)) :=
    ⟨by decide, hcall, Graph.removes_of_forall_lt (by decide),
      Graph.sorted_of_forall_lt (by decide), rfl⟩
  exact ⟨tenConfig_packed, ((encodes, noEdge.db), some (1, 3)),
    .next (.start ⟨start_oneEdge, rfl⟩) trivial hstep, rfl, hverdict,
    fun hsafe => hsafe.2 (1, 3) rfl hverdict⟩

end HybridEncode

end Vend
