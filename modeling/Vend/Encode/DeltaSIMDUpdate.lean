import Vend.Encode.ReadBack
import Vend.Lib.Run

/-! # Updates of a `V3` filter

    `InsertPair` and `DeletePair` of `DeltaSIMDEncodeV3` call `EncodeVertex` on the record
    of one endpoint, or of both, with the list that `db_` holds. The record is not cleared,
    and an inserted id is appended to the list.

    A run starts from records that lose no edge, and `db_` is changed right after each call.
    A call that rewrites the record of a vertex is harmless when the new record answers for
    the new list (`ReadsBack`), and when it is either decodable or the record of no other
    endpoint, on which the answer then depends, denies the pair (`Rewritable`). Three things
    go wrong otherwise:

    * a decodable record grows out of its bytes and keeps its flag;
    * the appended id stands in front of others, and the codec cannot search the list;
    * of two undecodable records only the second learns of the new edge.
-/

namespace Vend

open BitSetSIMD DeltaSIMDCodecV3

namespace DeltaSIMDEncodeV3

open DeltaSIMDEncode (Codec codecV3 codecV3SIMD maxBytesLen isDecodable nePairTest
  nePairTest_eq_combine)

/-! ## Section 1: Model -/

/-- `codec_`, whose search depends on `HSIMD`. -/
def codec (hsimd : Bool) : Codec := if hsimd then codecV3SIMD else codecV3

/-- The endpoints of `InsertPair` after the swap: the decodable one comes first. -/
def insertOrder (encodes : Records) (vertex1 vertex2 : Nat) : Nat × Nat :=
  if isDecodable encodes vertex1 < isDecodable encodes vertex2 then (vertex2, vertex1)
  else (vertex1, vertex2)

/-- `InsertPair(vertex1, vertex2)`. `GetAllNeighbors` asks the database in either case. -/
def insertPair (c : Config) (hsimd : Bool) (tail : Nat → Nat → Byte) (db : Nat → List Nat)
    (vertex1 vertex2 : Nat) (encodes : Records) : Records :=
  if nePairTest c (codec hsimd) tail encodes vertex1 vertex2 = .uncertain then encodes
  else
    let (vertex1, vertex2) := insertOrder encodes vertex1 vertex2
    if isDecodable encodes vertex1 then encodeVertex c vertex1 (db vertex1 ++ [vertex2]) encodes
    else encodeVertex c vertex2 (db vertex2 ++ [vertex1]) encodes

/-- `RemoveNeighbor(vertex1, vertex2)`. -/
def removeNeighbor (c : Config) (db : Nat → List Nat) (vertex1 vertex2 : Nat) (encodes : Records) :
    Records :=
  encodeVertex c vertex1 ((db vertex1).filter (· ≠ vertex2)) encodes

/-- `DeletePair(vertex1, vertex2)`. The second test is the other way round. -/
def deletePair (c : Config) (hsimd : Bool) (tail : Nat → Nat → Byte) (db : Nat → List Nat)
    (vertex1 vertex2 : Nat) (encodes : Records) : Records :=
  let encodes :=
    if nonNeighborTest c hsimd (tail vertex1) encodes vertex1 vertex2 ≠ .nonNeighbor then
      removeNeighbor c db vertex1 vertex2 encodes
    else encodes
  if nonNeighborTest c hsimd (tail vertex2) encodes vertex2 vertex1 = .nonNeighbor then
    removeNeighbor c db vertex2 vertex1 encodes
  else encodes

/-! ## Section 2: Runs -/

/-- A call, and the memory that stands behind the records meanwhile. -/
inductive UpdateCall where
  | insertPair (tail : Nat → Nat → Byte) (vertex1 vertex2 : Nat)
  | deletePair (tail : Nat → Nat → Byte) (vertex1 vertex2 : Nat)

/-- Every record was written from a sorted list of neighbours, and for every edge both
    lists hold the other endpoint, or one of them does and fits. -/
structure Built (c : Config) (encodes : Records) (db : Db c.vertexSize)
    (lists : Nat → List Nat) : Prop where
  length : encodes.length = c.vertexSize + 1
  record : ∀ x, 1 ≤ x → x ≤ c.vertexSize →
    encodes.record x = encodeBits c (lists x) (ofBitSize c.perEncodeBitSize)
  lists_sorted : ∀ x, (lists x).Pairwise (· < ·)
  lists_sub : ∀ x, ∀ y ∈ lists x, y ∈ db.get x
  covered : ∀ x y, y ∈ db.get x →
    (y ∈ lists x ∧ x ∈ lists y) ∨
    (y ∈ lists x ∧ getRequiredBytes (lists x) ≤ maxBytesLen c) ∨
    (x ∈ lists y ∧ getRequiredBytes (lists y) ≤ maxBytesLen c)

section Runs

variable (c : Config) (hsimd : Bool) (behind : Set (Nat → Nat → Byte))

/-- No edge of the current graph is denied, whichever memory of `behind` stands behind the
    records. -/
def Safe (s : UpdateState c) : Prop :=
  ∀ tail ∈ behind, ∀ x y, y ∈ s.2.get x →
    nePairTest c (codec hsimd) tail s.1 x y ≠ .nonNeighbor

/-- The states in which a run starts. -/
def Start (s : UpdateState c) : Prop :=
  s.2.Sorted ∧ (∃ lists, Built c s.1 s.2 lists) ∧ Safe c hsimd behind s

/-- `InsertPair` on an absent pair or `DeletePair` on an edge, then the database is changed. -/
def UpdateStep (s : UpdateState c) (call : UpdateCall) (s' : UpdateState c) : Prop :=
  s'.2.Sorted ∧
  match call with
  | .insertPair tail u v =>
    tail ∈ behind ∧ IsPair c u v ∧ v ∉ s.2.get u ∧
      s'.1 = insertPair c hsimd tail s.2.get u v s.1 ∧ s.2.Adds u v s'.2
  | .deletePair tail u v =>
    tail ∈ behind ∧ v ∈ s.2.get u ∧
      s'.1 = deletePair c hsimd tail s.2.get u v s.1 ∧ s.2.Removes u v s'.2

/-- The record of `a` can take the list: it answers for all of it, and it is decodable then,
    or it was not decodable before and no other endpoint outside the block that is not
    decodable either denies `a`. -/
def Rewritable (encodes : Records) (a : Nat) (ids : List Nat) : Prop :=
  ReadsBack c ids ∧
    (getRequiredBytes ids ≤ maxBytesLen c ∨
      isDecodable encodes a = false ∧ ∀ z ∈ ids, isDecodable encodes z = false →
        z ∈ (dynamicChoose c ids).inside ids ∨
        ∀ tail ∈ behind, nonNeighborTest c hsimd (tail z) encodes z a ≠ .nonNeighbor)

/-- The vertex that `InsertPair` encodes and the id that it appends. -/
def insertTarget (encodes : Records) (u v : Nat) : Nat × Nat :=
  let (u, v) := insertOrder encodes u v
  if isDecodable encodes u then (u, v) else (v, u)

/-- A call that does no harm: what it rewrites can be rewritten. An insertion that returns at
    once finds the pair not denied. -/
def Harmless (s : UpdateState c) : UpdateCall → Prop
  | .insertPair tail u v =>
    if nePairTest c (codec hsimd) tail s.1 u v = .uncertain then
      ∀ tail ∈ behind, nePairTest c (codec hsimd) tail s.1 u v ≠ .nonNeighbor
    else
      let (a, b) := insertTarget s.1 u v
      Rewritable c hsimd behind s.1 a (s.2.get a ++ [b])
  | .deletePair tail u v =>
    (nonNeighborTest c hsimd (tail u) s.1 u v ≠ .nonNeighbor →
      Rewritable c hsimd behind s.1 u ((s.2.get u).filter (· ≠ v))) ∧
    (nonNeighborTest c hsimd (tail v) s.1 v u = .nonNeighbor →
      Rewritable c hsimd behind s.1 v ((s.2.get v).filter (· ≠ u)))

/-- What a run keeps. -/
structure RunInv (s : UpdateState c) : Prop where
  length : s.1.length = c.vertexSize + 1
  isRecord : ∀ x, 1 ≤ x → x ≤ c.vertexSize → IsRecord c (s.1.record x)
  safe : Safe c hsimd behind s

end Runs

theorem nePairTest_eq (c : Config) (hsimd : Bool) (tail : Nat → Nat → Byte) (encodes : Records)
    (u v : Nat) :
    nePairTest c (codec hsimd) tail encodes u v =
      combine (isDecodable encodes u) (isDecodable encodes v)
        (nonNeighborTest c hsimd (tail u) encodes u v)
        (nonNeighborTest c hsimd (tail v) encodes v u) :=
  nePairTest_eq_combine c (codec hsimd) tail encodes u v

theorem nePairTest_comm (c : Config) (hsimd : Bool) (tail : Nat → Nat → Byte) (encodes : Records)
    (u v : Nat) :
    nePairTest c (codec hsimd) tail encodes u v = nePairTest c (codec hsimd) tail encodes v u := by
  rw [nePairTest_eq, nePairTest_eq, combine_comm]

/-! ## Section 3: Rewriting one record -/

section EncodeVertex

variable {c : Config} {hsimd : Bool} {behind : Set (Nat → Nat → Byte)} {encodes : Records}
variable {a : Nat} {ids : List Nat}

section

variable (hlen : encodes.length = c.vertexSize + 1) (ha : a ≤ c.vertexSize)
include hlen ha

theorem record_encodeVertex_self :
    (encodeVertex c a ids encodes).record a = encodeBits c ids (encodes.record a) := by
  rw [encodeVertex, Records.record_update _ _ (by omega), if_pos rfl]

theorem record_encodeVertex_of_ne {x : Nat} (hne : x ≠ a) :
    (encodeVertex c a ids encodes).record x = encodes.record x := by
  rw [encodeVertex, Records.record_update _ _ (by omega), if_neg hne]

theorem isDecodable_encodeVertex_of_ne {x : Nat} (hne : x ≠ a) :
    isDecodable (encodeVertex c a ids encodes) x = isDecodable encodes x := by
  rw [isDecodable, record_encodeVertex_of_ne hlen ha hne, isDecodable]

theorem nonNeighborTest_encodeVertex_of_ne {x : Nat} (hne : x ≠ a) (tail : Nat → Byte) (w : Nat) :
    nonNeighborTest c hsimd tail (encodeVertex c a ids encodes) x w =
      nonNeighborTest c hsimd tail encodes x w := by
  rw [nonNeighborTest, record_encodeVertex_of_ne hlen ha hne, nonNeighborTest]

theorem nePairTest_encodeVertex_of_ne {x y : Nat} (hx : x ≠ a) (hy : y ≠ a)
    (tail : Nat → Nat → Byte) :
    nePairTest c (codec hsimd) tail (encodeVertex c a ids encodes) x y =
      nePairTest c (codec hsimd) tail encodes x y := by
  rw [nePairTest_eq, nePairTest_eq, isDecodable_encodeVertex_of_ne hlen ha hx,
    isDecodable_encodeVertex_of_ne hlen ha hy, nonNeighborTest_encodeVertex_of_ne hlen ha hx,
    nonNeighborTest_encodeVertex_of_ne hlen ha hy]

/-- The guard reads the records of the vertex and of the list only. -/
theorem Rewritable.of_encodeVertex {b : Nat} {ids' : List Nat} (hb : b ≠ a) (hids : a ∉ ids')
    (h : Rewritable c hsimd behind encodes b ids') :
    Rewritable c hsimd behind (encodeVertex c a ids encodes) b ids' := by
  refine ⟨h.1, h.2.imp_right ?_⟩
  rintro ⟨hflag, hothers⟩
  refine ⟨by rw [isDecodable_encodeVertex_of_ne hlen ha hb, hflag], fun z hz hdec => ?_⟩
  have hza : z ≠ a := fun heq => hids (heq ▸ hz)
  rw [isDecodable_encodeVertex_of_ne hlen ha hza] at hdec
  refine (hothers z hz hdec).imp_right fun htest tail htail => ?_
  rw [nonNeighborTest_encodeVertex_of_ne hlen ha hza]
  exact htest tail htail

end

variable (hc : c.Narrow) (hlen : encodes.length = c.vertexSize + 1)
variable (ha : 1 ≤ a ∧ a ≤ c.vertexSize) (hrec : IsRecord c (encodes.record a))
variable (h : Rewritable c hsimd behind encodes a ids)
include hc hlen ha hrec h

theorem isDecodable_encodeVertex_self :
    isDecodable (encodeVertex c a ids encodes) a = decide (getRequiredBytes ids ≤ maxBytesLen c) := by
  rw [isDecodable, record_encodeVertex_self hlen ha.2]
  exact getFirstBit_encodeBits hc hrec h.1 (h.2.imp_right And.left)

/-- The new record denies none of the list, and it reports all of a list that fits. -/
theorem nonNeighborTest_encodeVertex_self (tail : Nat → Byte) {w : Nat} (hw : w < 2 ^ 31)
    (hmem : w ∈ ids) :
    nonNeighborTest c hsimd tail (encodeVertex c a ids encodes) a w ≠ .nonNeighbor ∧
    (getRequiredBytes ids ≤ maxBytesLen c ∨ w ∈ (dynamicChoose c ids).inside ids →
      nonNeighborTest c hsimd tail (encodeVertex c a ids encodes) a w = .neighbor) := by
  have hspeaks := speaks_encodeBits hc hrec h.1 (h.2.imp_right And.left) tail hw
  rw [nonNeighborTest, record_encodeVertex_self hlen ha.2]
  rcases testWith_cases c hsimd tail (encodeBits c ids (encodes.record a)) w with htest | htest
  · rw [htest]
    exact ⟨nofun, fun _ => rfl⟩
  · rw [htest]
    refine ⟨hspeaks.ne_nonNeighbor hmem, ?_⟩
    by_cases hfit : getRequiredBytes ids ≤ maxBytesLen c
    · rw [decide_eq_true hfit] at hspeaks
      exact fun _ => hspeaks.eq_neighbor hmem
    · rintro (hfit' | hinside)
      · exact absurd hfit' hfit
      · exact testBits_of_inside hc hrec h.1 hfit (h.2.resolve_left hfit).1 tail hw hinside

/-- An edge to an id of the list is not denied afterwards. -/
theorem nePairTest_encodeVertex_self {tail : Nat → Nat → Byte} (htail : tail ∈ behind) {z : Nat}
    (hz : z < 2 ^ 31) (hmem : z ∈ ids) (hne : z ≠ a)
    (hother : isDecodable encodes a = false → isDecodable encodes z = true →
      nePairTest c (codec hsimd) tail encodes a z ≠ .nonNeighbor) :
    nePairTest c (codec hsimd) tail (encodeVertex c a ids encodes) a z ≠ .nonNeighbor := by
  obtain ⟨htest, hfound⟩ :=
    nonNeighborTest_encodeVertex_self hc hlen ha hrec h (tail a) hz hmem
  rw [nePairTest_eq, isDecodable_encodeVertex_self hc hlen ha hrec h,
    isDecodable_encodeVertex_of_ne hlen ha.2 hne, nonNeighborTest_encodeVertex_of_ne hlen ha.2 hne]
  rcases h.2 with hfit | ⟨hflag, hothers⟩
  · -- the list is decodable and the answer for `z` decides
    rw [decide_eq_true hfit, hfound (Or.inl hfit), combine_true_neighbor]
    exact nofun
  · by_cases hfit : getRequiredBytes ids ≤ maxBytesLen c
    · rw [decide_eq_true hfit, hfound (Or.inl hfit), combine_true_neighbor]
      exact nofun
    rw [decide_eq_false hfit]
    cases hdec : isDecodable encodes z with
    | true =>
      -- the record of `z` answers alone, as before
      have hold := hother hflag hdec
      rw [nePairTest_eq, hflag, hdec] at hold
      exact hold
    | false =>
      rcases hothers z hmem hdec with hinside | hkeeps
      · rw [hfound (Or.inr hinside)]
        simp [combine]
      · exact combine_ne_of_ne htest (hkeeps tail htail)

/-- `EncodeVertex` over a graph whose edges at the vertex are all in the list. -/
theorem runInv_encodeVertex {db : Db c.vertexSize}
    (hothers : ∀ x, 1 ≤ x → x ≤ c.vertexSize → IsRecord c (encodes.record x))
    (hoff : ∀ tail ∈ behind, ∀ x y, y ∈ db.get x → x ≠ a → y ≠ a →
      nePairTest c (codec hsimd) tail encodes x y ≠ .nonNeighbor)
    (hat : ∀ y ∈ db.get a, y ∈ ids ∧ (isDecodable encodes a = false →
      isDecodable encodes y = true → ∀ tail ∈ behind,
        nePairTest c (codec hsimd) tail encodes a y ≠ .nonNeighbor)) :
    RunInv c hsimd behind (encodeVertex c a ids encodes, db) := by
  have hsmall := hc.vertexSize_lt
  have hedge : ∀ tail ∈ behind, ∀ y ∈ db.get a,
      nePairTest c (codec hsimd) tail (encodeVertex c a ids encodes) a y ≠ .nonNeighbor := by
    intro tail htail y hy
    obtain ⟨hmem, hother⟩ := hat y hy
    have hrange := (db.range a y hy).2
    have hne : y ≠ a := fun heq => db.loopless a (heq ▸ hy)
    exact nePairTest_encodeVertex_self hc hlen ha hrec h htail (by omega) hmem hne
      fun hflag hdec => hother hflag hdec tail htail
  refine ⟨by simp [encodeVertex, hlen], ?_, ?_⟩
  · intro x hx hx'
    by_cases hxa : x = a
    · subst hxa
      show IsRecord c ((encodeVertex c x ids encodes).record x)
      rw [record_encodeVertex_self hlen hx']
      exact isRecord_encodeBits hc hrec
    · show IsRecord c ((encodeVertex c a ids encodes).record x)
      rw [record_encodeVertex_of_ne hlen ha.2 hxa]
      exact hothers x hx hx'
  · intro tail htail x y hy
    by_cases hxa : x = a
    · subst hxa
      exact hedge tail htail y hy
    · by_cases hya : y = a
      · subst hya
        rw [nePairTest_comm]
        exact hedge tail htail x (db.symm x y hy)
      · show nePairTest c (codec hsimd) tail (encodeVertex c a ids encodes) x y ≠ _
        rw [nePairTest_encodeVertex_of_ne hlen ha.2 hxa hya]
        exact hoff tail htail x y hy hxa hya

end EncodeVertex

/-! ## Section 4: The calls -/

/-- The decodable endpoint comes first. -/
theorem insertOrder_cases {encodes : Records} {u v a b : Nat}
    (h : insertOrder encodes u v = (a, b)) :
    ((a = u ∧ b = v) ∨ (a = v ∧ b = u)) ∧
      (isDecodable encodes a = false → isDecodable encodes b = false) := by
  unfold insertOrder at h
  split at h
  · rename_i hlt
    obtain ⟨rfl, rfl⟩ := Prod.mk.inj h
    exact ⟨Or.inr ⟨rfl, rfl⟩, fun _ => (Bool.lt_iff.mp hlt).1⟩
  · rename_i hle
    obtain ⟨rfl, rfl⟩ := Prod.mk.inj h
    refine ⟨Or.inl ⟨rfl, rfl⟩, fun hfalse => ?_⟩
    by_contra htrue
    exact hle (Bool.lt_iff.mpr ⟨hfalse, by simpa using htrue⟩)

/-- An undecodable vertex is encoded only beside another one. -/
theorem insertTarget_cases {encodes : Records} {u v a b : Nat}
    (h : insertTarget encodes u v = (a, b)) :
    ((a = u ∧ b = v) ∨ (a = v ∧ b = u)) ∧
      (isDecodable encodes a = false → isDecodable encodes b = false) := by
  obtain ⟨⟨x, y⟩, horder⟩ : ∃ order, insertOrder encodes u v = order := ⟨_, rfl⟩
  obtain ⟨hends, hfirst⟩ := insertOrder_cases horder
  simp only [insertTarget, horder] at h
  split at h
  · obtain ⟨rfl, rfl⟩ := Prod.mk.inj h
    exact ⟨hends, hfirst⟩
  · rename_i hfalse
    obtain ⟨rfl, rfl⟩ := Prod.mk.inj h
    exact ⟨by omega, fun _ => by simpa using hfalse⟩

theorem insertPair_eq (c : Config) (hsimd : Bool) (tail : Nat → Nat → Byte) (db : Nat → List Nat)
    {encodes : Records} {u v a b : Nat} (h : insertTarget encodes u v = (a, b)) :
    insertPair c hsimd tail db u v encodes =
      if nePairTest c (codec hsimd) tail encodes u v = .uncertain then encodes
      else encodeVertex c a (db a ++ [b]) encodes := by
  unfold insertTarget at h
  unfold insertPair
  by_cases hdec : isDecodable encodes (insertOrder encodes u v).1 = true
  · simp only [hdec, if_true, Prod.mk.injEq] at h ⊢
    rw [h.1, h.2]
  · simp only [hdec, if_false, Prod.mk.injEq, Bool.false_eq_true] at h ⊢
    rw [h.1, h.2]

section Calls

variable {c : Config} (hc : c.Narrow) {hsimd : Bool} {behind : Set (Nat → Nat → Byte)}
include hc

theorem runInv_of_start {s : UpdateState c} (h : Start c hsimd behind s) :
    RunInv c hsimd behind s := by
  obtain ⟨-, ⟨lists, hbuilt⟩, hsafe⟩ := h
  refine ⟨hbuilt.length, fun x hx hx' => ?_, hsafe⟩
  rw [hbuilt.record x hx hx']
  exact isRecord_encodeBits hc (isRecord_ofBitSize c)

/-- One harmless `InsertPair`. -/
theorem RunInv.insert {s s' : UpdateState c} (h : RunInv c hsimd behind s)
    {tail : Nat → Nat → Byte} {u v : Nat} (hpair : IsPair c u v)
    (hguard : Harmless c hsimd behind s (.insertPair tail u v))
    (heq : s'.1 = insertPair c hsimd tail s.2.get u v s.1) (hadds : s.2.Adds u v s'.2) :
    RunInv c hsimd behind s' := by
  obtain ⟨encodes, db⟩ := s'
  simp only at heq hadds
  obtain ⟨⟨a, b⟩, htarget⟩ : ∃ target, insertTarget s.1 u v = target := ⟨_, rfl⟩
  obtain ⟨hends, hboth⟩ := insertTarget_cases htarget
  rw [insertPair_eq c hsimd tail s.2.get htarget] at heq
  simp only [Harmless, htarget] at hguard
  have hpair' : IsPair c a b := hpair.of_ends hends
  -- the edges of the new graph, in the order of the call
  have hedges := fun x y => (hadds.of_ends hends x y).mp
  by_cases huncertain : nePairTest c (codec hsimd) tail s.1 u v = .uncertain
  · -- the call returns at once
    rw [if_pos huncertain] at heq hguard
    subst heq
    refine ⟨h.length, h.isRecord, fun tail' htail' x y hy => ?_⟩
    rcases (hadds x y).mp hy with hold | ⟨rfl, rfl⟩ | ⟨rfl, rfl⟩
    · exact h.safe tail' htail' x y hold
    · exact hguard tail' htail'
    · rw [nePairTest_comm]
      exact hguard tail' htail'
  · rw [if_neg huncertain] at heq hguard
    subst heq
    obtain ⟨ha, ha', -, -, hab⟩ := hpair'
    refine runInv_encodeVertex hc h.length ⟨ha, ha'⟩ (h.isRecord a ha ha') hguard h.isRecord ?_ ?_
    · intro tail' htail' x y hy hxa hya
      rcases hedges x y hy with hold | ⟨hx, -⟩ | ⟨-, hy⟩
      · exact h.safe tail' htail' x y hold
      · exact absurd hx hxa
      · exact absurd hy hya
    · intro y hy
      rcases hedges a y hy with hold | ⟨-, rfl⟩ | ⟨heq, -⟩
      · exact ⟨List.mem_append_left _ hold, fun _ _ tail' htail' => h.safe tail' htail' a y hold⟩
      · refine ⟨by simp, fun hflag hdec => ?_⟩
        rw [hboth hflag] at hdec
        cases hdec
      · exact absurd heq hab

/-- One half of `DeletePair`, over a graph that no longer has the edge. -/
theorem RunInv.removeNeighbor {encodes : Records} {db db' : Db c.vertexSize} {a b : Nat}
    (h : RunInv c hsimd behind (encodes, db')) (ha : 1 ≤ a ∧ a ≤ c.vertexSize)
    (hget : ∀ y ∈ db'.get a, y ∈ db.get a ∧ y ≠ b)
    (hguard : Rewritable c hsimd behind encodes a ((db.get a).filter (· ≠ b))) :
    RunInv c hsimd behind (removeNeighbor c db.get a b encodes, db') := by
  refine runInv_encodeVertex hc h.length ha (h.isRecord a ha.1 ha.2) hguard h.isRecord
    (fun tail htail x y hy _ _ => h.safe tail htail x y hy) fun y hy => ?_
  refine ⟨List.mem_filter.mpr ⟨(hget y hy).1, decide_eq_true (hget y hy).2⟩, ?_⟩
  exact fun _ _ tail htail => h.safe tail htail a y hy

/-- One harmless `DeletePair`. -/
theorem RunInv.delete {s s' : UpdateState c} (h : RunInv c hsimd behind s)
    {tail : Nat → Nat → Byte} {u v : Nat} (hedge : v ∈ s.2.get u)
    (hguard : Harmless c hsimd behind s (.deletePair tail u v))
    (heq : s'.1 = deletePair c hsimd tail s.2.get u v s.1) (hremoves : s.2.Removes u v s'.2) :
    RunInv c hsimd behind s' := by
  obtain ⟨encodes, db⟩ := s'
  simp only at heq hremoves
  obtain ⟨hfirst, hsecond⟩ := hguard
  have hu := Db.mem_range_self hedge
  have hv := s.2.range u v hedge
  have hne : v ≠ u := fun heq => s.2.loopless u (by rwa [heq] at hedge)
  have hold : ∀ x y, y ∈ db.get x → y ∈ s.2.get x := fun x y hy => ((hremoves x y).mp hy).1
  have hgetu : ∀ y ∈ db.get u, y ∈ s.2.get u ∧ y ≠ v := by
    intro y hy
    have hy' := (hremoves u y).mp hy
    exact ⟨hy'.1, fun heq => hy'.2 (Or.inl ⟨rfl, heq⟩)⟩
  have hgetv : ∀ y ∈ db.get v, y ∈ s.2.get v ∧ y ≠ u := by
    intro y hy
    have hy' := (hremoves v y).mp hy
    exact ⟨hy'.1, fun heq => hy'.2 (Or.inr ⟨rfl, heq⟩)⟩
  -- fewer edges are left, and the records have not changed yet
  have hinv : RunInv c hsimd behind (s.1, db) :=
    ⟨h.length, h.isRecord, fun tail htail x y hy => h.safe tail htail x y (hold x y hy)⟩
  -- after the first half the record of `v` and the guard of the second half are as before
  obtain ⟨mid, hmid, hmidInv, htest, hmidGuard⟩ : ∃ mid,
      mid = (if nonNeighborTest c hsimd (tail u) s.1 u v ≠ .nonNeighbor then
        DeltaSIMDEncodeV3.removeNeighbor c s.2.get u v s.1 else s.1) ∧
      RunInv c hsimd behind (mid, db) ∧
      nonNeighborTest c hsimd (tail v) mid v u = nonNeighborTest c hsimd (tail v) s.1 v u ∧
      (Rewritable c hsimd behind s.1 v ((s.2.get v).filter (· ≠ u)) →
        Rewritable c hsimd behind mid v ((s.2.get v).filter (· ≠ u))) := by
    refine ⟨_, rfl, ?_⟩
    by_cases htest : nonNeighborTest c hsimd (tail u) s.1 u v ≠ .nonNeighbor
    · rw [if_pos htest]
      exact ⟨hinv.removeNeighbor hc hu hgetu (hfirst htest),
        nonNeighborTest_encodeVertex_of_ne h.length hu.2 hne _ _,
        fun hkeep => hkeep.of_encodeVertex h.length hu.2 hne (by simp)⟩
    · rw [if_neg htest]
      exact ⟨hinv, rfl, id⟩
  unfold deletePair at heq
  rw [← hmid] at heq
  simp only [htest] at heq
  subst heq
  split
  · rename_i hdenied
    exact hmidInv.removeNeighbor hc hv hgetv (hmidGuard (hsecond hdenied))
  · exact hmidInv

/-- In every run of harmless calls no edge of the current graph is denied. -/
theorem updates_keep_edges {s : UpdateState c}
    (h : Run.Reachable (Start c hsimd behind) (UpdateStep c hsimd behind)
      (Harmless c hsimd behind) s) : Safe c hsimd behind s := by
  have hinv : RunInv c hsimd behind s := by
    refine h.invariant (fun s hs => runInv_of_start hc hs) fun s call s' hs hguard hstep => ?_
    cases call with
    | insertPair tail u v =>
      obtain ⟨-, -, hpair, -, heq, hadds⟩ := hstep
      exact hs.insert hc hpair hguard heq hadds
    | deletePair tail u v =>
      obtain ⟨-, -, hedge, heq, hremoves⟩ := hstep
      exact hs.delete hc hedge hguard heq hremoves
  exact hinv.safe

end Calls

/-! ## Section 5: Two runs -/

/-- Thirty vertices and one word for each: three bytes behind the header. -/
def thirtyConfig : Config := Config.ofSizes 1 30 2 (by decide)

theorem thirtyConfig_narrow : thirtyConfig.Narrow := ⟨by decide, by decide⟩

/-- Vertex 1 with two neighbours, whose ids fill the three bytes. -/
def wedge : Graph 30 where
  adjacencyList := [[], [2, 3], [1], [1]] ++ List.replicate 27 []
  zero := by decide
  length := by decide
  range := by decide
  loopless := by decide
  nodup := by decide
  symm := by decide

/-- `wedge` with the edge between 4 and 5. -/
def wedgeAnd45 : Graph 30 where
  adjacencyList := [[], [2, 3], [1], [1], [5], [4]] ++ List.replicate 25 []
  zero := by decide
  length := by decide
  range := by decide
  loopless := by decide
  nodup := by decide
  symm := by decide

/-- `wedge` with the edge between 1 and 4. -/
def wedgeAnd14 : Graph 30 where
  adjacencyList := [[], [2, 3, 4], [1], [1], [1]] ++ List.replicate 26 []
  zero := by decide
  length := by decide
  range := by decide
  loopless := by decide
  nodup := by decide
  symm := by decide

/-- Vertex 1 is encoded first and the other lists leave it out. -/
def wedgeLists (x : Nat) : List Nat := if x = 1 then [2, 3] else []

/-- The records of these lists. -/
def wedgeRecords : Records :=
  Records.writeAll thirtyConfig fun x => encodeBits thirtyConfig (wedgeLists x)

/-- Nothing but zeros behind the records. -/
def zeros : Nat → Nat → Byte := fun _ _ => 0

/-- The edges of a graph, looked up one by one. -/
theorem safe_of_forall_mem {c : Config} {hsimd : Bool} {tail : Nat → Nat → Byte}
    {encodes : Records} {g : Graph c.vertexSize}
    (h : ∀ x < c.vertexSize + 1, ∀ y ∈ g.adj x,
      nePairTest c (codec hsimd) tail encodes x y ≠ .nonNeighbor) :
    Safe c hsimd {tail} (encodes, g.db) := by
  rintro _ rfl x y hy
  have hx := (Graph.mem_range (Graph.mem_adj_comm.mp hy)).2
  exact h x (by omega) y hy

theorem start_wedge : Start thirtyConfig false {zeros} (wedgeRecords, wedge.db) := by
  refine ⟨Graph.sorted_of_forall_lt (by decide), ⟨wedgeLists, Records.length_writeAll _ _,
    fun x hx hx' => Records.record_writeAll _ hx hx', ?_, ?_, ?_⟩, ?_⟩
  · intro x
    unfold wedgeLists
    split <;> decide
  · intro x y hy
    unfold wedgeLists at hy
    split at hy
    · rename_i hx
      subst hx
      exact hy
    · cases hy
  · intro x y hy
    have hsmall : ∀ x < 31, ∀ y ∈ wedge.adj x,
        (y ∈ wedgeLists x ∧ x = 1) ∨ (x ∈ wedgeLists y ∧ y = 1) := by decide
    have hx := (Graph.mem_range (Graph.mem_adj_comm.mp hy)).2
    have hfits : getRequiredBytes (wedgeLists 1) ≤ maxBytesLen thirtyConfig := by decide
    rcases hsmall x (by omega) y hy with ⟨hmem, rfl⟩ | ⟨hmem, rfl⟩
    · exact Or.inr (Or.inl ⟨hmem, hfits⟩)
    · exact Or.inr (Or.inr ⟨hmem, hfits⟩)
  · exact safe_of_forall_mem (c := thirtyConfig) (by decide +kernel)

/-- Inserting `(4, 5)` and deleting `(1, 2)` rewrites short lists only. -/
theorem updates_keep_edges_wedge :
    ∃ encodes encodes',
      encodes = insertPair thirtyConfig false zeros wedge.adj 4 5 wedgeRecords ∧
      encodes' = deletePair thirtyConfig false zeros wedgeAnd45.adj 1 2 encodes ∧
      Safe thirtyConfig false {zeros} (encodes', wedgeAnd45.db.remove 1 2) := by
  have hsorted : wedgeAnd45.db.Sorted := Graph.sorted_of_forall_lt (by decide)
  have hshort : ∀ encodes a ids, ReadsBack thirtyConfig ids ∧
      getRequiredBytes ids ≤ maxBytesLen thirtyConfig →
      Rewritable thirtyConfig false {zeros} encodes a ids :=
    fun _ _ _ h => ⟨h.1, Or.inl h.2⟩
  have hinsert : Harmless thirtyConfig false {zeros} (wedgeRecords, wedge.db)
      (.insertPair zeros 4 5) := by
    have htest : nePairTest thirtyConfig (codec false) zeros wedgeRecords 4 5 ≠ .uncertain := by
      decide +kernel
    have htarget : insertTarget wedgeRecords 4 5 = (4, 5) := by decide +kernel
    simp only [Harmless, if_neg htest, htarget]
    exact hshort _ 4 [5] (by decide)
  have hfirst : Run.Reachable (Start thirtyConfig false {zeros})
      (UpdateStep thirtyConfig false {zeros}) (Harmless thirtyConfig false {zeros})
      (insertPair thirtyConfig false zeros wedge.adj 4 5 wedgeRecords, wedgeAnd45.db) :=
    .next (.start start_wedge) hinsert ⟨hsorted, rfl, by decide, by decide, rfl,
      Graph.adds_of_forall_lt (by decide) (by decide) (by decide)⟩
  have hdelete : Harmless thirtyConfig false {zeros}
      (insertPair thirtyConfig false zeros wedge.adj 4 5 wedgeRecords, wedgeAnd45.db)
      (.deletePair zeros 1 2) :=
    ⟨fun _ => hshort _ 1 [3] (by decide), fun _ => hshort _ 2 [] (by decide)⟩
  have hstep : UpdateStep thirtyConfig false {zeros}
      (insertPair thirtyConfig false zeros wedge.adj 4 5 wedgeRecords, wedgeAnd45.db)
      (.deletePair zeros 1 2) (deletePair thirtyConfig false zeros wedgeAnd45.adj 1 2
        (insertPair thirtyConfig false zeros wedge.adj 4 5 wedgeRecords),
        wedgeAnd45.db.remove 1 2) :=
    ⟨fun x => (hsorted x).filter _, rfl, by decide, rfl, Db.removes_remove _ 1 2⟩
  exact ⟨_, _, rfl, rfl, updates_keep_edges thirtyConfig_narrow (.next hfirst hdelete hstep)⟩

/-- Inserting `(1, 4)` makes the list of vertex 1 too long. The record keeps the flag of the
    short list and stores 4 alone. -/
theorem insertPair_denies_old_edge :
    thirtyConfig.Narrow ∧
    ∃ s, Run.Reachable (Start thirtyConfig false {zeros}) (UpdateStep thirtyConfig false {zeros})
        (fun _ _ => True) s ∧
      2 ∈ s.2.get 1 ∧ nePairTest thirtyConfig (codec false) zeros s.1 1 2 = .nonNeighbor ∧
      ¬ Safe thirtyConfig false {zeros} s := by
  have hstep : UpdateStep thirtyConfig false {zeros} (wedgeRecords, wedge.db)
      (.insertPair zeros 1 4)
      (insertPair thirtyConfig false zeros wedge.adj 1 4 wedgeRecords, wedgeAnd14.db) :=
    ⟨Graph.sorted_of_forall_lt (by decide), rfl, by decide, by decide, rfl,
      Graph.adds_of_forall_lt (by decide) (by decide) (by decide)⟩
  have hedge : 2 ∈ wedgeAnd14.db.get 1 := by decide
  have hverdict : nePairTest thirtyConfig (codec false) zeros
      (insertPair thirtyConfig false zeros wedge.adj 1 4 wedgeRecords) 1 2 = .nonNeighbor := by
    decide +kernel
  exact ⟨thirtyConfig_narrow, _, .next (.start start_wedge) trivial hstep, hedge, hverdict,
    fun hsafe => hsafe zeros rfl 1 2 hedge hverdict⟩

end DeltaSIMDEncodeV3

end Vend
