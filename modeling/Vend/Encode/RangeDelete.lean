import Vend.Encode.RangeUpdate

/-! # Deletion from the range encoding

    `RangeEncode::DeletePair` takes each endpoint out of the record of the other, if that
    record does not deny the pair. A record that holds a whole list is written anew from its
    own words, one that holds a window from the database, which still has the edge.

    The invariant is that of the insertions (`RunInv`). Taking a neighbour out keeps it: the
    words of a whole list lose nothing else, and a window is replaced by the list of all
    remaining neighbours. What fails is the read of the words. `GetBlockInt` returns only
    behind an empty word, so of a record that is full the deletion has no defined result.
-/

namespace Vend

namespace RangeEncode

open BitSetSIMD

/-! ## Section 1: Model -/

/-- `RemoveNeighbor(vertex1, vertex2)`. -/
def removeNeighbor (c : Config) (db : Nat → List Nat) (vertex1 vertex2 : Nat) (encodes : Records) :
    Option Records := do
  let neighbors ← getAllNeighbors c db vertex1 encodes
  return if vertex2 ∈ neighbors then encodeVertex c vertex1 (neighbors.erase vertex2) encodes
    else encodes

/-- One half of `DeletePair`. -/
def deleteFrom (c : Config) (db : Nat → List Nat) (vertex1 vertex2 : Nat) (encodes : Records) :
    Option Records :=
  if nonNeighborTest c encodes vertex1 vertex2 ≠ .nonNeighbor then
    removeNeighbor c db vertex1 vertex2 encodes
  else some encodes

/-- `DeletePair(vertex1, vertex2)`. -/
def deletePair (c : Config) (db : Nat → List Nat) (vertex1 vertex2 : Nat) (encodes : Records) :
    Option Records := do
  let encodes ← deleteFrom c db vertex1 vertex2 encodes
  deleteFrom c db vertex2 vertex1 encodes

/-! ## Section 2: Runs -/

/-- The records, the graph and the pair deleted last. -/
abbrev DeleteState (c : Config) : Type := UpdateState c × Option (Nat × Nat)

/-- `DeletePair(u, v)` on an edge, then `uv` is removed from the database. -/
def DeleteStep (c : Config) (s : DeleteState c) (pair : Nat × Nat) (s' : DeleteState c) : Prop :=
  pair.2 ∈ s.1.2.get pair.1 ∧
    deletePair c s.1.2.get pair.1 pair.2 s.1.1 = some s'.1.1 ∧
    s.1.2.Removes pair.1 pair.2 s'.1.2 ∧ s'.2 = some pair

/-- No remaining edge is denied and the pair deleted last is not affirmed. -/
def SafeForgotten (c : Config) (s : DeleteState c) : Prop :=
  Safe c s.1 ∧ ∀ pair, s.2 = some pair → nePairTest c s.1.1 pair.1 pair.2 ≠ .neighbor

/-- The states of the runs whose calls all meet `guard`. -/
def DeleteRun (c : Config) (guard : DeleteState c → Nat × Nat → Prop) : DeleteState c → Prop :=
  Run.Reachable (fun s => Start c s.1 ∧ s.2 = none) (DeleteStep c) guard

/-- After every run the state is sound and the next call on an edge returns. -/
def DeletesSafely (c : Config) : Prop :=
  ∀ s, DeleteRun c (fun _ _ => True) s → SafeForgotten c s ∧
    ∀ u v, v ∈ s.1.2.get u → (deletePair c s.1.2.get u v s.1.1).isSome = true

/-- Taking `b` out of the record of `a` does no harm: the record denies the pair, or it is
    not full and does not hold `b` twice. -/
def RemoveHarmless (c : Config) (encodes : Records) (a b : Nat) : Prop :=
  nonNeighborTest c encodes a b ≠ .nonNeighbor →
    getEncodeType c encodes a ≠ .full ∧
    (getFlag (encodes.record a) = true → (slots c (encodes.record a)).count b ≤ 1)

/-- A call that does no harm at either endpoint. -/
def DeleteHarmless (c : Config) (s : DeleteState c) (pair : Nat × Nat) : Prop :=
  RemoveHarmless c s.1.1 pair.1 pair.2 ∧ RemoveHarmless c s.1.1 pair.2 pair.1

/-! ## Section 3: One endpoint -/

theorem getEncodeType_cases {c : Config} {encodes : Records} {a : Nat}
    (h : getEncodeType c encodes a ≠ .full) :
    (getFlag (encodes.record a) = true ∧ word (encodes.record a) (maxIntSize c) = 0) ∨
      getFlag (encodes.record a) = false := by
  cases htype : getEncodeType c encodes a with
  | unFull => exact Or.inl (getFlag_of_unFull htype)
  | full => exact absurd htype h
  | nonDecodable => exact Or.inr (getFlag_of_nonDecodable htype)

section

variable {c : Config} (hc : Ranged c)
include hc

/-- A record that is neither full nor a window gives back its list, and holds an id as
    often as its words do. -/
theorem getAllNeighbors_of_flag {encodes : Records} {a : Nat} (db : Nat → List Nat)
    (hrec : ∃ ids bs, IdList c ids ∧ IsRecord c bs ∧ encodes.record a = encodeBits c ids bs)
    (hflag : getFlag (encodes.record a) = true)
    (hword : word (encodes.record a) (maxIntSize c) = 0) :
    ∃ ids, getAllNeighbors c db a encodes = some ids ∧ IdList c ids ∧
      ids.length ≤ maxIntSize c ∧ (∀ b, ids.count b ≤ (slots c (encodes.record a)).count b) ∧
      ∀ y, 1 ≤ y → y ≤ c.vertexSize →
        nonNeighborTest c encodes a y ≠ .nonNeighbor → y ∈ ids := by
  obtain ⟨ids, bs, hids, hbs, heq⟩ := hrec
  rw [heq] at hflag hword
  obtain ⟨hlt, hblock⟩ := getBlockInt_of_empty hc hids hbs hflag hword
  refine ⟨ids.insertionSort (· ≤ ·), ?_, ?_, ?_, ?_, ?_⟩
  · rw [getAllNeighbors, heq, if_pos hflag, hblock]
  · exact fun id hid => hids id ((List.mem_insertionSort _).mp hid)
  · rw [List.length_insertionSort]
    omega
  · intro b
    have hslots := (wordRecord_encodeBits hc.worded hids (by omega) hbs).slots
    rw [heq, hslots, List.count_append]
    exact Nat.le_add_right _ _
  · intro y hy hy' htest
    have hspeaks := speaks_encodeBits hc.worded hids hbs hy hy'
    rw [← heq] at hspeaks hflag
    rw [hflag] at hspeaks
    -- a whole list is never uncertain
    have hunc : nonNeighborTest c encodes a y ≠ .uncertain := hspeaks.ne_uncertain rfl
    have hnb : nonNeighborTest c encodes a y = .neighbor := by
      cases hcase : nonNeighborTest c encodes a y <;> simp_all
    exact (List.mem_insertionSort _).mpr (hspeaks.stored_of_neighbor hnb)

/-- A record written from a list without `b` does not affirm `b`. -/
theorem nonNeighborTest_encodeVertex_ne {encodes : Records} {a b : Nat} {ids : List Nat}
    (hlen : encodes.length = c.vertexSize + 1) (ha : 1 ≤ a ∧ a ≤ c.vertexSize)
    (hb : 1 ≤ b ∧ b ≤ c.vertexSize) (hrec : IsRecord c (encodes.record a)) (hids : IdList c ids)
    (hnot : b ∉ ids) : nonNeighborTest c (encodeVertex c a ids encodes) a b ≠ .neighbor := by
  intro htest
  rw [nonNeighborTest, record_encodeVertex_self hlen ha] at htest
  exact hnot ((speaks_encodeBits hc.worded hids hrec hb.1 hb.2).stored_of_neighbor htest)

/-- One half of a harmless `DeletePair`, over a graph that no longer has the edge. The
    records of the other vertices stay as they are. -/
theorem RunInv.deleteFrom {encodes : Records} {db db' : Db c.vertexSize} {a b : Nat}
    (h : RunInv c (encodes, db')) (hedge : b ∈ db.get a)
    (hget : ∀ y, y ∈ db'.get a ↔ y ∈ db.get a ∧ y ≠ b)
    (hguard : RemoveHarmless c encodes a b) :
    ∃ encodes', deleteFrom c db.get a b encodes = some encodes' ∧ RunInv c (encodes', db') ∧
      nonNeighborTest c encodes' a b ≠ .neighbor ∧
      ∀ x ≠ a, encodes'.record x = encodes.record x := by
  obtain ⟨ha, ha'⟩ := Db.mem_range_self hedge
  obtain ⟨hb, hb'⟩ := db.range a b hedge
  rw [RangeEncode.deleteFrom]
  by_cases htest : nonNeighborTest c encodes a b ≠ .nonNeighbor
  · rw [if_pos htest, removeNeighbor]
    obtain ⟨htype, hcount⟩ := hguard htest
    have hrec := h.record a ha ha'
    -- a list with `b` once, which has every neighbour that the other record may not know
    obtain ⟨ids, hall, hids, hmem, honce, hkeep⟩ : ∃ ids,
        getAllNeighbors c db.get a encodes = some ids ∧ IdList c ids ∧ b ∈ ids ∧ ids.count b ≤ 1 ∧
        ∀ y ∈ db'.get a, Knows c encodes y a ∨ (y ∈ ids ∧
          (ids.length ≤ maxIntSize c ∨ nonNeighborTest c encodes y a ≠ .nonNeighbor)) := by
      rcases getEncodeType_cases htype with ⟨hflag, hword⟩ | hflag
      · obtain ⟨ids, hall, hids, hfit, hslots, hheld⟩ :=
          getAllNeighbors_of_flag hc db.get hrec hflag hword
        refine ⟨ids, hall, hids, hheld b hb hb' htest, (hslots b).trans (hcount hflag), ?_⟩
        intro y hy
        obtain ⟨hy₁, hy₂⟩ := db'.range a y hy
        rcases h.covered a y hy with ⟨-, hknown⟩ | hknown | ⟨hne, -⟩
        · exact Or.inr ⟨hheld y hy₁ hy₂ (by rw [hknown]; simp), Or.inl hfit⟩
        · exact Or.inl hknown
        · exact Or.inr ⟨hheld y hy₁ hy₂ hne, Or.inl hfit⟩
      · -- an undecodable vertex is encoded again from the database
        refine ⟨db.get a, ?_, db.range a, hedge, ?_, ?_⟩
        · rw [getAllNeighbors, if_neg (by simp [hflag])]
        · exact List.nodup_iff_count_le_one.mp (db.nodup a) b
        · intro y hy
          rcases h.covered a y hy with ⟨hknown, -⟩ | hknown | ⟨-, hne⟩
          · rw [hflag] at hknown
            cases hknown
          · exact Or.inl hknown
          · exact Or.inr ⟨((hget y).mp hy).1, Or.inr hne⟩
    have hgone : b ∉ ids.erase b := by
      intro hin
      have hpos := List.count_pos_iff.mpr hin
      rw [List.count_erase_self] at hpos
      omega
    have hids' : IdList c (ids.erase b) := fun y hy => hids y (List.mem_of_mem_erase hy)
    refine ⟨encodeVertex c a (ids.erase b) encodes, by simp [hall, hmem], ?_, ?_, ?_⟩
    · refine runInv_encodeVertex hc h.length ⟨ha, ha'⟩ (h.isRecord hc ha ha') h.record hids'
        (fun y z hz _ _ => h.covered y z hz) ?_
      intro y hy
      rcases hkeep y hy with hknown | ⟨hin, hor⟩
      · exact Or.inl hknown
      · refine Or.inr ⟨(List.mem_erase_of_ne ((hget y).mp hy).2).mpr hin, hor.imp_left ?_⟩
        exact fun hfit => (List.erase_sublist.length_le).trans hfit
    · exact nonNeighborTest_encodeVertex_ne hc h.length ⟨ha, ha'⟩ ⟨hb, hb'⟩
        (h.isRecord hc ha ha') hids' hgone
    · exact fun x hx => record_encodeVertex_of_ne h.length ⟨ha, ha'⟩ hx
  · rw [if_neg htest]
    have heq : nonNeighborTest c encodes a b = .nonNeighbor := by simpa using htest
    exact ⟨encodes, rfl, h, by rw [heq]; simp, fun _ _ => rfl⟩

/-! ## Section 4: Runs -/

/-- One harmless `DeletePair` returns, keeps the invariant and forgets the pair. -/
theorem RunInv.delete {s : UpdateState c} (h : RunInv c s) {u v : Nat} (hedge : v ∈ s.2.get u)
    (hguard : RemoveHarmless c s.1 u v ∧ RemoveHarmless c s.1 v u) {db' : Db c.vertexSize}
    (hremoves : s.2.Removes u v db') :
    ∃ encodes', deletePair c s.2.get u v s.1 = some encodes' ∧ RunInv c (encodes', db') ∧
      nePairTest c encodes' u v ≠ .neighbor := by
  have hne : u ≠ v := fun heq => s.2.loopless u (by rwa [← heq] at hedge)
  have hinv : RunInv c (s.1, db') :=
    ⟨h.length, h.record, fun x y hy => h.covered x y ((hremoves x y).mp hy).1⟩
  have hget : ∀ y, y ∈ db'.get u ↔ y ∈ s.2.get u ∧ y ≠ v := by
    intro y
    rw [hremoves u y]
    refine and_congr_right fun _ => ?_
    omega
  have hget' : ∀ y, y ∈ db'.get v ↔ y ∈ s.2.get v ∧ y ≠ u := by
    intro y
    rw [hremoves v y]
    refine and_congr_right fun _ => ?_
    omega
  obtain ⟨mid, hfirst, hmid, hforgot, hsame⟩ := hinv.deleteFrom hc hedge hget hguard.1
  -- the second half reads a record that the first half left alone
  have hrecord : mid.record v = s.1.record v := hsame v hne.symm
  have hguard' : RemoveHarmless c mid v u := by
    have hold := hguard.2
    unfold RemoveHarmless nonNeighborTest getEncodeType at hold ⊢
    rw [hrecord]
    exact hold
  obtain ⟨encodes', hsecond, hlast, hforgot', hsame'⟩ :=
    hmid.deleteFrom hc (s.2.symm u v hedge) hget' hguard'
  refine ⟨encodes', by simp [deletePair, hfirst, hsecond], hlast, ?_⟩
  rw [nonNeighborTest, ← hsame' u hne, ← nonNeighborTest] at hforgot
  rw [nePairTest_eq_min]
  intro hmin
  rcases PairType.min_eq_neighbor hmin with htest | htest
  · exact hforgot htest
  · exact hforgot' htest

/-- In every run of harmless deletions no remaining edge is denied, the pair deleted last
    is not affirmed, and every harmless call returns. -/
theorem deletePair_sound {s : DeleteState c} (h : DeleteRun c (DeleteHarmless c) s) :
    SafeForgotten c s ∧ ∀ u v, v ∈ s.1.2.get u → DeleteHarmless c s (u, v) →
      (deletePair c s.1.2.get u v s.1.1).isSome = true := by
  have hinv : RunInv c s.1 ∧ SafeForgotten c s := by
    refine h.invariant (P := fun s => RunInv c s.1 ∧ SafeForgotten c s) ?_ ?_
    · rintro s ⟨hs, hnone⟩
      have hinv : RunInv c s.1 := runInv_of_start hc hs
      exact ⟨hinv, hinv.safe, fun pair hpair => by simp [hnone] at hpair⟩
    · rintro s pair ⟨⟨encodes, db'⟩, last⟩ ⟨hs, -⟩ hguard ⟨hedge, heq, hremoves, hlast⟩
      obtain ⟨encodes', hcall, hkeep, hforgot⟩ := hs.delete hc hedge hguard hremoves
      obtain rfl : encodes' = encodes := Option.some.inj (hcall.symm.trans heq)
      refine ⟨hkeep, hkeep.safe, fun pair' hpair' => ?_⟩
      obtain rfl : pair = pair' := Option.some.inj (hlast.symm.trans hpair')
      exact hforgot
  refine ⟨hinv.2, fun u v hedge hguard => ?_⟩
  obtain ⟨encodes', hcall, -, -⟩ :=
    hinv.1.delete hc hedge hguard (Db.removes_remove s.1.2 u v)
  rw [hcall]
  rfl

end

/-- Vertex 1 with two neighbours, which fill its two words. -/
def cherry : Graph 10 where
  adjacencyList := [[], [2, 4], [1], [], [1], [], [], [], [], [], []]
  zero := by decide
  length := by decide
  range := by decide
  loopless := by decide
  nodup := by decide
  symm := by decide

/-- Every vertex encoded from all its neighbours. -/
def allRecords (g : Graph 10) : Records :=
  Records.writeAll threeWordConfig fun x => encodeBits threeWordConfig (g.adj x)

theorem start_allRecords (g : Graph 10) : Start threeWordConfig (allRecords g, g.db) := by
  refine ⟨g.adj, Records.length_writeAll _ _, ?_, fun _ _ h => h, ?_⟩
  · intro x hx hx'
    exact ⟨_, isRecord_ofBitSize _, Records.record_writeAll _ hx hx'⟩
  · exact fun x y hy => Or.inl ⟨hy, g.db.symm x y hy⟩

/-- The records of `twoStars` after the deletion of the edge 2-8. -/
def twoStarsWithout28 : Records :=
  (deletePair threeWordConfig twoStars.adj 2 8 (allRecords twoStars)).getD []

/-- Two deletions at windows, which are encoded again from the database. Four edges are left. -/
theorem deletePair_sound_two : ∃ encodes,
    deletePair threeWordConfig twoStars.adj 2 8 (allRecords twoStars) = some twoStarsWithout28 ∧
    deletePair threeWordConfig (twoStars.db.remove 2 8).get 3 5 twoStarsWithout28 =
      some encodes ∧
    SafeForgotten threeWordConfig
      ((encodes, (twoStars.db.remove 2 8).remove 3 5), some (3, 5)) := by
  have hstart : DeleteRun threeWordConfig (DeleteHarmless threeWordConfig)
      ((allRecords twoStars, twoStars.db), none) := .start ⟨start_allRecords twoStars, rfl⟩
  have hguard₁ : DeleteHarmless threeWordConfig ((allRecords twoStars, twoStars.db), none) (2, 8) :=
    ⟨fun _ => ⟨by decide +kernel, fun _ => by decide +kernel⟩,
      fun _ => ⟨by decide +kernel, fun _ => by decide +kernel⟩⟩
  have hedge₁ : 8 ∈ twoStars.adj 2 := by decide
  have hcall₁ : deletePair threeWordConfig twoStars.adj 2 8 (allRecords twoStars) =
      some twoStarsWithout28 := by
    obtain ⟨encodes, heq⟩ := Option.isSome_iff_exists.mp
      ((deletePair_sound threeWordConfig_ranged hstart).2 2 8 hedge₁ hguard₁)
    have heq' : deletePair threeWordConfig twoStars.adj 2 8 (allRecords twoStars) =
      some encodes := heq
    rw [twoStarsWithout28, heq', Option.getD_some]
  have hrun₁ : DeleteRun threeWordConfig (DeleteHarmless threeWordConfig)
      ((twoStarsWithout28, twoStars.db.remove 2 8), some (2, 8)) :=
    .next hstart hguard₁ ⟨hedge₁, hcall₁, Db.removes_remove _ 2 8, rfl⟩
  have hguard₂ : DeleteHarmless threeWordConfig
      ((twoStarsWithout28, twoStars.db.remove 2 8), some (2, 8)) (3, 5) :=
    ⟨fun _ => ⟨by decide +kernel, fun _ => by decide +kernel⟩,
      fun _ => ⟨by decide +kernel, fun _ => by decide +kernel⟩⟩
  have hedge₂ : 5 ∈ (twoStars.db.remove 2 8).get 3 := by decide
  obtain ⟨encodes, hcall₂⟩ := Option.isSome_iff_exists.mp
    ((deletePair_sound threeWordConfig_ranged hrun₁).2 3 5 hedge₂ hguard₂)
  exact ⟨encodes, hcall₁, hcall₂, (deletePair_sound threeWordConfig_ranged (.next hrun₁ hguard₂
    ⟨hedge₂, hcall₂, Db.removes_remove _ 3 5, rfl⟩)).1⟩

/-- Both words of vertex 1 are in use, and the loop that reads them runs to its end. -/
theorem deletePair_undefined_full :
    Ranged threeWordConfig ∧ Start threeWordConfig (allRecords cherry, cherry.db) ∧
    2 ∈ cherry.adj 1 ∧
    deletePair threeWordConfig cherry.adj 1 2 (allRecords cherry) = none ∧
    ¬ DeletesSafely threeWordConfig := by
  have hedge : 2 ∈ cherry.adj 1 := by decide
  have hnone : deletePair threeWordConfig cherry.adj 1 2 (allRecords cherry) = none := by
    decide +kernel
  refine ⟨threeWordConfig_ranged, start_allRecords cherry, hedge, hnone, fun hsafe => ?_⟩
  have hcall : (deletePair threeWordConfig cherry.adj 1 2 (allRecords cherry)).isSome = true :=
    (hsafe ((allRecords cherry, cherry.db), none)
      (.start ⟨start_allRecords cherry, rfl⟩)).2 1 2 hedge
  rw [hnone] at hcall
  cases hcall

end RangeEncode

end Vend
