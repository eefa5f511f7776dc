import Vend.Common.Config
import Mathlib.Data.List.Count

/-! # The query experiment

    The loops of `QueryExecution::Execute` in `execution/query_execution.h`, with the
    committed macros `VERIFY` 0 and `IN_MEMORY` 1. The verdict of the encoder and the answer of
    `TestEdgeByAdj` are arguments; a call that throws or reads out of bounds is `none`, and
    so is the overflow of the `int` that counts the edges.

    `count_spec` says what the counters hold at the end, and `res_totals` what that means for an
    encoder whose verdicts agree with the graph: it reports the same number of edges as the
    loop without an encoder.
-/

namespace Vend

namespace QueryExecution

/-! ## Section 1: Model -/

/-- `res`, `filtered_`, `f_items` and `true_false`. -/
structure Counters where
  res : Nat
  filtered : Nat
  fItems : Nat
  trueFalse : Nat
  deriving DecidableEq, Repr

/-- The counters before the loop. -/
def Counters.zero : Counters := ⟨0, 0, 0, 0⟩

/-- `++res`, an `int`. -/
def Counters.addRes (counters : Counters) : Option Counters :=
  if counters.res + 1 < 2 ^ 31 then some { counters with res := counters.res + 1 } else none

/-- `++filtered_`, a `uint64_t`. -/
def Counters.addFiltered (counters : Counters) : Counters :=
  { counters with filtered := (counters.filtered + 1) % 2 ^ 64 }

/-- `++f_items`, a `uint32_t`. -/
def Counters.addFItems (counters : Counters) : Counters :=
  { counters with fItems := (counters.fItems + 1) % 2 ^ 32 }

/-- `++true_false`, a `uint32_t`. -/
def Counters.addTrueFalse (counters : Counters) : Counters :=
  { counters with trueFalse := (counters.trueFalse + 1) % 2 ^ 32 }

section

variable (getEdge : Nat → Nat → Option PairType) (testEdgeByAdj : Nat → Nat → Option Bool)

/-- The body of the loop with an encoder. -/
def countPair (counters : Counters) (pair : Nat × Nat) : Option Counters := do
  let type ← getEdge pair.1 pair.2
  if type ≠ .uncertain then
    let counters := counters.addFiltered
    if type = .neighbor then counters.addRes else return counters.addTrueFalse
  else
    let edge ← testEdgeByAdj pair.1 pair.2
    if !edge then return counters.addFItems else counters.addRes

/-- The body of the loop without an encoder. -/
def countPairNoVend (counters : Counters) (pair : Nat × Nat) : Option Counters := do
  let edge ← testEdgeByAdj pair.1 pair.2
  if edge then counters.addRes else return counters

/-- The loop with an encoder. -/
def count (pairList : List (Nat × Nat)) : Option Counters :=
  pairList.foldlM (countPair getEdge testEdgeByAdj) Counters.zero

/-- The loop without an encoder. -/
def countNoVend (pairList : List (Nat × Nat)) : Option Counters :=
  pairList.foldlM (countPairNoVend testEdgeByAdj) Counters.zero

end

/-! ## Section 2: What is counted -/

section

variable (type : Nat × Nat → PairType) (edge : Nat × Nat → Bool)

/-- The pair counts as an edge: the encoder affirms it, or leaves it to the graph. -/
def isRes (pair : Nat × Nat) : Bool :=
  type pair = .neighbor || (type pair = .uncertain && edge pair)

/-- The counters that belong to a list of pairs. -/
def totals (pairList : List (Nat × Nat)) : Counters where
  res := pairList.countP (isRes type edge)
  filtered := pairList.countP fun pair => type pair ≠ .uncertain
  fItems := pairList.countP fun pair => type pair = .uncertain && !edge pair
  trueFalse := pairList.countP fun pair => type pair = .nonNeighbor

/-- Counting on from other counters. -/
def Counters.add (a b : Counters) : Counters :=
  ⟨a.res + b.res, a.filtered + b.filtered, a.fItems + b.fItems, a.trueFalse + b.trueFalse⟩

/-- There is room for `n` more pairs. -/
structure Counters.Room (counters : Counters) (n : Nat) : Prop where
  res : counters.res + n < 2 ^ 31
  filtered : counters.filtered + n < 2 ^ 31
  fItems : counters.fItems + n < 2 ^ 31
  trueFalse : counters.trueFalse + n < 2 ^ 31

variable {type edge} {getEdge : Nat → Nat → Option PairType}
variable {testEdgeByAdj : Nat → Nat → Option Bool}

/-- Within the room no counter wraps around. -/
theorem Counters.Room.steps {counters : Counters} {n : Nat} (h : counters.Room (n + 1)) :
    counters.addRes = some { counters with res := counters.res + 1 } ∧
    counters.addFiltered = { counters with filtered := counters.filtered + 1 } ∧
    counters.addFItems = { counters with fItems := counters.fItems + 1 } ∧
    counters.addTrueFalse = { counters with trueFalse := counters.trueFalse + 1 } := by
  obtain ⟨hres, hfiltered, hfItems, htrueFalse⟩ := h
  refine ⟨if_pos (by omega), ?_, ?_, ?_⟩
  · rw [addFiltered, Nat.mod_eq_of_lt (by omega)]
  · rw [addFItems, Nat.mod_eq_of_lt (by omega)]
  · rw [addTrueFalse, Nat.mod_eq_of_lt (by omega)]

/-- One pair takes one place of the room. -/
theorem Counters.Room.add {counters : Counters} {n : Nat} (h : counters.Room (n + 1))
    (pair : Nat × Nat) : (counters.add (totals type edge [pair])).Room n := by
  have hle : ∀ p : Nat × Nat → Bool, [pair].countP p ≤ 1 := fun p => List.countP_le_length
  obtain ⟨hres, hfiltered, hfItems, htrueFalse⟩ := h
  constructor
  · have := hle (isRes type edge)
    simp only [Counters.add, totals]
    omega
  · have := hle fun pair => type pair ≠ .uncertain
    simp only [Counters.add, totals]
    omega
  · have := hle fun pair => type pair = .uncertain && !edge pair
    simp only [Counters.add, totals]
    omega
  · have := hle fun pair => type pair = .nonNeighbor
    simp only [Counters.add, totals]
    omega

/-- One pair. -/
theorem countPair_spec {counters : Counters} {n : Nat} (hroom : counters.Room (n + 1))
    {pair : Nat × Nat} (htype : getEdge pair.1 pair.2 = some (type pair))
    (hedge : testEdgeByAdj pair.1 pair.2 = some (edge pair)) :
    countPair getEdge testEdgeByAdj counters pair =
      some (counters.add (totals type edge [pair])) := by
  obtain ⟨hres, hfiltered, hfItems, htrueFalse⟩ := hroom.steps
  unfold countPair
  rw [htype, Option.bind_eq_bind, Option.bind_some]
  cases hcase : type pair with
  | neighbor =>
    have hboth : counters.addFiltered.addRes =
        some ⟨counters.res + 1, counters.filtered + 1, counters.fItems, counters.trueFalse⟩ := by
      have := hroom.res
      rw [hfiltered]
      exact if_pos (by simp only; omega)
    simp [hboth, Counters.add, totals, isRes, hcase]
  | nonNeighbor =>
    have hboth : counters.addFiltered.addTrueFalse =
        ⟨counters.res, counters.filtered + 1, counters.fItems, counters.trueFalse + 1⟩ := by
      have := hroom.trueFalse
      rw [hfiltered, Counters.addTrueFalse, Nat.mod_eq_of_lt (by simp only; omega)]
    simp [hboth, Counters.add, totals, isRes, hcase]
  | uncertain =>
    cases hanswer : edge pair with
    | true => simp [hedge, hanswer, hres, Counters.add, totals, isRes, hcase]
    | false => simp [hedge, hanswer, hfItems, Counters.add, totals, isRes, hcase]

theorem countPairNoVend_spec {counters : Counters} {n : Nat} (hroom : counters.Room (n + 1))
    {pair : Nat × Nat} (hedge : testEdgeByAdj pair.1 pair.2 = some (edge pair)) :
    countPairNoVend testEdgeByAdj counters pair =
      some { counters with res := counters.res + [pair].countP edge } := by
  obtain ⟨hres, -, -, -⟩ := hroom.steps
  unfold countPairNoVend
  cases hanswer : edge pair with
  | true => simp [hedge, hanswer, hres]
  | false => simp [hedge, hanswer]

theorem totals_cons (pair : Nat × Nat) (pairList : List (Nat × Nat)) :
    totals type edge (pair :: pairList) =
      (totals type edge [pair]).add (totals type edge pairList) := by
  have hcons : ∀ p : Nat × Nat → Bool,
      (pair :: pairList).countP p = [pair].countP p + pairList.countP p :=
    fun p => @List.countP_append _ p [pair] pairList
  simp only [totals, Counters.add, hcons]

theorem Counters.add_assoc (a b d : Counters) : (a.add b).add d = a.add (b.add d) := by
  simp only [Counters.add, Nat.add_assoc]

/-! ## Section 3: The loops -/

/-- The loop with an encoder, from any counters. -/
theorem foldlM_countPair (pairList : List (Nat × Nat)) {counters : Counters}
    (hroom : counters.Room pairList.length)
    (htype : ∀ pair ∈ pairList, getEdge pair.1 pair.2 = some (type pair))
    (hedge : ∀ pair ∈ pairList, testEdgeByAdj pair.1 pair.2 = some (edge pair)) :
    pairList.foldlM (countPair getEdge testEdgeByAdj) counters =
      some (counters.add (totals type edge pairList)) := by
  induction pairList generalizing counters with
  | nil => rfl
  | cons pair pairList ih =>
    have hstep := countPair_spec hroom (htype pair (by simp)) (hedge pair (by simp))
    rw [List.foldlM_cons, hstep]
    refine (ih (hroom.add pair) (fun p hp => htype p (by simp [hp]))
      fun p hp => hedge p (by simp [hp])).trans ?_
    rw [totals_cons pair pairList, Counters.add_assoc]

/-- The loop without an encoder, from any counters. -/
theorem foldlM_countPairNoVend (pairList : List (Nat × Nat)) {counters : Counters}
    (hroom : counters.Room pairList.length)
    (hedge : ∀ pair ∈ pairList, testEdgeByAdj pair.1 pair.2 = some (edge pair)) :
    pairList.foldlM (countPairNoVend testEdgeByAdj) counters =
      some { counters with res := counters.res + pairList.countP edge } := by
  induction pairList generalizing counters with
  | nil => rfl
  | cons pair pairList ih =>
    have hone : [pair].countP edge ≤ 1 := List.countP_le_length
    have hroom' : Counters.Room { counters with res := counters.res + [pair].countP edge }
        pairList.length := by
      obtain ⟨hres, hfiltered, hfItems, htrueFalse⟩ := hroom
      simp only [List.length_cons] at hres hfiltered hfItems htrueFalse
      exact ⟨by simp only; omega, by simp only; omega, by simp only; omega, by simp only; omega⟩
    rw [List.foldlM_cons, countPairNoVend_spec hroom (hedge pair (by simp))]
    refine (ih hroom' fun p hp => hedge p (by simp [hp])).trans ?_
    rw [Nat.add_assoc, ← List.countP_append]
    rfl

theorem room_zero {n : Nat} (hn : n < 2 ^ 31) : Counters.zero.Room n := by
  constructor <;> simpa [Counters.zero] using hn

theorem Counters.zero_add (counters : Counters) : Counters.zero.add counters = counters := by
  simp only [Counters.add, Counters.zero, Nat.zero_add]

/-- What the loop with an encoder has counted at its end. -/
theorem count_spec {pairList : List (Nat × Nat)} (hlen : pairList.length < 2 ^ 31)
    (htype : ∀ pair ∈ pairList, getEdge pair.1 pair.2 = some (type pair))
    (hedge : ∀ pair ∈ pairList, testEdgeByAdj pair.1 pair.2 = some (edge pair)) :
    count getEdge testEdgeByAdj pairList = some (totals type edge pairList) := by
  rw [count, foldlM_countPair pairList (room_zero hlen) htype hedge, Counters.zero_add]

/-- The same without an encoder. -/
theorem countNoVend_spec {pairList : List (Nat × Nat)} (hlen : pairList.length < 2 ^ 31)
    (hedge : ∀ pair ∈ pairList, testEdgeByAdj pair.1 pair.2 = some (edge pair)) :
    countNoVend testEdgeByAdj pairList = some ⟨pairList.countP edge, 0, 0, 0⟩ := by
  rw [countNoVend, foldlM_countPairNoVend pairList (room_zero hlen) hedge]
  simp only [Counters.zero, Nat.zero_add]

end

/-- What the verdicts of an encoder have to do with the graph. -/
def Agrees (type : Nat × Nat → PairType) (edge : Nat × Nat → Bool) (pair : Nat × Nat) : Prop :=
  (type pair = .neighbor → edge pair = true) ∧ (type pair = .nonNeighbor → edge pair = false)

section

variable {type : Nat × Nat → PairType} {edge : Nat × Nat → Bool} {pairList : List (Nat × Nat)}

/-- Verdicts that agree with the graph change nothing about the number of edges. -/
theorem res_totals (hagrees : ∀ pair ∈ pairList, Agrees type edge pair) :
    (totals type edge pairList).res = pairList.countP edge := by
  apply List.countP_congr
  intro pair hpair
  obtain ⟨hneighbor, hnon⟩ := hagrees pair hpair
  cases hcase : type pair with
  | neighbor => simp [isRes, hcase, hneighbor hcase]
  | nonNeighbor => simp [isRes, hcase, hnon hcase]
  | uncertain => simp [isRes, hcase]

/-- Every pair is counted once: as an edge, as a pair that the encoder denies, or as one that
    it leaves open although it is no edge. -/
theorem length_totals : (totals type edge pairList).res + (totals type edge pairList).trueFalse +
    (totals type edge pairList).fItems = pairList.length := by
  induction pairList with
  | nil => rfl
  | cons pair pairList ih =>
    rw [totals_cons, List.length_cons, ← ih]
    simp only [Counters.add]
    have hone : (totals type edge [pair]).res + (totals type edge [pair]).trueFalse +
        (totals type edge [pair]).fItems = 1 := by
      cases hcase : type pair <;> cases hanswer : edge pair <;>
        simp [totals, isRes, hcase, hanswer]
    omega

end

end QueryExecution

end Vend
