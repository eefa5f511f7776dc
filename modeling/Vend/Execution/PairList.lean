import Mathlib.Algebra.GroupWithZero.Nat
import Mathlib.Control.Basic
import Vend.Lib.DecimalText

/-! # Pair lists

    `execution/pair_list.cpp`. The pairs of an experiment are drawn at random by the first
    execution that needs them and written to a file, one line for each pair; every later
    execution reads the file. So all encoders are tried on the same pairs
    (`init_init`).

    What `CreateList` draws is an argument. A line from which two numbers cannot be read
    leaves variables as they were before, and has no value here.
-/

namespace Vend

namespace PairList

open DecimalText

/-! ## Section 1: Model -/

/-- What `ListPersistent` writes for one pair. -/
def pairLine (pair : Nat × Nat) : List Char := insert pair.1 ++ '\t' :: insert pair.2

/-- `ListPersistent()`: the content of the file. An empty list fails the assertion. -/
def listPersistent (pairList : List (Nat × Nat)) : Option (List Char) := do
  guard (pairList ≠ [])
  return (pairList.map fun pair => pairLine pair ++ ['\n']).flatten

/-- The body of the loop of `LoadPairList`. -/
def loadLine (line : List Char) : Option (Nat × Nat) := do
  let (vertex1, rest) ← extract (2 ^ 32) line
  let (vertex2, _) ← extract (2 ^ 32) rest
  return (vertex1, vertex2)

/-- `LoadPairList(pair_path)`. -/
def loadPairList (file : List Char) : Option (List (Nat × Nat)) := (lines file).mapM loadLine

/-- `Init()`, given the content of the file if it exists: the pairs, and the content
    afterwards. -/
def init (file : Option (List Char)) (created : List (Nat × Nat)) :
    Option (List (Nat × Nat) × List Char) :=
  match file with
  | none => do
    let file ← listPersistent created
    return (created, file)
  | some file => do
    let pairList ← loadPairList file
    return (pairList, file)

/-! ## Section 2: Round trip -/

/-- Pairs of `uint32_t`. -/
def Words (pairList : List (Nat × Nat)) : Prop :=
  ∀ pair ∈ pairList, pair.1 < 2 ^ 32 ∧ pair.2 < 2 ^ 32

theorem newline_not_mem_pairLine (pair : Nat × Nat) : '\n' ∉ pairLine pair := by
  intro hmem
  rcases List.mem_append.mp hmem with h | h
  · exact not_mem_insert (by decide) h
  · rcases List.mem_cons.mp h with h | h
    · revert h
      decide
    · exact not_mem_insert (by decide) h

theorem loadLine_pairLine {pair : Nat × Nat} (hpair : pair.1 < 2 ^ 32 ∧ pair.2 < 2 ^ 32) :
    loadLine (pairLine pair) = some pair := by
  have hfirst : extract (2 ^ 32) (pairLine pair) = some (pair.1, '\t' :: insert pair.2) :=
    extract_insert hpair.1 (by decide) _
  have hsecond : extract (2 ^ 32) ('\t' :: insert pair.2) = some (pair.2, []) := by
    rw [extract_cons_of_isWhitespace (by decide)]
    exact extract_insert_end hpair.2
  simp only [loadLine, hfirst, hsecond, Option.bind_eq_bind, Option.bind_some]
  rfl

/-- The lines of the file are those of the pairs. -/
theorem lines_flatten (pairList : List (Nat × Nat)) :
    lines (pairList.map fun pair => pairLine pair ++ ['\n']).flatten = pairList.map pairLine := by
  induction pairList with
  | nil => rfl
  | cons pair pairList ih =>
    rw [List.map_cons, List.flatten_cons, List.append_assoc]
    exact (lines_append (newline_not_mem_pairLine pair) _).trans (congrArg (pairLine pair :: ·) ih)

/-- What was written is loaded. -/
theorem loadPairList_listPersistent {pairList : List (Nat × Nat)} (hwords : Words pairList)
    {file : List Char} (h : listPersistent pairList = some file) :
    loadPairList file = some pairList := by
  unfold listPersistent at h
  simp only [guard, Option.bind_eq_bind, Option.pure_def] at h
  split at h
  next hne =>
    rw [Option.bind_some, Option.some.injEq] at h
    rw [loadPairList, ← h, lines_flatten]
    clear h hne
    induction pairList with
    | nil => rfl
    | cons pair pairList ih =>
      rw [List.map_cons, List.mapM_cons, loadLine_pairLine (hwords pair (by simp)),
        ih fun p hp => hwords p (by simp [hp])]
      rfl
  next => cases h

/-- Whatever a later execution would draw, it gets the pairs of the first one and leaves the
    file as it is. -/
theorem init_init {created pairList : List (Nat × Nat)} (hwords : Words created)
    {file : List Char} (h : init none created = some (pairList, file))
    (created' : List (Nat × Nat)) :
    pairList = created ∧ init (some file) created' = some (created, file) := by
  unfold init at h
  cases hfile : listPersistent created with
  | none => simp [hfile] at h
  | some text =>
    simp only [hfile, Option.bind_eq_bind, Option.bind_some, Option.pure_def, Option.some.injEq,
      Prod.mk.injEq] at h
    obtain ⟨rfl, rfl⟩ := h
    refine ⟨rfl, ?_⟩
    simp only [init, loadPairList_listPersistent hwords hfile, Option.bind_eq_bind,
      Option.bind_some, Option.pure_def]

theorem init_init_two : ∃ file, init none [(1, 2), (70, 3)] = some ([(1, 2), (70, 3)], file) ∧
    init (some file) [(5, 6)] = some ([(1, 2), (70, 3)], file) := by
  have hwords : Words [(1, 2), (70, 3)] := by
    unfold Words
    decide
  have hfile : ∃ file, init none [(1, 2), (70, 3)] = some ([(1, 2), (70, 3)], file) := ⟨_, rfl⟩
  obtain ⟨file, hfile⟩ := hfile
  exact ⟨file, hfile, (init_init hwords hfile [(5, 6)]).2⟩

end PairList

end Vend
