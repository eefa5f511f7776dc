import Mathlib.Data.List.TakeWhile

/-! # Decimal numbers in text streams

    What `operator<<` and `operator>>` of an iostream do with unsigned integers,
    and `std::getline`, on lists of characters. Signs are left out: nothing that
    `insert` writes has one.

    A row is a sequence of numbers with a tab behind each, and `extractAll_row` is
    its round trip.
-/

namespace DecimalText

/-- `out << n`. -/
def insert (n : Nat) : List Char := Nat.toDigits 10 n

/-- `in >> n` for numbers below `bound`: white space is skipped and the digits are read.
    `none` is the fail state. -/
def extract (bound : Nat) (s : List Char) : Option (Nat × List Char) :=
  let s := s.dropWhile Char.isWhitespace
  let digits := s.takeWhile Char.isDigit
  let n := Nat.ofDigitChars 10 digits 0
  if digits ≠ [] ∧ n < bound then some (n, s.dropWhile Char.isDigit) else none

/-- `while (in >> n) ns.push_back(n);`, at most `fuel` numbers. -/
def extractUpTo (bound : Nat) : Nat → List Char → List Nat
  | 0, _ => []
  | fuel + 1, s =>
    match extract bound s with
    | none => []
    | some (n, s) => n :: extractUpTo bound fuel s

/-- All numbers of a stream. Every number takes a character. -/
def extractAll (bound : Nat) (s : List Char) : List Nat := extractUpTo bound s.length s

/-- `for (i = 0; i < n; ++i) in >> ns[i];`; `none` when a number fails. -/
def extractN (bound : Nat) : Nat → List Char → Option (List Nat)
  | 0, _ => some []
  | n + 1, s => do
    let (m, s) ← extract bound s
    let ms ← extractN bound n s
    return m :: ms

/-- The lines that `std::getline` returns one after the other. -/
def lines : List Char → List (List Char)
  | [] => []
  | c :: s =>
    if c = '\n' then [] :: lines s
    else match lines s with
      | [] => [[c]]
      | l :: ls => (c :: l) :: ls

/-- `for (auto &n : ns) out << n << "\t";` -/
def row (ns : List Nat) : List Char := ns.flatMap fun n => insert n ++ ['\t']

theorem isDigit_of_mem_insert {n : Nat} {c : Char} (hc : c ∈ insert n) : c.isDigit = true :=
  Nat.isDigit_of_mem_toDigits (by decide) (by decide) hc

theorem not_mem_insert {n : Nat} {c : Char} (hc : c.isDigit = false) : c ∉ insert n := by
  intro hmem
  rw [isDigit_of_mem_insert hmem] at hc
  cases hc

theorem not_isWhitespace_of_isDigit {c : Char} (hc : c.isDigit = true) :
    ¬ c.isWhitespace = true := by
  intro hspace
  simp only [Char.isWhitespace, Bool.or_eq_true, decide_eq_true_eq] at hspace
  rcases hspace with ((rfl | rfl) | rfl) | rfl <;> revert hc <;> decide

/-- White space in front does not matter. -/
theorem extract_cons_of_isWhitespace {bound : Nat} {c : Char} (hc : c.isWhitespace = true)
    (s : List Char) : extract bound (c :: s) = extract bound s := by
  unfold extract
  rw [List.dropWhile_cons_of_pos hc]

/-- A number with a character behind it that is no digit is read back. -/
theorem extract_insert {bound n : Nat} (hn : n < bound) {c : Char} (hc : c.isDigit = false)
    (s : List Char) : extract bound (insert n ++ c :: s) = some (n, c :: s) := by
  have hdigits : ∀ d ∈ insert n, d.isDigit = true := fun d => isDigit_of_mem_insert
  have hspace : (insert n ++ c :: s).dropWhile Char.isWhitespace = insert n ++ c :: s := by
    cases hcase : insert n with
    | nil => exact absurd hcase Nat.toDigits_ne_nil
    | cons d ds =>
      exact List.dropWhile_cons_of_neg
        (not_isWhitespace_of_isDigit (hdigits d (by simp [hcase])))
  have htake : (insert n ++ c :: s).takeWhile Char.isDigit = insert n := by
    rw [List.takeWhile_append_of_pos hdigits, List.takeWhile_cons_of_neg (by simp [hc]),
      List.append_nil]
  have hdrop : (insert n ++ c :: s).dropWhile Char.isDigit = c :: s := by
    rw [List.dropWhile_append_of_pos hdigits, List.dropWhile_cons_of_neg (by simp [hc])]
  have hvalue : Nat.ofDigitChars 10 (insert n) 0 = n :=
    Nat.ofDigitChars_toDigits (by decide) (by decide)
  unfold extract
  simp only [hspace, htake, hdrop, hvalue]
  exact if_pos ⟨Nat.toDigits_ne_nil, hn⟩

/-- A number at the end of the stream is read back. -/
theorem extract_insert_end {bound n : Nat} (hn : n < bound) :
    extract bound (insert n) = some (n, []) := by
  have hdigits : ∀ d ∈ insert n, d.isDigit = true := fun d => isDigit_of_mem_insert
  have hspace : (insert n).dropWhile Char.isWhitespace = insert n := by
    cases hcase : insert n with
    | nil => rfl
    | cons d ds =>
      exact List.dropWhile_cons_of_neg
        (not_isWhitespace_of_isDigit (hdigits d (by simp [hcase])))
  have htake : (insert n).takeWhile Char.isDigit = insert n := List.takeWhile_eq_self_iff.mpr hdigits
  have hdrop : (insert n).dropWhile Char.isDigit = [] := List.dropWhile_eq_nil_iff.mpr hdigits
  have hvalue : Nat.ofDigitChars 10 (insert n) 0 = n :=
    Nat.ofDigitChars_toDigits (by decide) (by decide)
  unfold extract
  simp only [hspace, htake, hdrop, hvalue]
  exact if_pos ⟨Nat.toDigits_ne_nil, hn⟩

theorem extractUpTo_row {bound : Nat} (ns : List Nat) (hns : ∀ n ∈ ns, n < bound) :
    ∀ fuel, ns.length < fuel → ∀ c : Char, c.isWhitespace = true →
      extractUpTo bound fuel (row ns) = ns ∧ extractUpTo bound fuel (c :: row ns) = ns := by
  induction ns with
  | nil =>
    intro fuel hfuel c hc
    obtain ⟨fuel, rfl⟩ := Nat.exists_eq_succ_of_ne_zero (by omega : fuel ≠ 0)
    have hnone : extract bound [] = none := by simp [extract]
    simp [row, extractUpTo, extract_cons_of_isWhitespace hc, hnone]
  | cons n ns ih =>
    intro fuel hfuel c hc
    obtain ⟨fuel, rfl⟩ := Nat.exists_eq_succ_of_ne_zero (by omega : fuel ≠ 0)
    rw [List.length_cons] at hfuel
    obtain ⟨-, hrest⟩ := ih (fun m hm => hns m (by simp [hm])) fuel (by omega) '\t' (by decide)
    have hread : extract bound (row (n :: ns)) = some (n, '\t' :: row ns) := by
      have heq : row (n :: ns) = insert n ++ '\t' :: row ns := by simp [row]
      rw [heq]
      exact extract_insert (hns n (by simp)) (by decide) _
    constructor
    · simp only [extractUpTo, hread, hrest]
    · simp only [extractUpTo, extract_cons_of_isWhitespace hc, hread, hrest]

theorem length_le_length_row (ns : List Nat) : ns.length ≤ (row ns).length := by
  induction ns with
  | nil => simp
  | cons n ns ih =>
    simp only [row, List.flatMap_cons, List.length_append, List.length_cons, List.length_nil] at ih ⊢
    omega

/-- A row is read back, also behind the tab of a number in front of it. -/
theorem extractAll_row {bound : Nat} {ns : List Nat} (hns : ∀ n ∈ ns, n < bound) :
    extractAll bound ('\t' :: row ns) = ns := by
  have hlen := length_le_length_row ns
  exact (extractUpTo_row ns hns _ (by simp only [List.length_cons]; omega) '\t' (by decide)).2

/-- A row of known length is read back, also behind white space. -/
theorem extractN_row {bound : Nat} (ns : List Nat) (hns : ∀ n ∈ ns, n < bound) {c : Char}
    (hc : c.isWhitespace = true) :
    extractN bound ns.length (row ns) = some ns ∧
      extractN bound ns.length (c :: row ns) = some ns := by
  induction ns generalizing c with
  | nil => exact ⟨rfl, rfl⟩
  | cons n ns ih =>
    obtain ⟨-, hrest⟩ := ih (fun m hm => hns m (by simp [hm])) (c := '\t') (by decide)
    have heq : row (n :: ns) = insert n ++ '\t' :: row ns := by simp [row]
    have hread : extract bound (row (n :: ns)) = some (n, '\t' :: row ns) := by
      rw [heq]
      exact extract_insert (hns n (by simp)) (by decide) _
    constructor
    · simp only [List.length_cons, extractN, hread, Option.bind_eq_bind, Option.bind_some, hrest]
      rfl
    · simp only [List.length_cons, extractN, extract_cons_of_isWhitespace hc, hread,
        Option.bind_eq_bind, Option.bind_some, hrest]
      rfl

/-- A line is what stands in front of the first newline. -/
theorem lines_append {l : List Char} (hl : '\n' ∉ l) (s : List Char) :
    lines (l ++ '\n' :: s) = l :: lines s := by
  induction l with
  | nil => simp [lines]
  | cons c l ih =>
    have hc : c ≠ '\n' := fun h => hl (by simp [h])
    have hrest := ih fun h => hl (by simp [h])
    simp [lines, hc, hrest]

theorem newline_not_mem_row (ns : List Nat) : '\n' ∉ row ns := by
  intro hmem
  obtain ⟨n, -, hn⟩ := List.mem_flatMap.mp hmem
  rcases List.mem_append.mp hn with hn | hn
  · exact not_mem_insert (by decide) hn
  · simp at hn

end DecimalText
