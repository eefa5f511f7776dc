import Vend.Encode.SearchTree

/-! # How long a list the linear search takes

    `FindWithCount` of `DeltaSIMDCodec`, `V1` and `V2` on a list in which ids may repeat,
    which can be of any length that the `uint32_t` count can name. The number of control
    bytes is `(count + 3) / 4` in 32 bits. It wraps around for the last three counts, and
    the search then begins in the control bytes (`findsExactly_length_iff`).
-/

namespace Vend

namespace DeltaSIMDCodec

open GroupVarint
open DeltaSIMDEncode (Stored stream_of_stored)

/-! ## Section 1: Lists of all lengths -/

/-- The search in the bytes of the list answers where the element stands. -/
def FindsExactly (ver : Version) (ids : List Nat) : Prop :=
  ∀ mem, Stored mem (encodeArray ver ids) → ∀ element, 1 ≤ element → element < 2 ^ 31 →
    (findWithCount ver mem ids.length element = .exist ↔ element ∈ ids) ∧
    (findWithCount ver mem ids.length element = .lessThanMin ↔ ∀ id ∈ ids, element < id) ∧
    (findWithCount ver mem ids.length element = .greaterThanMax ↔ ∀ id ∈ ids, id < element) ∧
    (findWithCount ver mem ids.length element = .notExist ↔
      element ∉ ids ∧ (∃ id ∈ ids, id < element) ∧ ∃ id ∈ ids, element < id)

theorem findsExactly_of_length {ver : Version} {ids : List Nat} (h : NonDecreasing ids)
    (hne : ids ≠ []) (hcount : ids.length + 3 < 2 ^ 32) : FindsExactly ver ids := by
  intro mem hmem element _ he
  exact DeltaSIMDCodecV3.isFind_iff
    (findWithCount_spec (stream_of_stored hmem) h he hne hcount) hne

/-! ## Section 2: The counts that wrap around

    A list that repeats the greatest id. Every group of `V1` and `V2` has the control byte
    3, and of `V0` only the first one. -/

/-- The element that stands in the first control bytes. -/
def controlWord : Version → Nat
  | .v0 => 3
  | _ => 0x03030303

/-- The lanes that read the control bytes. -/
def controlLanes : Version → M128
  | .v0 => ⟨3, 0, 0, 0⟩
  | _ => ⟨0x03030303, 3, 3, 3⟩

/-- No lane is below the element, and the first one is equal. -/
theorem controlLanes_answer (ver : Version) :
    ltMask (recoveryFromDelta ver (controlLanes ver) (M128.set1 0)) (controlWord ver) = 0 ∧
    (recoveryFromDelta ver (controlLanes ver) (M128.set1 0)).l0 = controlWord ver := by
  cases ver <;> decide

theorem nonDecreasing_replicate (n : Nat) : NonDecreasing (List.replicate n (2 ^ 31 - 1)) := by
  refine ⟨List.pairwise_replicate.mpr (Or.inr (Nat.le_refl _)), fun id hid => ?_⟩
  rw [List.eq_of_mem_replicate hid]
  decide

/-- The first id of a group is stored, of `V0` the first one of the list, and the others are
    differences of 0. -/
theorem storedValue_replicate (ver : Version) {n k : Nat} (hk : k < n) :
    storedValue ver (List.replicate n (2 ^ 31 - 1)) k =
      if k = 0 ∨ ver ≠ .v0 ∧ k % 4 = 0 then 2 ^ 31 - 1 else 0 := by
  have hget : ∀ i ≤ k, (List.replicate n (2 ^ 31 - 1)).getD i 0 = 2 ^ 31 - 1 := by
    intro i hi
    rw [List.getD_eq_getElem _ _ (by rw [List.length_replicate]; omega), List.getElem_replicate]
  have hsame := hget k (Nat.le_refl k)
  have hprev := hget (k - 1) (by omega)
  have hgroup := hget (4 * (k / 4)) (by omega)
  cases ver with
  | v0 =>
    simp only [storedValue, hget 0 (Nat.zero_le k), hsame, hprev, ne_eq, not_true, false_and,
      or_false, Nat.sub_self]
  | v1 =>
    simp only [storedValue, hsame, hgroup, Nat.sub_self]
    by_cases hmod : k % 4 = 0
    · simp [hmod]
    · simp [hmod, show k ≠ 0 by omega]
  | v2 =>
    simp only [storedValue, hsame, hprev, Nat.sub_self]
    by_cases hmod : k % 4 = 0
    · simp [hmod]
    · simp [hmod, show k ≠ 0 by omega]

/-- A group of one long number and three short ones at the begin of the memory. -/
theorem decodeData_three (mem : Nat → BitVec 8) :
    decodeData mem 3 0 =
      ⟨(mem 0).toNat + (mem 1).toNat * 256 + (mem 2).toNat * 256 ^ 2 + (mem 3).toNat * 256 ^ 3,
        (mem 4).toNat, (mem 5).toNat, (mem 6).toNat⟩ := by
  have hlane : ∀ j < 4, shuffledLane mem 3 0 j =
      value (fun b => mem (0 + laneStart 3 j + b)) (codeAt 3 j + 1) := by
    intro j hj
    rw [← lane_decodeData mem 0 (by decide) hj, decodeData]
    exact (M128.lane_mk (shuffledLane mem 3 0) hj).symm
  have hlong : value (fun b => mem (0 + laneStart 3 0 + b)) (codeAt 3 0 + 1) =
      (mem 0).toNat + (mem 1).toNat * 256 + (mem 2).toNat * 256 ^ 2 + (mem 3).toNat * 256 ^ 3 := by
    rw [show codeAt 3 0 + 1 = 4 from rfl]
    simp only [value, laneStart, Nat.add_zero, Nat.zero_add, Nat.pow_zero, Nat.mul_one, Nat.pow_one]
  have hshort : ∀ p, value (fun b => mem (p + b)) 1 = (mem p).toNat := by
    intro p
    simp only [value, Nat.add_zero, Nat.zero_add, Nat.pow_zero, Nat.mul_one]
  have h₁ : value (fun b => mem (0 + laneStart 3 1 + b)) (codeAt 3 1 + 1) = (mem 4).toNat :=
    hshort 4
  have h₂ : value (fun b => mem (0 + laneStart 3 2 + b)) (codeAt 3 2 + 1) = (mem 5).toNat :=
    hshort 5
  have h₃ : value (fun b => mem (0 + laneStart 3 3 + b)) (codeAt 3 3 + 1) = (mem 6).toNat :=
    hshort 6
  rw [decodeData, hlane 0 (by decide), hlane 1 (by decide), hlane 2 (by decide),
    hlane 3 (by decide), hlong, h₁, h₂, h₃]

section

variable {ver : Version} {mem : Nat → BitVec 8} {n : Nat}
variable (hmem : Stored mem (encodeArray ver (List.replicate n (2 ^ 31 - 1))))
include hmem

/-- The control bytes of the list. -/
theorem control_replicate {g : Nat} (hg : 4 * g + 3 < n) :
    (mem g).toNat = if g = 0 ∨ ver ≠ .v0 then 3 else 0 := by
  have hcode : ∀ k < n, code (genValues ver 0 0 (List.replicate n (2 ^ 31 - 1))) k =
      if k = 0 ∨ ver ≠ .v0 ∧ k % 4 = 0 then 3 else 0 := by
    intro k hk
    rw [code, getD_genValues ver (nonDecreasing_replicate n) (by rwa [List.length_replicate]),
      storedValue_replicate ver hk]
    split <;> rfl
  rw [(stream_of_stored hmem).control g (by
    rw [length_genValues, List.length_replicate]
    unfold groups
    omega)]
  rw [controlOf, hcode _ (by omega), hcode _ (by omega), hcode _ (by omega), hcode _ hg]
  simp

/-- With no control bytes in the count, the data begins at the first of them. -/
theorem findWithCount_wrapped (hlow : 2 ^ 32 ≤ n + 3) (hhigh : n < 2 ^ 32) :
    findWithCount ver mem n (controlWord ver) = .exist := by
  -- the first group reads its own control byte and the six behind it
  have hbyte : ∀ g < 7, (mem g).toNat = if g = 0 ∨ ver ≠ .v0 then 3 else 0 :=
    fun g hg => control_replicate hmem (by omega)
  have hcontrol : (n + 3) % 2 ^ 32 / 4 = 0 := by omega
  have hfirst := hbyte 0 (by decide)
  rw [if_pos (Or.inl rfl)] at hfirst
  have hdata : decodeData mem 3 0 = controlLanes ver := by
    rw [decodeData_three, hfirst, hbyte 1 (by decide), hbyte 2 (by decide), hbyte 3 (by decide),
      hbyte 4 (by decide), hbyte 5 (by decide), hbyte 6 (by decide)]
    cases ver <;> rfl
  unfold findWithCount
  simp only [hcontrol, hfirst, hdata]
  rw [if_neg (by decide), if_pos (controlLanes_answer ver).1, if_pos (controlLanes_answer ver).2]

end

/-- Lists of which length are searched exactly. -/
theorem findsExactly_length_iff (ver : Version) {n : Nat} (hpos : 1 ≤ n) (hlt : n < 2 ^ 32) :
    (∀ ids, ids.length = n → NonDecreasing ids → FindsExactly ver ids) ↔ n + 3 < 2 ^ 32 := by
  constructor
  · intro hall
    -- one list of this length is enough: the greatest id, over and over
    by_contra hwrap
    have hstored : Stored (fun p => (encodeArray ver (List.replicate n (2 ^ 31 - 1))).getD p 0)
        (encodeArray ver (List.replicate n (2 ^ 31 - 1))) := fun _ _ => rfl
    have hexact := hall _ List.length_replicate (nonDecreasing_replicate n) _ hstored
      (controlWord ver) (by cases ver <;> decide) (by cases ver <;> decide)
    have hfound := findWithCount_wrapped hstored (Nat.not_lt.mp hwrap) hlt
    rw [List.length_replicate] at hexact
    -- the only id of the list is another one
    have hid := List.eq_of_mem_replicate (hexact.1.mp hfound)
    cases ver <;> exact absurd hid (by decide)
  · intro hcount ids hlen h
    subst hlen
    exact findsExactly_of_length h (List.length_pos_iff.mp hpos) hcount

theorem findsExactly_length_iff_two :
    (∀ ids, ids.length = 2 → NonDecreasing ids → FindsExactly .v1 ids) ↔ 2 + 3 < 2 ^ 32 :=
  findsExactly_length_iff .v1 (by decide) (by decide)

/-- A list of 2^32 - 3 times the greatest id: the search finds 3, 3, 3, 3, the four control
    bytes in front. -/
theorem control_bytes_found :
    NonDecreasing (List.replicate (2 ^ 32 - 3) (2 ^ 31 - 1)) ∧
    ¬ FindsExactly .v2 (List.replicate (2 ^ 32 - 3) (2 ^ 31 - 1)) := by
  refine ⟨nonDecreasing_replicate _, fun h => ?_⟩
  have hstored : Stored
      (fun p => (encodeArray .v2 (List.replicate (2 ^ 32 - 3) (2 ^ 31 - 1))).getD p 0)
      (encodeArray .v2 (List.replicate (2 ^ 32 - 3) (2 ^ 31 - 1))) := fun _ _ => rfl
  have hexact := (h _ hstored (controlWord .v2) (by decide) (by decide)).1
  rw [List.length_replicate] at hexact
  have hfound := findWithCount_wrapped hstored (by decide) (by decide)
  exact absurd (List.eq_of_mem_replicate (hexact.mp hfound)) (by decide)

end DeltaSIMDCodec

end Vend
