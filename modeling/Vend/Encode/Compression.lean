import Vend.Common.Config
import Vend.Lib.GapCost

/-! # The sizes of compressed lists

    `encode/single/compression.h`: the bits that `BitsComp`, `VbyteComp` and
    `VbyteDeltaComp` need for a list. Each of the three adds them up in a `uint32_t`.

    `BitsComp` takes `VERTEX_BIT_SIZE` bits for an id, `VbyteComp` seven payload bits to a
    byte, one to four bytes for an id, and `VbyteDeltaComp` the same for the difference
    to the id in front. The sum itself (`fullBits`) does not grow when an id is taken out of an
    ascending list: the two differences that are merged never take more bytes together.
-/

namespace Vend

/-! ## Section 1: Model -/

namespace BitsComp

/-- `GetRequiredBits(list)`. -/
def getRequiredBits (c : Config) (list : List Nat) : Nat :=
  list.length * c.vertexBitSize % 2 ^ 32

end BitsComp

namespace VbyteComp

/-- `range`: the largest number of one, two and three bytes. -/
def range : List Nat := [127, 16383, 2097151]

/-- `IntegerBytes(value)`. -/
def integerBytes (value : Nat) : Nat := range.findIdx (fun largest => decide (value ≤ largest)) + 1

/-- `GetRequiredBits(list)`. -/
def getRequiredBits (list : List Nat) : Nat :=
  list.foldl (fun bytes v => (bytes + 8 * integerBytes v) % 2 ^ 32) 0

end VbyteComp

namespace VbyteDeltaComp

/-- `GetDeltas(list)`. -/
def getDeltas : List Nat → List Nat
  | [] => []
  | first :: rest => first :: List.zipWith sub32 rest (first :: rest)

/-- `GetRequiredBits(list)`. -/
def getRequiredBits (list : List Nat) : Nat := VbyteComp.getRequiredBits (getDeltas list)

end VbyteDeltaComp

/-! ## Section 2: The sums -/

namespace VbyteComp

theorem integerBytes_eq (value : Nat) : integerBytes value =
    if value ≤ 127 then 1 else if value ≤ 16383 then 2 else if value ≤ 2097151 then 3 else 4 := by
  unfold integerBytes range
  simp only [List.findIdx_cons, List.findIdx_nil, Bool.cond_decide]
  split_ifs <;> rfl

theorem integerBytes_le (value : Nat) : integerBytes value ≤ 4 := by
  rw [integerBytes_eq]
  split_ifs <;> omega

/-- A sum takes no more bytes than its parts. -/
theorem integerBytes_add_le (a b : Nat) :
    integerBytes (a + b) ≤ integerBytes a + integerBytes b := by
  rw [integerBytes_eq, integerBytes_eq, integerBytes_eq]
  split_ifs <;> omega

/-- The bits of a number. -/
def integerBits (value : Nat) : Nat := 8 * integerBytes value

theorem integerBits_le (value : Nat) : integerBits value ≤ 32 := by
  have hle := integerBytes_le value
  unfold integerBits
  omega

theorem integerBits_add_le (a b : Nat) : integerBits (a + b) ≤ integerBits a + integerBits b := by
  have hle := integerBytes_add_le a b
  unfold integerBits
  omega

/-- The bits of a list, not cut to 32 bits. -/
def fullBits (list : List Nat) : Nat := (list.map integerBits).sum

theorem getRequiredBits_eq (list : List Nat) : getRequiredBits list = fullBits list % 2 ^ 32 := by
  have key : ∀ (list : List Nat) (bytes : Nat),
      list.foldl (fun bytes v => (bytes + 8 * integerBytes v) % 2 ^ 32) (bytes % 2 ^ 32) =
        (bytes + fullBits list) % 2 ^ 32 := by
    intro list
    induction list with
    | nil => exact fun bytes => rfl
    | cons v list ih =>
      intro bytes
      rw [List.foldl_cons, Nat.mod_add_mod, ih, Nat.add_assoc]
      rfl
  have hfold := key list 0
  rwa [Nat.zero_mod, Nat.zero_add] at hfold

theorem fullBits_sublist {list' list : List Nat} (hsub : list'.Sublist list) :
    fullBits list' ≤ fullBits list :=
  (hsub.map integerBits).sum_le_sum fun _ _ => Nat.zero_le _

end VbyteComp

namespace VbyteDeltaComp

open VbyteComp (integerBits)

/-- The bits of the differences of a list, not cut to 32 bits. -/
def fullBits (list : List Nat) : Nat := GapCost.cost integerBits 0 list

/-- The differences of an ascending list are its gaps. -/
theorem getDeltas_eq {list : List Nat} (h : list.Pairwise (· ≤ ·)) (hlt : ∀ x ∈ list, x < 2 ^ 32) :
    getDeltas list = GapCost.gaps 0 list := by
  cases list with
  | nil => rfl
  | cons first rest =>
    rw [getDeltas, GapCost.gaps, Nat.sub_zero]
    congr 1
    -- behind the first number the two lists are built alike
    induction rest generalizing first with
    | nil => rfl
    | cons next rest ih =>
      obtain ⟨hhead, htail⟩ := List.pairwise_cons.mp h
      have hstep := sub32_of_le (hhead next (by simp)) (hlt next (by simp))
      rw [List.zipWith_cons_cons, GapCost.gaps, hstep,
        ih next htail fun x hx => hlt x (List.mem_cons_of_mem _ hx)]

theorem getRequiredBits_eq {list : List Nat} (h : list.Pairwise (· ≤ ·))
    (hlt : ∀ x ∈ list, x < 2 ^ 32) : getRequiredBits list = fullBits list % 2 ^ 32 := by
  rw [getRequiredBits, getDeltas_eq h hlt, VbyteComp.getRequiredBits_eq]
  rfl

theorem fullBits_sublist {list' list : List Nat} (hsub : list'.Sublist list)
    (h : list.Pairwise (· ≤ ·)) : fullBits list' ≤ fullBits list :=
  GapCost.cost_sublist VbyteComp.integerBits_add_le hsub h fun _ _ => Nat.zero_le _

theorem fullBits_range' (n : Nat) : fullBits (List.range' 1 n) = 8 * n := by
  have hone : integerBits 1 = 8 := by decide
  have hcost := @GapCost.cost_range' integerBits 0 n
  rw [Nat.zero_add, hone] at hcost
  rw [fullBits, hcost, Nat.mul_comm]

end VbyteDeltaComp

end Vend
