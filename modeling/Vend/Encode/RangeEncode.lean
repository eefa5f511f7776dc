import Vend.Encode.Verdict
import Mathlib.Data.List.Sort

/-! # Range encoding

    `encode/single/range_encode.h` and `range_encode.cpp`. A record is a flag
    word and `K_SIZE - 1` words of ids. A list that fits is stored whole. Of a
    longer one the record stores a window of consecutive ids, and everything
    outside the window is uncertain. The window may lean on the smallest or the
    largest possible id, 0 or `VERTEX_SIZE + 1`, in place of one neighbour.

    `speaks_encodeBits` says what a record answers: exactly what it was given
    when the list fits, and nothing false otherwise.
-/

namespace Vend

namespace RangeEncode

open BitField BitSetSIMD

/-! ## Section 1: Model -/

/-- `max_int_size_`. -/
def maxIntSize (c : Config) : Nat := c.kSize - 1

/-- `BlockGet(i * v_bits_size_, v_bits_size_)`, where `v_bits_size_` is 32. -/
def word (encode : BitSetSIMD) (i : Nat) : Nat := encode.blockGet (i * 32) 32

/-- `GetFlag(vertex)`. -/
def getFlag (encode : BitSetSIMD) : Bool := word encode 0 ≠ 0

/-- The words that the loops over the ids read. -/
def slots (c : Config) (encode : BitSetSIMD) : List Nat :=
  (List.range' 1 (maxIntSize c)).map (word encode)

/-- `NonNeighborTest(vertex1, vertex2)` on the record of `vertex1`. -/
def testBits (c : Config) (encode : BitSetSIMD) (vertex2 : Nat) : PairType :=
  if getFlag encode then
    if vertex2 ∈ slots c encode then .neighbor else .nonNeighbor
  else if vertex2 = word encode 1 ∨ vertex2 = word encode (maxIntSize c) then .neighbor
  else if vertex2 < word encode 1 ∨ word encode (maxIntSize c) < vertex2 then .uncertain
  else if vertex2 ∈ slots c encode then .neighbor
  else .nonNeighbor

/-- The window search of `EncodeVertex`; `none` is the index -1. -/
def chooseIdx (c : Config) (neighbors : List Nat) : Option Nat :=
  let size := neighbors.length
  let best := (List.range (size - maxIntSize c + 1)).foldl
    (fun (best : Option Nat × Nat) i =>
      let score := sub32 (neighbors.getD (i + maxIntSize c - 1) 0) (neighbors.getD i 0)
      if best.2 < score then (some i, score) else best)
    (none, neighbors.getD (maxIntSize c - 2) 0)
  if best.2 < sub32 c.vertexIdUpper (neighbors.getD (size - maxIntSize c + 1) 0) then
    some (size - maxIntSize c + 1)
  else best.1

/-- The value that the last loop of `EncodeVertex` writes to word `i`. -/
def windowWord (c : Config) (neighbors : List Nat) (i : Nat) : Option Nat → Nat
  | none => if i = 1 then 0 else neighbors.getD (i - 2) 0
  | some idx =>
    if i = maxIntSize c ∧ idx = neighbors.length - maxIntSize c + 1 then c.vertexIdUpper
    else neighbors.getD (idx + i - 1) 0

/-- The words of a list that does not fit. -/
def window (c : Config) (neighbors : List Nat) : List Nat :=
  (List.range' 1 (maxIntSize c)).map fun i => windowWord c neighbors i (chooseIdx c neighbors)

/-- `EncodeVertex` on the record of its vertex: the list is sorted first. -/
def encodeBits (c : Config) (neighbors : List Nat) (encode : BitSetSIMD) : BitSetSIMD :=
  let neighbors := neighbors.insertionSort (· ≤ ·)
  let encode := encode.clear
  if neighbors.length ≤ maxIntSize c then
    blockSetList 32 (encode.blockSet 0 32 1) 32 neighbors
  else blockSetList 32 (encode.blockSet 0 32 0) 32 (window c neighbors)

/-- `EncodeVertex(vertex_id, neighbors)`. -/
def encodeVertex (c : Config) (vertexId : Nat) (neighbors : List Nat) (encodes : Records) :
    Records :=
  encodes.update vertexId (encodeBits c neighbors)

/-- `NonNeighborTest(vertex1, vertex2)`. -/
def nonNeighborTest (c : Config) (encodes : Records) (vertex1 vertex2 : Nat) : PairType :=
  testBits c (encodes.record vertex1) vertex2

/-- `NEpairTest(vertex1, vertex2)`. -/
def nePairTest (c : Config) (encodes : Records) (vertex1 vertex2 : Nat) : PairType :=
  let type1 := nonNeighborTest c encodes vertex1 vertex2
  let type2 := nonNeighborTest c encodes vertex2 vertex1
  if type1.val < type2.val then type1 else type2

/-- `GetIntSize()`. -/
def getIntSize (c : Config) : Nat := maxIntSize c

theorem nePairTest_eq_min (c : Config) (encodes : Records) (u v : Nat) :
    nePairTest c encodes u v =
      PairType.min (nonNeighborTest c encodes u v) (nonNeighborTest c encodes v u) := by
  unfold nePairTest
  cases nonNeighborTest c encodes u v <;> cases nonNeighborTest c encodes v u <;> rfl

/-! ## Section 2: Writing words -/

/-- Two to 63 words of ids behind the flag, and two bounds that a word holds. -/
structure Worded (c : Config) : Prop where
  kSize_ge : 3 ≤ c.kSize
  kSize_le : c.kSize ≤ 64
  vertexSize_lt : c.vertexSize + 1 < 2 ^ 32

/-- A configuration for the range encoding: two to 63 words of ids behind the flag,
    and a largest id that 31 bits hold, so that `int size` is the length of every
    list of neighbours. -/
structure Ranged (c : Config) : Prop where
  kSize_ge : 3 ≤ c.kSize
  kSize_le : c.kSize ≤ 64
  vertexSize_lt : c.vertexSize + 1 < 2 ^ 31

theorem Ranged.worded {c : Config} (hc : Ranged c) : Worded c :=
  ⟨hc.kSize_ge, hc.kSize_le, Nat.lt_trans hc.vertexSize_lt (by decide)⟩

section

variable {c : Config} (hc : Worded c)
include hc

theorem maxIntSize_ge : 2 ≤ maxIntSize c := by
  have := hc.kSize_ge
  unfold maxIntSize
  omega

theorem perEncodeBitSize_eq : c.perEncodeBitSize = 32 * maxIntSize c + 32 := by
  have := hc.kSize_ge
  unfold Config.perEncodeBitSize maxIntSize
  omega

theorem vertexIdUpper_eq : c.vertexIdUpper = c.vertexSize + 1 := by
  have := hc.vertexSize_lt
  exact Nat.mod_eq_of_lt (by omega)

/-- A record after the flag and the words in front have been written on cleared
    bits. -/
structure WordRecord (c : Config) (flag : Bool) (values : List Nat) (encode : BitSetSIMD) :
    Prop where
  isRecord : IsRecord c encode
  flag : getFlag encode = flag
  slots : slots c encode = values ++ List.replicate (maxIntSize c - values.length) 0

/-- Clearing a record makes it a new one. -/
theorem clear_eq {bs : BitSetSIMD} (hrec : IsRecord c bs) :
    bs.clear = ofBitSize c.perEncodeBitSize := by
  have hper := perEncodeBitSize_eq hc
  unfold IsRecord bitLength at hrec
  unfold BitSetSIMD.clear ofBitSize
  congr 2
  omega

theorem wordRecord_write (flag : Bool) {values : List Nat}
    (hlen : values.length ≤ maxIntSize c) (hvalues : ∀ v ∈ values, v < 2 ^ 32) :
    WordRecord c flag values (blockSetList 32
      ((ofBitSize c.perEncodeBitSize).blockSet 0 32 flag.toNat) 32 values) := by
  have hper := perEncodeBitSize_eq hc
  have hk := hc.kSize_le
  have hm : maxIntSize c ≤ 63 := by unfold maxIntSize; omega
  have hrec : (ofBitSize c.perEncodeBitSize).bitLength = c.perEncodeBitSize := isRecord_ofBitSize c
  have hflag : flag.toNat < 2 ^ 32 := by cases flag <;> decide
  have hstore : ((ofBitSize c.perEncodeBitSize).blockSet 0 32 flag.toNat).bit =
      store (ofBitSize c.perEncodeBitSize).bit 0 32 flag.toNat :=
    bit_blockSet _ (by omega) (by omega) (by omega) (by omega) hflag
  obtain ⟨hread, hrest⟩ := bit_blockSetList (by omega) (by omega)
    ((ofBitSize c.perEncodeBitSize).blockSet 0 32 flag.toNat) 32 hvalues
    (by rw [bitLength_blockSet]; omega) (by rw [bitLength_blockSet]; omega)
  generalize hencode : blockSetList 32 ((ofBitSize c.perEncodeBitSize).blockSet 0 32 flag.toNat)
    32 values = encode at hread hrest
  have hword : ∀ i, word encode i = field encode.bit (i * 32) 32 :=
    fun i => blockGet_eq _ (by omega) (by omega)
  refine ⟨?_, ?_, ?_⟩
  · rw [IsRecord, bitLength, ← hencode, length_blockSetList, length_blockSet]
    exact hrec
  · have hzero : word encode 0 = flag.toNat := by
      rw [hword, Nat.zero_mul, field_congr fun p _ h₂ => hrest p (by omega), hstore]
      exact field_store_self _ hflag
    rw [getFlag, hzero]
    cases flag <;> decide
  · apply List.ext_getElem
    · simp [slots]
      omega
    · intro i h₁ h₂
      simp only [slots, List.getElem_map, List.getElem_range', hword]
      rw [show (1 + 1 * i) * 32 = 32 + i * 32 by omega]
      by_cases hi : i < values.length
      · rw [List.getElem_append_left hi]
        exact hread i hi
      · -- behind the values the record is still cleared
        rw [List.getElem_append_right (by omega), List.getElem_replicate]
        apply field_eq_zero
        intro p hp _
        rw [hrest p (by omega), hstore, store_outside _ (by omega), bit_ofBitSize]

/-! ## Section 3: The window -/

omit hc in
/-- The search ends left of all ids, inside the list or right of all ids. -/
theorem chooseIdx_le {neighbors : List Nat} {idx : Nat} (h : chooseIdx c neighbors = some idx) :
    idx ≤ neighbors.length - maxIntSize c + 1 := by
  have hfold : ∀ (is : List Nat) (best : Option Nat × Nat) (n : Nat), (∀ i ∈ is, i ≤ n) →
      (∀ i, best.1 = some i → i ≤ n) → ∀ i, (is.foldl (fun (best : Option Nat × Nat) i =>
        if best.2 < sub32 (neighbors.getD (i + maxIntSize c - 1) 0) (neighbors.getD i 0) then
          (some i, sub32 (neighbors.getD (i + maxIntSize c - 1) 0) (neighbors.getD i 0))
        else best) best).1 = some i → i ≤ n := by
    intro is
    induction is with
    | nil => exact fun best n _ hbest => hbest
    | cons j is ih =>
      intro best n his hbest
      rw [List.foldl_cons]
      apply ih _ n (fun i hi => his i (by simp [hi]))
      intro i hi
      split at hi
      · cases hi
        exact his j (by simp)
      · exact hbest i hi
  unfold chooseIdx at h
  simp only at h
  split at h
  · cases h
    omega
  · refine hfold _ _ _ ?_ ?_ idx h
    · intro i hi
      have := List.mem_range.mp hi
      omega
    · intro i hi
      cases hi

/-- A window of a list: the block in it, with 0 in front, with the upper bound
    behind, or with neither. -/
def IsWindow (c : Config) (ids words : List Nat) : Prop :=
  ∃ before block after, ids = before ++ block ++ after ∧
    ((before = [] ∧ words = 0 :: block) ∨ words = block ∨
      (after = [] ∧ words = block ++ [c.vertexIdUpper]))

theorem isWindow_window {neighbors : List Nat} (hlong : maxIntSize c < neighbors.length) :
    IsWindow c neighbors (window c neighbors) ∧ (window c neighbors).length = maxIntSize c := by
  have hm := maxIntSize_ge hc
  refine ⟨?_, by simp [window]⟩
  unfold window
  cases hidx : chooseIdx c neighbors with
  | none =>
    -- no index was chosen: the first window, with the lower bound in front of it
    refine ⟨[], neighbors.take (maxIntSize c - 1), neighbors.drop (maxIntSize c - 1), by simp,
      Or.inl ⟨rfl, ?_⟩⟩
    apply List.ext_getElem
    · simp
      omega
    · intro i h₁ h₂
      simp only [List.getElem_map, List.getElem_range', windowWord]
      cases i with
      | zero => simp
      | succ i =>
        have hi : i < neighbors.length := by
          simp only [List.length_map, List.length_range'] at h₁
          omega
        rw [if_neg (by omega), show 1 + 1 * (i + 1) - 2 = i by omega, List.getElem_cons_succ,
          List.getElem_take, List.getD_eq_getElem _ _ hi]
  | some idx =>
    have hle := chooseIdx_le hidx
    by_cases hlast : idx = neighbors.length - maxIntSize c + 1
    · -- the last window: one id fewer, and the upper bound behind it
      refine ⟨neighbors.take idx, neighbors.drop idx, [], by simp, Or.inr (Or.inr ⟨rfl, ?_⟩)⟩
      apply List.ext_getElem
      · simp
        omega
      · intro i h₁ h₂
        simp only [List.length_map, List.length_range'] at h₁
        simp only [List.getElem_map, List.getElem_range', windowWord]
        by_cases hi : i = maxIntSize c - 1
        · rw [if_pos ⟨by omega, hlast⟩, List.getElem_append_right (by simp; omega)]
          simp
        · have hlt : idx + i < neighbors.length := by omega
          rw [if_neg (by omega), List.getElem_append_left (by simp; omega), List.getElem_drop,
            show idx + (1 + 1 * i) - 1 = idx + i by omega, List.getD_eq_getElem _ _ hlt]
    · refine ⟨neighbors.take idx, (neighbors.drop idx).take (maxIntSize c),
        neighbors.drop (idx + maxIntSize c), ?_, Or.inr (Or.inl ?_)⟩
      · rw [List.append_assoc, ← List.drop_drop, List.take_append_drop, List.take_append_drop]
      · apply List.ext_getElem
        · simp
          omega
        · intro i h₁ h₂
          simp only [List.length_map, List.length_range'] at h₁
          have hlt : idx + i < neighbors.length := by omega
          simp only [List.getElem_map, List.getElem_range', windowWord]
          rw [if_neg (by omega), List.getElem_take, List.getElem_drop,
            show idx + (1 + 1 * i) - 1 = idx + i by omega, List.getD_eq_getElem _ _ hlt]

/-! ## Section 4: What a record answers -/

omit hc in
/-- A slot by its word. -/
theorem getElem_slots {encode : BitSetSIMD} {i : Nat} (hi : i < (slots c encode).length) :
    (slots c encode)[i] = word encode (i + 1) := by
  simp [slots, Nat.add_comm]

/-- An id in the window is one of the list: the two bounds are no ids. -/
theorem IsWindow.mem_of_mem {ids words : List Nat} (h : IsWindow c ids words) {v : Nat}
    (hv : 1 ≤ v) (hv' : v ≤ c.vertexSize) (hmem : v ∈ words) : v ∈ ids := by
  have hupper := vertexIdUpper_eq hc
  obtain ⟨before, block, after, rfl, hshape⟩ := h
  have hblock : v ∈ block := by
    rcases hshape with ⟨-, rfl⟩ | rfl | ⟨-, rfl⟩
    · rcases List.mem_cons.mp hmem with rfl | hmem
      · omega
      · exact hmem
    · exact hmem
    · rcases List.mem_append.mp hmem with hmem | hmem
      · exact hmem
      · rw [List.mem_singleton.mp hmem] at hv'
        omega
  simp [hblock]

/-- An id of the list that is not in the window does not stand between its ends. -/
theorem IsWindow.outside {ids words : List Nat} (h : IsWindow c ids words)
    (hsorted : ids.Pairwise (· ≤ ·)) (hlen : words.length = maxIntSize c) {v : Nat} (hv : v ∈ ids)
    (hnot : v ∉ words) : v ≤ words.getD 0 0 ∨ words.getD (maxIntSize c - 1) 0 ≤ v := by
  have hm := maxIntSize_ge hc
  obtain ⟨before, block, after, rfl, hshape⟩ := h
  rw [List.pairwise_append, List.pairwise_append] at hsorted
  obtain ⟨⟨-, -, hbefore⟩, -, hafter⟩ := hsorted
  rw [List.getD_eq_getElem _ _ (show 0 < words.length by omega),
    List.getD_eq_getElem _ _ (show maxIntSize c - 1 < words.length by omega)]
  rcases List.mem_append.mp hv with hinner | hright
  · rcases List.mem_append.mp hinner with hleft | hmiddle
    · -- in front of the block, which then begins the window
      left
      rcases hshape with ⟨rfl, -⟩ | rfl | ⟨-, rfl⟩
      · cases hleft
      · exact hbefore v hleft _ (List.getElem_mem _)
      · rw [List.length_append, List.length_singleton] at hlen
        rw [List.getElem_append_left (by omega)]
        exact hbefore v hleft _ (List.getElem_mem _)
    · refine absurd ?_ hnot
      rcases hshape with ⟨-, rfl⟩ | rfl | ⟨-, rfl⟩ <;> simp [hmiddle]
  · -- behind the block, which then ends the window
    right
    rcases hshape with ⟨-, rfl⟩ | rfl | ⟨rfl, -⟩
    · rw [List.getElem_cons, dif_neg (by omega)]
      exact hafter _ (List.mem_append_right _ (List.getElem_mem _)) v hright
    · exact hafter _ (List.mem_append_right _ (List.getElem_mem _)) v hright
    · cases hright

/-- The verdict of a record that holds a window. -/
theorem speaks_window {ids words : List Nat} {encode : BitSetSIMD} (hsorted : ids.Pairwise (· ≤ ·))
    (hwindow : IsWindow c ids words) (hlen : words.length = maxIntSize c)
    (hrec : WordRecord c false words encode) {v : Nat} (hv : 1 ≤ v) (hv' : v ≤ c.vertexSize) :
    Speaks (getFlag encode) (v ∈ ids) (testBits c encode v) := by
  have hm := maxIntSize_ge hc
  have hslots : slots c encode = words := by rw [hrec.slots, hlen]; simp
  have hword : ∀ i < maxIntSize c, word encode (i + 1) = words.getD i 0 := by
    intro i hi
    simp only [← hslots]
    rw [List.getD_eq_getElem _ _ (by rw [hslots, hlen]; exact hi), getElem_slots]
  have hfirst := hword 0 (by omega)
  have hlast := hword (maxIntSize c - 1) (by omega)
  rw [show maxIntSize c - 1 + 1 = maxIntSize c by omega] at hlast
  have hin : ∀ i < maxIntSize c, words.getD i 0 ∈ words := by
    intro i hi
    rw [List.getD_eq_getElem _ _ (by omega)]
    exact List.getElem_mem _
  rw [hrec.flag]
  unfold testBits
  rw [hrec.flag, if_neg (by simp), hslots, hfirst, hlast]
  refine ⟨?_, ?_, by simp⟩
  · -- every branch that reports the id has found it among the words
    intro hneighbor
    apply hwindow.mem_of_mem hc hv hv'
    split at hneighbor
    next heq =>
      rcases heq with heq | heq <;> rw [heq]
      · exact hin 0 (by omega)
      · exact hin _ (by omega)
    next =>
      split at hneighbor
      · cases hneighbor
      · split at hneighbor
        next hmem => exact hmem
        next => cases hneighbor
  · -- the branch that denies an id has looked between the ends
    intro hstored hdenied
    split at hdenied
    · cases hdenied
    next hne =>
      split at hdenied
      · cases hdenied
      next hrange =>
        split at hdenied
        · cases hdenied
        next hnot =>
          have hout := hwindow.outside hc hsorted hlen hstored hnot
          omega

/-- The record of a list that fits. -/
theorem wordRecord_encodeBits {ids : List Nat} (hids : IdList c ids)
    (hfit : ids.length ≤ maxIntSize c) {bs : BitSetSIMD} (hrec : IsRecord c bs) :
    WordRecord c true (ids.insertionSort (· ≤ ·)) (encodeBits c ids bs) := by
  have hv := hc.vertexSize_lt
  rw [encodeBits, clear_eq hc hrec, if_pos (by rw [List.length_insertionSort]; exact hfit)]
  refine wordRecord_write hc true (by rw [List.length_insertionSort]; exact hfit) ?_
  intro id hid
  have := (hids id (List.mem_insertionSort _ |>.mp hid)).2
  omega

/-- The record of a list that does not fit. -/
theorem wordRecord_encodeBits_window {ids : List Nat} (hids : IdList c ids)
    (hlong : maxIntSize c < ids.length) {bs : BitSetSIMD} (hrec : IsRecord c bs) :
    WordRecord c false (window c (ids.insertionSort (· ≤ ·))) (encodeBits c ids bs) := by
  have hv := hc.vertexSize_lt
  have hupper := vertexIdUpper_eq hc
  have hlong' : maxIntSize c < (ids.insertionSort (· ≤ ·)).length := by
    rwa [List.length_insertionSort]
  obtain ⟨⟨before, block, after, heq, hshape⟩, hlen⟩ := isWindow_window hc hlong'
  rw [encodeBits, clear_eq hc hrec, if_neg (by omega)]
  refine wordRecord_write hc false (by omega) ?_
  intro w hw
  have hblock : w ∈ block → w < 2 ^ 32 := by
    intro hmem
    have hmem' : w ∈ ids.insertionSort (· ≤ ·) := by rw [heq]; simp [hmem]
    have := (hids w (List.mem_insertionSort _ |>.mp hmem')).2
    omega
  rcases hshape with ⟨-, hwords⟩ | hwords | ⟨-, hwords⟩ <;> rw [hwords] at hw
  · rcases List.mem_cons.mp hw with rfl | hw
    · omega
    · exact hblock hw
  · exact hblock hw
  · rcases List.mem_append.mp hw with hw | hw
    · exact hblock hw
    · rw [List.mem_singleton.mp hw]
      omega

/-- The flag tells whether the list fits. -/
theorem getFlag_encodeBits {ids : List Nat} (hids : IdList c ids) {bs : BitSetSIMD}
    (hrec : IsRecord c bs) :
    getFlag (encodeBits c ids bs) = decide (ids.length ≤ maxIntSize c) := by
  by_cases hfit : ids.length ≤ maxIntSize c
  · rw [(wordRecord_encodeBits hc hids hfit hrec).flag, decide_eq_true hfit]
  · rw [(wordRecord_encodeBits_window hc hids (by omega) hrec).flag, decide_eq_false hfit]

theorem isRecord_encodeBits {ids : List Nat} (hids : IdList c ids) {bs : BitSetSIMD}
    (hrec : IsRecord c bs) : IsRecord c (encodeBits c ids bs) := by
  by_cases hfit : ids.length ≤ maxIntSize c
  · exact (wordRecord_encodeBits hc hids hfit hrec).isRecord
  · exact (wordRecord_encodeBits_window hc hids (by omega) hrec).isRecord

/-- A record answers from the list it was written from, whatever it held before. -/
theorem speaks_encodeBits {ids : List Nat} (hids : IdList c ids) {bs : BitSetSIMD}
    (hrec : IsRecord c bs) {v : Nat} (hv : 1 ≤ v) (hv' : v ≤ c.vertexSize) :
    Speaks (getFlag (encodeBits c ids bs)) (v ∈ ids) (testBits c (encodeBits c ids bs) v) := by
  have hmem : v ∈ ids.insertionSort (· ≤ ·) ↔ v ∈ ids := List.mem_insertionSort _
  by_cases hfit : ids.length ≤ maxIntSize c
  · have hwords := wordRecord_encodeBits hc hids hfit hrec
    have hslots : v ∈ slots c (encodeBits c ids bs) ↔ v ∈ ids := by
      rw [hwords.slots, List.mem_append, List.mem_replicate, hmem]
      constructor
      · rintro (h | ⟨-, rfl⟩)
        · exact h
        · omega
      · exact Or.inl
    rw [testBits, hwords.flag, if_pos rfl]
    split
    next h => exact ⟨fun _ => hslots.mp h, by simp, by simp⟩
    next h => exact ⟨by simp, fun h' => absurd (hslots.mpr h') h, by simp⟩
  · have hlong' : maxIntSize c < (ids.insertionSort (· ≤ ·)).length := by
      rw [List.length_insertionSort]
      omega
    obtain ⟨hwindow, hlen⟩ := isWindow_window hc hlong'
    have hspeaks := speaks_window hc (List.pairwise_insertionSort _ ids) hwindow hlen
      (wordRecord_encodeBits_window hc hids (by omega) hrec) hv hv'
    rwa [hmem] at hspeaks

end

end RangeEncode

end Vend
