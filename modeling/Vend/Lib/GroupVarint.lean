import Mathlib.Algebra.Order.BigOperators.Group.List
import Mathlib.Data.List.GetD
import Mathlib.Tactic.NormNum
import Mathlib.Tactic.Ring

/-! # Group varint

    A sequence of 32-bit numbers is stored as two streams. The first has a code of
    two bits for each number, four codes to a control byte. Behind all control
    bytes come the numbers, each in as many little-endian bytes as its code says,
    one to four.

    `Stream` is what a decoder needs to know about the memory it reads. It holds of
    a memory into which `controls vals ++ data vals` was written (`stream_of_bytes`)
    and gives back every number (`Stream.value_eq`).
-/

namespace GroupVarint

/-! ## Section 1: Numbers as bytes -/

/-- The bytes a number takes. -/
def byteLen (v : Nat) : Nat :=
  if v < 2 ^ 8 then 1 else if v < 2 ^ 16 then 2 else if v < 2 ^ 24 then 3 else 4

theorem byteLen_pos (v : Nat) : 1 ≤ byteLen v := by
  unfold byteLen
  split_ifs <;> omega

theorem byteLen_le (v : Nat) : byteLen v ≤ 4 := by
  unfold byteLen
  split_ifs <;> omega

/-- A sum takes no more bytes than its parts. -/
theorem byteLen_add_le (v w : Nat) : byteLen (v + w) ≤ byteLen v + byteLen w := by
  unfold byteLen
  split_ifs <;> omega

/-- Byte `b` of a number. -/
def byteOf (v b : Nat) : BitVec 8 := BitVec.ofNat 8 (v >>> (8 * b))

/-- The bytes of a number, the lowest first. -/
def bytes (v : Nat) : List (BitVec 8) := (List.range (byteLen v)).map (byteOf v)

@[simp] theorem length_bytes (v : Nat) : (bytes v).length = byteLen v := by
  simp [bytes]

/-- The number that `n` bytes stand for. -/
def value (f : Nat → BitVec 8) : Nat → Nat
  | 0 => 0
  | n + 1 => value f n + (f n).toNat * 256 ^ n

theorem value_congr {f g : Nat → BitVec 8} {n : Nat} (h : ∀ b < n, f b = g b) :
    value f n = value g n := by
  induction n with
  | zero => rfl
  | succ n ih => rw [value, value, ih fun b hb => h b (by omega), h n (by omega)]

theorem value_byteOf (v n : Nat) : value (byteOf v) n = v % 256 ^ n := by
  induction n with
  | zero => simp [value, Nat.mod_one]
  | succ n ih =>
    have hshift : v >>> (8 * n) = v / 256 ^ n := by
      rw [Nat.shiftRight_eq_div_pow, Nat.pow_mul]
    have hstep : v % 256 ^ (n + 1) = v % 256 ^ n + 256 ^ n * (v / 256 ^ n % 256) := by
      rw [Nat.pow_succ, Nat.mod_mul]
    rw [value, ih, byteOf, BitVec.toNat_ofNat, hshift, hstep, Nat.mul_comm (256 ^ n)]

/-- A number reads back from its bytes. -/
theorem value_bytes {f : Nat → BitVec 8} {v : Nat} (hv : v < 2 ^ 32)
    (h : ∀ b < byteLen v, f b = byteOf v b) : value f (byteLen v) = v := by
  rw [value_congr h, value_byteOf]
  apply Nat.mod_eq_of_lt
  unfold byteLen
  split_ifs <;> omega

/-! ## Section 2: The data stream -/

/-- The bytes of all numbers. -/
def data (vals : List Nat) : List (BitVec 8) := vals.flatMap bytes

/-- The bytes in front of number `k`. -/
def offset (vals : List Nat) (k : Nat) : Nat := ((vals.take k).map byteLen).sum

@[simp] theorem offset_zero (vals : List Nat) : offset vals 0 = 0 := by
  simp [offset]

theorem offset_succ {vals : List Nat} {k : Nat} (hk : k < vals.length) :
    offset vals (k + 1) = offset vals k + byteLen (vals.getD k 0) := by
  rw [offset, offset, List.take_succ_eq_append_getElem hk, List.getD_eq_getElem _ _ hk,
    List.map_append, List.sum_append]
  rfl

theorem length_data (vals : List Nat) : (data vals).length = offset vals vals.length := by
  induction vals with
  | nil => rfl
  | cons v vals ih =>
    rw [data, List.flatMap_cons, List.length_append, length_bytes, ← data, ih]
    simp [offset]

theorem length_le_offset (vals : List Nat) : vals.length ≤ offset vals vals.length := by
  have hmap : ∀ vals : List Nat, vals.length ≤ (vals.map byteLen).sum := by
    intro vals
    induction vals with
    | nil => simp
    | cons v vals ih =>
      have := byteLen_pos v
      simp only [List.length_cons, List.map_cons, List.sum_cons]
      omega
  have := hmap vals
  rwa [offset, List.take_length]

/-- The bytes of number `k` stand at its offset. -/
theorem getElem?_data {vals : List Nat} {k b : Nat} (hk : k < vals.length)
    (hb : b < byteLen (vals.getD k 0)) :
    (data vals)[offset vals k + b]? = some (byteOf (vals.getD k 0) b) := by
  induction vals generalizing k with
  | nil => cases hk
  | cons v vals ih =>
    rw [data, List.flatMap_cons, ← data]
    cases k with
    | zero =>
      rw [List.getD_cons_zero] at hb ⊢
      rw [offset_zero, Nat.zero_add, List.getElem?_append_left (by simpa using hb)]
      simp [bytes, hb]
    | succ k =>
      rw [List.getD_cons_succ] at hb ⊢
      have hoff : offset (v :: vals) (k + 1) = byteLen v + offset vals k := by simp [offset]
      rw [hoff, List.getElem?_append_right (by rw [length_bytes]; omega), length_bytes,
        show byteLen v + offset vals k + b - byteLen v = offset vals k + b by omega]
      exact ih (by simpa using hk) hb

/-! ## Section 3: The control stream -/

/-- The code of number `k`; behind the end it is zero. -/
def code (vals : List Nat) (k : Nat) : Nat := byteLen (vals.getD k 0) - 1

theorem code_lt (vals : List Nat) (k : Nat) : code vals k < 4 := by
  have := byteLen_le (vals.getD k 0)
  have := byteLen_pos (vals.getD k 0)
  unfold code
  omega

theorem code_add_one (vals : List Nat) (k : Nat) : code vals k + 1 = byteLen (vals.getD k 0) := by
  have := byteLen_pos (vals.getD k 0)
  unfold code
  omega

/-- The number of control bytes. -/
def groups (n : Nat) : Nat := (n + 3) / 4

/-- The four codes of group `g` in one byte. -/
def controlOf (vals : List Nat) (g : Nat) : Nat :=
  code vals (4 * g) + 4 * code vals (4 * g + 1) + 16 * code vals (4 * g + 2) +
    64 * code vals (4 * g + 3)

theorem controlOf_lt (vals : List Nat) (g : Nat) : controlOf vals g < 256 := by
  have h₀ := code_lt vals (4 * g)
  have h₁ := code_lt vals (4 * g + 1)
  have h₂ := code_lt vals (4 * g + 2)
  have h₃ := code_lt vals (4 * g + 3)
  unfold controlOf
  omega

/-- Code `j` in a control byte. -/
def codeAt (control j : Nat) : Nat := control / 4 ^ j % 4

theorem codeAt_controlOf (vals : List Nat) (g : Nat) {j : Nat} (hj : j < 4) :
    codeAt (controlOf vals g) j = code vals (4 * g + j) := by
  have h₀ := code_lt vals (4 * g)
  have h₁ := code_lt vals (4 * g + 1)
  have h₂ := code_lt vals (4 * g + 2)
  have h₃ := code_lt vals (4 * g + 3)
  unfold codeAt controlOf
  rcases (by omega : j = 0 ∨ j = 1 ∨ j = 2 ∨ j = 3) with rfl | rfl | rfl | rfl <;>
    norm_num <;> omega

/-- The control bytes. -/
def controls (vals : List Nat) : List (BitVec 8) :=
  (List.range (groups vals.length)).map fun g => BitVec.ofNat 8 (controlOf vals g)

@[simp] theorem length_controls (vals : List Nat) :
    (controls vals).length = groups vals.length := by
  simp [controls]

theorem groups_add_four (n : Nat) : groups (n + 4) = groups n + 1 := by
  unfold groups
  omega

theorem controls_of_le {vals : List Nat} (hpos : 1 ≤ vals.length) (hle : vals.length ≤ 4) :
    controls vals = [BitVec.ofNat 8 (controlOf vals 0)] := by
  have hone : groups vals.length = 1 := by
    unfold groups
    omega
  rw [controls, hone]
  rfl

/-- The control byte of the first group, then those of the rest. -/
theorem controls_cons (a b c d : Nat) (rest : List Nat) :
    controls (a :: b :: c :: d :: rest) =
      BitVec.ofNat 8 (controlOf [a, b, c, d] 0) :: controls rest := by
  rw [controls, controls]
  simp only [List.length_cons]
  rw [show rest.length + 1 + 1 + 1 + 1 = rest.length + 4 by omega, groups_add_four,
    List.range_succ_eq_map, List.map_cons, List.map_map]
  -- Four ids further on, `code` reads the rest of the list.
  rfl

/-! ## Section 4: Reading the streams -/

/-- A memory whose control bytes and data bytes are those of `vals`. -/
structure Stream (mem : Nat → BitVec 8) (vals : List Nat) : Prop where
  control : ∀ g < groups vals.length, (mem g).toNat = controlOf vals g
  data : ∀ k < vals.length, ∀ b < byteLen (vals.getD k 0),
    mem (groups vals.length + offset vals k + b) = byteOf (vals.getD k 0) b

theorem stream_of_bytes {mem : Nat → BitVec 8} {vals : List Nat}
    (h : ∀ p, p < (controls vals ++ data vals).length →
      (controls vals ++ data vals)[p]? = some (mem p)) : Stream mem vals := by
  constructor
  · intro g hg
    have hp := h g (by rw [List.length_append, length_controls]; omega)
    rw [List.getElem?_append_left (by simpa using hg)] at hp
    simp only [controls, List.getElem?_map, List.getElem?_range hg, Option.map_some,
      Option.some.injEq] at hp
    rw [← hp, BitVec.toNat_ofNat]
    exact Nat.mod_eq_of_lt (controlOf_lt vals g)
  · intro k hk b hb
    have hbyte := getElem?_data hk hb
    have hlt : offset vals k + b < (GroupVarint.data vals).length :=
      (List.getElem?_eq_some_iff.mp hbyte).1
    have hp := h (groups vals.length + offset vals k + b)
      (by rw [List.length_append, length_controls]; omega)
    rw [List.getElem?_append_right (by rw [length_controls]; omega), length_controls,
      show groups vals.length + offset vals k + b - groups vals.length = offset vals k + b by omega,
      hbyte, Option.some.injEq] at hp
    exact hp.symm

/-- The bytes in front of lane `j` in a group with the given control byte. -/
def laneStart (control : Nat) : Nat → Nat
  | 0 => 0
  | j + 1 => laneStart control j + (codeAt control j + 1)

theorem codeAt_lt (control j : Nat) : codeAt control j < 4 := Nat.mod_lt _ (by decide)

theorem laneStart_le (control j : Nat) : laneStart control j ≤ 4 * j := by
  induction j with
  | zero => exact Nat.le_refl 0
  | succ j ih =>
    have hcode := codeAt_lt control j
    rw [laneStart]
    omega

section

variable {control j n : Nat}

theorem codeAt_mod_of_lt (hj : j < n) : codeAt (control % 4 ^ n) j = codeAt control j := by
  have hsplit : 4 ^ n = 4 ^ j * 4 ^ (n - j) := by rw [← Nat.pow_add]; congr 1; omega
  have hdvd : 4 ∣ 4 ^ (n - j) := dvd_pow_self 4 (by omega)
  rw [codeAt, hsplit, Nat.mod_mul_right_div_self, Nat.mod_mod_of_dvd _ hdvd, codeAt]

theorem codeAt_mod_of_le (hn : n ≤ j) : codeAt (control % 4 ^ n) j = 0 := by
  have hlt : control % 4 ^ n < 4 ^ j :=
    (Nat.mod_lt _ (by positivity)).trans_le (Nat.pow_le_pow_right (by decide) hn)
  rw [codeAt, Nat.div_eq_of_lt hlt]

/-- A control byte cut to its first `n` codes: a lane behind them takes one byte. -/
theorem laneStart_mod (hn : n ≤ j) :
    laneStart (control % 4 ^ n) j = laneStart control n + (j - n) := by
  induction j, hn using Nat.le_induction with
  | base =>
    have hfront : ∀ k ≤ n, laneStart (control % 4 ^ n) k = laneStart control k := by
      intro k hk
      induction k with
      | zero => rfl
      | succ k ih => rw [laneStart, laneStart, ih (by omega), codeAt_mod_of_lt hk]
    rw [hfront n (Nat.le_refl n), Nat.sub_self, Nat.add_zero]
  | succ j hn ih =>
    rw [laneStart, ih, codeAt_mod_of_le hn]
    omega

end

section

variable {mem : Nat → BitVec 8} {vals : List Nat} (h : Stream mem vals)
include h

/-- The lanes of a group follow one another in the data. -/
theorem Stream.offset_lane {g j : Nat} (hj : j ≤ 4) (hk : 4 * g + j ≤ vals.length)
    (hg : g < groups vals.length) :
    offset vals (4 * g + j) = offset vals (4 * g) + laneStart (mem g).toNat j := by
  induction j with
  | zero => simp [laneStart]
  | succ j ih =>
    rw [laneStart, h.control g hg, codeAt_controlOf _ _ (by omega), code_add_one,
      ← Nat.add_assoc (4 * g) j 1, offset_succ (by omega), ih (by omega) (by omega),
      h.control g hg]
    omega

/-- A lane reads back its number. -/
theorem Stream.value_eq (hvals : ∀ v ∈ vals, v < 2 ^ 32) {g j : Nat} (hj : j < 4)
    (hk : 4 * g + j < vals.length) :
    value (fun b => mem (groups vals.length + offset vals (4 * g) +
        laneStart (mem g).toNat j + b)) (codeAt (mem g).toNat j + 1) =
      vals.getD (4 * g + j) 0 := by
  have hg : g < groups vals.length := by
    unfold groups
    omega
  have hoff := h.offset_lane (Nat.le_of_lt hj) (by omega) hg
  rw [h.control g hg, codeAt_controlOf _ _ hj, code_add_one]
  apply value_bytes
  · rw [List.getD_eq_getElem _ _ hk]
    exact hvals _ (List.getElem_mem hk)
  · intro b hb
    rw [← h.data _ hk b hb, hoff, h.control g hg, Nat.add_assoc (groups vals.length)]

/-- The length of a whole group. -/
theorem Stream.offset_group {g : Nat} (hk : 4 * g + 4 ≤ vals.length) :
    offset vals (4 * (g + 1)) = offset vals (4 * g) + laneStart (mem g).toNat 4 :=
  h.offset_lane (Nat.le_refl 4) hk (by unfold groups; omega)

end

/-! ## Section 5: Behind the last number -/

theorem offset_append {vals pads : List Nat} {k : Nat} (hk : k ≤ vals.length) :
    offset (vals ++ pads) k = offset vals k := by
  rw [offset, offset, List.take_append_of_le_length hk]

/-- A group that is not full goes on with numbers of one byte: its codes are zero behind the
    last number, whatever stands there. -/
theorem Stream.append {mem : Nat → BitVec 8} {vals pads : List Nat} (h : Stream mem vals)
    (hgroups : groups (vals ++ pads).length = groups vals.length)
    (hpads : ∀ k < pads.length,
      pads.getD k 0 = (mem (groups vals.length + offset vals vals.length + k)).toNat) :
    Stream mem (vals ++ pads) := by
  have hsmall : ∀ k < pads.length, byteLen (pads.getD k 0) = 1 := by
    intro k hk
    rw [hpads k hk, byteLen, if_pos (mem _).isLt]
  have hright : ∀ k, vals.length ≤ k → (vals ++ pads).getD k 0 = pads.getD (k - vals.length) 0 :=
    fun k hk => List.getD_append_right _ _ _ _ hk
  have hcode : ∀ k, code (vals ++ pads) k = code vals k := by
    intro k
    unfold code
    rcases Nat.lt_or_ge k vals.length with hk | hk
    · rw [List.getD_append _ _ _ _ hk]
    · rw [hright k hk, List.getD_eq_default _ _ hk]
      rcases Nat.lt_or_ge (k - vals.length) pads.length with hin | hout
      · rw [hsmall _ hin]
        rfl
      · rw [List.getD_eq_default _ _ hout]
  -- every number behind takes one byte
  have hoffset : ∀ k ≤ pads.length,
      offset (vals ++ pads) (vals.length + k) = offset vals vals.length + k := by
    intro k hk
    induction k with
    | zero => exact offset_append (Nat.le_refl _)
    | succ k ih =>
      rw [← Nat.add_assoc, offset_succ (by rw [List.length_append]; omega), ih (by omega),
        hright _ (Nat.le_add_right _ _), Nat.add_sub_cancel_left, hsmall k hk]
      omega
  constructor
  · intro g hg
    rw [hgroups] at hg
    rw [h.control g hg]
    simp only [controlOf, hcode]
  · intro k hk b hb
    rw [hgroups]
    rcases Nat.lt_or_ge k vals.length with hin | hout
    · rw [List.getD_append _ _ _ _ hin] at hb ⊢
      rw [offset_append hin.le]
      exact h.data k hin b hb
    · obtain ⟨i, rfl⟩ := Nat.exists_eq_add_of_le hout
      have hi : i < pads.length := by
        rw [List.length_append] at hk
        omega
      rw [hright _ hout, Nat.add_sub_cancel_left] at hb ⊢
      rw [hsmall i hi] at hb
      have hzero : b = 0 := by omega
      subst hzero
      rw [hoffset i hi.le, Nat.add_zero, ← Nat.add_assoc, byteOf, hpads i hi]
      simp

end GroupVarint
