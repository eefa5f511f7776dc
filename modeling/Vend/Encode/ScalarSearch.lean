import Vend.Encode.SearchTree

/-! # The search of `V3` with `HSIMD`

    With `HSIMD ≠ 0` the search of `DeltaSIMDCodecV3` sums up the lanes of every group that
    it reads once more, and compares the element with these sums before it compares with
    the lanes. The lanes hold the ids already, so a sum is not an id, and an element that
    happens to be one is found.

    Both searches read the same groups (`path`). They agree unless the element is a sum of
    one of these groups and stands in none of them (`sameAnswer_iff`). A last group that is
    not full has lanes behind its ids, which read on in the memory (`numbers`).
-/

namespace Vend

namespace DeltaSIMDCodecV3

open DeltaSIMDCodec GroupVarint
open DeltaSIMDEncode (Stored)

/-! ## Section 1: The groups in the memory -/

/-- The numbers that lanes behind `id` read from position `pos` on. -/
def padding (mem : Nat → BitVec 8) : Nat → Nat → Nat → List Nat
  | _, _, 0 => []
  | id, pos, k + 1 => (id + (mem pos).toNat) :: padding mem (id + (mem pos).toNat) (pos + 1) k

/-- The numbers of all lanes: the ids as they are written, and the rest of the last group. -/
def numbers (mem : Nat → BitVec 8) (ids : List Nat) : List Nat :=
  arrange ids ++ padding mem ((arrange ids).getLastD 0) (encodeArray ids).length
    (4 * groups ids.length - ids.length)

/-- The lanes of group `g`. -/
def lanes (nums : List Nat) (g : Nat) : M128 :=
  ⟨nums.getD (4 * g) 0, nums.getD (4 * g + 1) 0, nums.getD (4 * g + 2) 0, nums.getD (4 * g + 3) 0⟩

@[simp] theorem length_padding (mem : Nat → BitVec 8) (id pos k : Nat) :
    (padding mem id pos k).length = k := by
  induction k generalizing id pos with
  | zero => rfl
  | succ k ih => rw [padding, List.length_cons, ih]

theorem padding_le (mem : Nat → BitVec 8) {id pos k : Nat} :
    ∀ v ∈ padding mem id pos k, v ≤ id + 255 * k := by
  induction k generalizing id pos with
  | zero => simp [padding]
  | succ k ih =>
    have hbyte := (mem pos).isLt
    intro v hv
    rcases List.mem_cons.mp hv with rfl | hv
    · omega
    · have := ih v hv
      omega

theorem length_numbers (mem : Nat → BitVec 8) (ids : List Nat) :
    (numbers mem ids).length = 4 * groups ids.length := by
  rw [numbers, List.length_append, length_arrange, length_padding]
  unfold groups
  omega

theorem getD_numbers (mem : Nat → BitVec 8) {ids : List Nat} {k : Nat} (hk : k < ids.length) :
    (numbers mem ids).getD k 0 = (arrange ids).getD k 0 :=
  List.getD_append _ _ _ _ (by rw [length_arrange]; exact hk)

theorem genValues_append (pre count : Nat) (xs ys : List Nat) :
    genValues .v2 pre count (xs ++ ys) =
      genValues .v2 pre count xs ++ genValues .v2 (xs.getLastD pre) (count + xs.length) ys := by
  induction xs generalizing pre count with
  | nil => rfl
  | cons x xs ih =>
    rw [List.cons_append, genValues, genValues]
    simp only [genValue, ih, List.cons_append, List.length_cons, List.getLastD_cons]
    rw [show count + 1 + xs.length = count + (xs.length + 1) by omega]

/-- What stands behind the last id reads as differences of one byte. -/
theorem genValues_padding (mem : Nat → BitVec 8) {id pos count k : Nat} (hcount : count % 4 ≠ 0)
    (hk : count % 4 + k ≤ 4) :
    genValues .v2 id count (padding mem id pos k) =
      (List.range k).map fun i => (mem (pos + i)).toNat := by
  induction k generalizing id pos count with
  | zero => rfl
  | succ k ih =>
    have hbyte := (mem pos).isLt
    have hsub : sub32 (id + (mem pos).toNat) id = (mem pos).toNat := by
      unfold sub32
      omega
    have hrest : genValues .v2 (id + (mem pos).toNat) (count + 1)
        (padding mem (id + (mem pos).toNat) (pos + 1) k) =
        (List.range k).map fun i => (mem (pos + 1 + i)).toNat := by
      rcases Nat.eq_zero_or_pos k with rfl | hpos
      · rfl
      · exact ih (by omega) (by omega)
    rw [padding, genValues, List.range_succ_eq_map, List.map_cons, List.map_map]
    simp only [genValue, if_neg hcount, hsub, hrest]
    refine congrArg _ (List.map_congr_left fun i _ => ?_)
    simp only [Function.comp_apply]
    rw [Nat.succ_eq_add_one, show pos + 1 + i = pos + (i + 1) by omega]

section

variable {mem : Nat → BitVec 8} {ids : List Nat} (hmem : Stored mem (encodeArray ids))
include hmem

theorem stream_numbers : Stream mem (genValues .v2 0 0 (numbers mem ids)) := by
  have hstream := stream_of_stored hmem
  have hlen : (encodeArray ids).length = groups (genValues .v2 0 0 (arrange ids)).length +
      offset (genValues .v2 0 0 (arrange ids)) (genValues .v2 0 0 (arrange ids)).length := by
    rw [encodeArray, encodeArray_eq, List.length_append, length_controls, length_data]
  have hvals : genValues .v2 0 0 (numbers mem ids) = genValues .v2 0 0 (arrange ids) ++
      (List.range (4 * groups ids.length - ids.length)).map
        fun i => (mem ((encodeArray ids).length + i)).toNat := by
    rw [numbers, genValues_append, length_arrange, Nat.zero_add]
    congr 1
    -- a list of full groups has nothing behind it
    by_cases hfull : ids.length % 4 = 0
    · have hzero : 4 * groups ids.length - ids.length = 0 := by
        unfold groups
        omega
      rw [hzero]
      rfl
    · exact genValues_padding mem hfull (by unfold groups; omega)
  rw [hvals]
  apply hstream.append
  · rw [List.length_append, length_genValues, length_arrange, List.length_map, List.length_range]
    unfold groups
    omega
  · intro k hk
    rw [List.getD_eq_getElem _ _ hk, List.getElem_map, List.getElem_range, hlen]

/-- A search reads the lanes of `numbers`. -/
theorem readGroup_eq (hlt : ∀ id ∈ ids, id < 2 ^ 31) {g : Nat} (hg : g < groups ids.length) :
    readGroup mem ids.length g = lanes (numbers mem ids) g := by
  have hlen := length_numbers mem ids
  have hall : ∀ v ∈ numbers mem ids, v < 2 ^ 32 := by
    intro v hv
    rcases List.mem_append.mp hv with hv | hv
    · obtain ⟨k, -, rfl⟩ := mem_iff_getD.mp hv
      have := arrange_getD_lt (show 0 < 2 ^ 31 by decide) hlt k
      omega
    · have hle := padding_le mem v hv
      have hlast : (arrange ids).getLastD 0 < 2 ^ 31 := by
        rw [List.getLastD_eq_getLast?, List.getLast?_eq_getElem?, ← List.getD_eq_getElem?_getD]
        exact arrange_getD_lt (by decide) hlt _
      unfold groups at hle
      omega
  have hholds := holdsGroup_readGroup (stream_numbers hmem) hall (g := g) (by omega)
  have hsame : readGroup mem (numbers mem ids).length g = readGroup mem ids.length g := by
    unfold readGroup
    rw [hlen, show (4 * groups ids.length + 3) / 4 = (ids.length + 3) / 4 by unfold groups; omega]
  rw [hsame] at hholds
  have hlane : ∀ j < 4, (readGroup mem ids.length g).lane j = (numbers mem ids).getD (4 * g + j) 0 :=
    fun j hj => hholds j hj (by omega)
  generalize readGroup mem ids.length g = x at hlane ⊢
  obtain ⟨l0, l1, l2, l3⟩ := x
  have h₀ := hlane 0 (by decide)
  have h₁ := hlane 1 (by decide)
  have h₂ := hlane 2 (by decide)
  have h₃ := hlane 3 (by decide)
  simp only [M128.lane, Nat.add_zero] at h₀ h₁ h₂ h₃
  rw [lanes, h₀, h₁, h₂, h₃]

end

/-! ## Section 2: The groups that are read -/

/-- The groups below the root that both searches read: below a node only its first child. -/
def pathBelow (nums : List Nat) (element : Nat) : TreeNode → List Nat
  | .mk idx [] _ => [idx]
  | .mk idx (child :: _) masks =>
    idx ::
      if eqMask (lanes nums idx) element = 0 ∧ ltMask (lanes nums idx) element = masks.getD 0 0 then
        pathBelow nums element child
      else []

/-- The groups that both searches read: the root, and from there on the child between
    whose separators the element lies. -/
def path (nums : List Nat) (count element : Nat) : List Nat :=
  0 ::
    if eqMask (lanes nums 0) element = 0 then
      match childOf (treesAry count) (ltMask (lanes nums 0) element) with
      | some child => pathBelow nums element child
      | none => []
    else []

/-- The element is an id of group `g`. -/
def Holds (ids : List Nat) (g element : Nat) : Prop :=
  ∃ j < 4, 4 * g + j < ids.length ∧ (arrange ids).getD (4 * g + j) 0 = element

/-- The element is a sum of the lanes. -/
def Summed (x : M128) (element : Nat) : Prop :=
  element = x.l0 ∨ element = (x.l0 + x.l1) % 2 ^ 32 ∨
  element = (2 * (x.l0 + x.l1) + x.l2) % 2 ^ 32 ∨
  element = (3 * (x.l0 + x.l1) + 2 * x.l2 + x.l3) % 2 ^ 32

instance (ids : List Nat) (g element : Nat) : Decidable (Holds ids g element) :=
  inferInstanceAs (Decidable (∃ j < 4, _ ∧ _))

instance (x : M128) (element : Nat) : Decidable (Summed x element) :=
  inferInstanceAs (Decidable (_ ∨ _ ∨ _ ∨ _))

/-- What the loop of the scalar search compares. -/
theorem anyLane_iff (x : M128) (element : Nat) : anyLane x element = true ↔ Summed x element := by
  have h₁ : (x.l1 + x.l0) % 2 ^ 32 = (x.l0 + x.l1) % 2 ^ 32 := by omega
  have h₂ : ((x.l2 + (x.l1 + x.l0) % 2 ^ 32) % 2 ^ 32 + (x.l1 + x.l0) % 2 ^ 32) % 2 ^ 32 =
      (2 * (x.l0 + x.l1) + x.l2) % 2 ^ 32 := by omega
  have h₃ : ((x.l3 + (x.l2 + (x.l1 + x.l0) % 2 ^ 32) % 2 ^ 32) % 2 ^ 32 +
      (2 * (x.l0 + x.l1) + x.l2) % 2 ^ 32) % 2 ^ 32 =
      (3 * (x.l0 + x.l1) + 2 * x.l2 + x.l3) % 2 ^ 32 := by omega
  simp only [anyLane, scalarRecovery, Summed, Bool.or_eq_true, decide_eq_true_eq, or_assoc, h₂, h₃]
  rw [h₁]

/-! ## Section 3: What the searches find -/

theorem childOf_treesAry {count mask : Nat} (hcount : count ≤ 40) (hmask : mask = 0 ∨ mask = 15) :
    childOf (treesAry count) mask = none := by
  have hall : ∀ count < 41, (childOf (treesAry count) 0).isNone ∧
      (childOf (treesAry count) 15).isNone := by decide +kernel
  have h := hall count (by omega)
  rcases hmask with rfl | rfl
  · exact Option.isNone_iff_eq_none.mp h.1
  · exact Option.isNone_iff_eq_none.mp h.2

section

variable {mem : Nat → BitVec 8} {count element : Nat}

/-- The search finds more or answers as before. -/
theorem dfsSIMD_cases (node : TreeNode) :
    dfsSIMD mem count element node = .exist ∨
      dfsSIMD mem count element node = dfs mem count element node := by
  fun_induction dfsSIMD mem count element node with
  | case1 => exact Or.inl rfl
  | case2 => exact Or.inr rfl
  | case3 => exact Or.inl rfl
  | case4 => exact Or.inl rfl
  | case5 idx child rest masks data hany heq hlt ih =>
    rw [dfs]
    simp only [data] at heq hlt
    simpa only [if_neg heq, if_pos hlt] using ih
  | case6 idx child rest masks data hany heq hlt =>
    right
    rw [dfs]
    simp only [data] at heq hlt
    simp only [if_neg heq, if_neg hlt]

theorem findWithCountSIMD_cases :
    findWithCountSIMD mem count element = .exist ∨
      findWithCountSIMD mem count element = findWithCount mem count element := by
  by_cases hany : anyLane (readGroup mem count 0) element = true
  · left
    rw [findWithCountSIMD]
    simp only [if_pos hany]
  by_cases hone : (count + 3) / 4 = 1
  · right
    rw [findWithCountSIMD]
    simp only [if_neg hany, if_pos hone]
  -- below the root both searches go to the same child
  rw [findWithCountSIMD, findWithCount]
  simp only [if_neg hany, if_neg hone]
  split
  · exact Or.inl rfl
  split
  · exact Or.inr rfl
  split
  · exact Or.inr rfl
  obtain ⟨-, children, masks⟩ := treesAry count
  cases hfound : (children.zip masks).find? fun child =>
      DeltaSIMDCodec.ltMask (readGroup mem count 0) element = child.2 with
  | some child => simpa only [hfound] using dfsSIMD_cases child.1
  | none => exact Or.inr (by simp only [hfound])

/-- Behind the first comparison both searches go to the child that the mask leads to. -/
theorem rootSearch_eq_exist_iff (hcount : count ≤ 40) (mask : Nat) (search : TreeNode → FindRes) :
    (if mask = 0 then FindRes.lessThanMin
      else if mask = 15 then .greaterThanMax
      else
        let .mk _ children masks := treesAry count
        match (children.zip masks).find? fun child => mask = child.2 with
        | some (child, _) => search child
        | none => .notExist) = .exist ↔
      ∃ child, childOf (treesAry count) mask = some child ∧ search child = .exist := by
  by_cases hends : mask = 0 ∨ mask = 15
  · -- at either end no child is left to search
    rw [childOf_treesAry hcount hends]
    refine iff_of_false ?_ (by simp)
    rcases hends with rfl | rfl <;> simp
  · rw [if_neg fun h => hends (Or.inl h), if_neg fun h => hends (Or.inr h)]
    obtain ⟨idx, children, masks⟩ := treesAry count
    simp only [childOf]
    cases (children.zip masks).find? fun child => decide (mask = child.2) with
    | none => simp
    | some child => simp

/-- Beyond one group: an id of the root is found, or one below the child that the mask
    leads to. -/
theorem findWithCount_eq_exist_iff (hcount : count ≤ 40) (hlong : ¬ (count + 3) / 4 = 1) :
    findWithCount mem count element = .exist ↔
      eqMask (readGroup mem count 0) element ≠ 0 ∨
      ∃ child, childOf (treesAry count) (ltMask (readGroup mem count 0) element) = some child ∧
        dfs mem count element child = .exist := by
  rw [findWithCount, ← rootSearch_eq_exist_iff hcount]
  simp only [if_neg hlong]
  by_cases heq : eqMask (readGroup mem count 0) element ≠ 0
  · exact iff_of_true (by rw [if_pos heq]) (Or.inl heq)
  · rw [if_neg heq]
    exact (or_iff_right heq).symm

theorem findWithCountSIMD_eq_exist_iff (hcount : count ≤ 40) (hlong : ¬ (count + 3) / 4 = 1) :
    findWithCountSIMD mem count element = .exist ↔
      anyLane (readGroup mem count 0) element = true ∨
      eqMask (readGroup mem count 0) element ≠ 0 ∨
      ∃ child, childOf (treesAry count) (ltMask (readGroup mem count 0) element) = some child ∧
        dfsSIMD mem count element child = .exist := by
  rw [findWithCountSIMD, ← rootSearch_eq_exist_iff hcount]
  simp only [if_neg hlong]
  by_cases hany : anyLane (readGroup mem count 0) element = true
  · exact iff_of_true (by rw [if_pos hany]) (Or.inl hany)
  rw [if_neg hany, or_iff_right hany]
  by_cases heq : eqMask (readGroup mem count 0) element ≠ 0
  · exact iff_of_true (by rw [if_pos heq]) (Or.inl heq)
  · rw [if_neg heq]
    exact (or_iff_right heq).symm

end

/-! ## Section 4: When the searches agree -/

/-- A comparison with the ids of a group. -/
theorem eqMask_lanes_iff (mem : Nat → BitVec 8) {ids : List Nat} {g w element : Nat} (hw : 1 ≤ w)
    (hw' : w ≤ 4) (hin : 4 * g + w ≤ ids.length) (hend : w = 4 ∨ 4 * g + w = ids.length) :
    eqMask (lanes (numbers mem ids) g) element &&& (2 ^ w - 1) ≠ 0 ↔ Holds ids g element := by
  have hlane : ∀ j < w, (lanes (numbers mem ids) g).lane j = (arrange ids).getD (4 * g + j) 0 := by
    intro j hj
    rw [← getD_numbers mem (show 4 * g + j < ids.length by omega)]
    exact M128.lane_mk (fun j => (numbers mem ids).getD (4 * g + j) 0) (by omega)
  rw [eqMask, Ne, movemask_and_eq_zero_iff _ _ hw hw']
  constructor
  · intro h
    by_contra hnot
    refine h fun j hj => decide_eq_false fun heq => hnot ⟨j, by omega, by omega, ?_⟩
    rw [← hlane j hj, heq]
  · intro h hall
    obtain ⟨j, hj, hlen, heq⟩ := h
    have hjw : j < w := by omega
    have hfalse := hall j hjw
    rw [hlane j hjw, heq, decide_eq_false_iff_not] at hfalse
    exact hfalse rfl

/-- All lanes of a group that is full. -/
theorem eqMask_full_iff (mem : Nat → BitVec 8) {ids : List Nat} {g element : Nat}
    (hin : 4 * g + 4 ≤ ids.length) :
    eqMask (lanes (numbers mem ids) g) element ≠ 0 ↔ Holds ids g element := by
  rw [← eqMask_and_four]
  exact eqMask_lanes_iff mem (by decide) (Nat.le_refl 4) hin (Or.inl rfl)

section

variable {mem : Nat → BitVec 8} {ids : List Nat} {element : Nat}
variable (hmem : Stored mem (encodeArray ids)) (hlt : ∀ id ∈ ids, id < 2 ^ 31)
include hmem hlt

/-- Below the root, by induction on the node: both searches go the same way. -/
theorem dfs_eq_exist_iff {node : TreeNode} (hnode : nodesFull ids.length node = true) :
    (dfs mem ids.length element node = .exist ↔
      ∃ g ∈ pathBelow (numbers mem ids) element node, Holds ids g element) ∧
    (dfsSIMD mem ids.length element node = .exist ↔
      dfs mem ids.length element node = .exist ∨
      ∃ g ∈ pathBelow (numbers mem ids) element node, Summed (lanes (numbers mem ids) g) element) := by
  induction node using nodesFull.induct with
  | case1 idx masks =>
    rw [nodesFull, decide_eq_true_eq] at hnode
    have hpos := width_pos ids.length
    have hle := width_le ids.length
    have hidx : idx < groups ids.length := by
      unfold groupWidth at hnode
      unfold groups
      split at hnode <;> omega
    have hread := readGroup_eq hmem hlt hidx
    have hfound : dfs mem ids.length element (.mk idx [] masks) = .exist ↔
        Holds ids idx element := by
      simp only [dfs, hread, lastCompareMask_eq]
      unfold groupWidth at hnode
      split
      · -- the last group has no lanes but those of its ids
        rename_i hlast
        rw [if_pos hlast] at hnode
        have hend := last_add_width (show 0 < ids.length by omega)
        rw [← eqMask_lanes_iff mem (width_pos _) (width_le _) hnode
          (Or.inr (by unfold groups at hend; omega))]
        split <;> simp_all
      · rename_i hinner
        rw [if_neg hinner] at hnode
        rw [← eqMask_full_iff mem hnode]
        split <;> simp_all
    have hsimd : dfsSIMD mem ids.length element (.mk idx [] masks) = .exist ↔
        dfs mem ids.length element (.mk idx [] masks) = .exist ∨
        Summed (lanes (numbers mem ids) idx) element := by
      rw [dfsSIMD, hread, ← anyLane_iff]
      cases anyLane (lanes (numbers mem ids) idx) element with
      | false => simp
      | true => simp
    simp only [pathBelow, List.mem_singleton, exists_eq_left]
    exact ⟨hfound, hsimd⟩
  | case2 idx child rest masks ih =>
    rw [nodesFull, Bool.and_eq_true, decide_eq_true_eq] at hnode
    obtain ⟨hfound, hsimd⟩ := ih hnode.2
    have hread := readGroup_eq hmem hlt (show idx < groups ids.length by unfold groups; omega)
    have hhold := @eqMask_full_iff mem ids idx element hnode.1
    have hsum := anyLane_iff (lanes (numbers mem ids) idx) element
    simp only [dfs, dfsSIMD, pathBelow, hread, List.mem_cons, exists_eq_or_imp, ← hhold, ← hsum]
    by_cases heq : eqMask (lanes (numbers mem ids) idx) element ≠ 0
    · -- the id is here, and the search ends
      simp [heq]
    · have hzero := not_not.mp heq
      -- the searches go on exactly when the mask is that of the first child
      generalize masks.getD 0 0 = mask
      by_cases hmask : ltMask (lanes (numbers mem ids) idx) element = mask
      · simp only [hzero, hmask, ne_eq, not_true, if_false, if_true, and_self, false_or]
        refine ⟨hfound, ?_⟩
        cases anyLane (lanes (numbers mem ids) idx) element with
        | false => simpa using hsimd
        | true => simp
      · cases anyLane (lanes (numbers mem ids) idx) element with
        | false => simp [hzero, hmask]
        | true => simp [hzero, hmask]

/-- What each search finds along its path. -/
theorem findWithCount_path (hne : ids ≠ []) (hlen : ids.length ≤ 40) :
    (findWithCount mem ids.length element = .exist ↔
      ∃ g ∈ path (numbers mem ids) ids.length element, Holds ids g element) ∧
    (findWithCountSIMD mem ids.length element = .exist ↔
      findWithCount mem ids.length element = .exist ∨
      ∃ g ∈ path (numbers mem ids) ids.length element,
        Summed (lanes (numbers mem ids) g) element) := by
  have hpos := List.length_pos_iff.mpr hne
  have hread := readGroup_eq hmem hlt (show 0 < groups ids.length by unfold groups; omega)
  have hsum := anyLane_iff (lanes (numbers mem ids) 0) element
  by_cases hone : (ids.length + 3) / 4 = 1
  · -- a single group
    have hleaf : ∀ mask, childOf (treesAry ids.length) mask = none := by
      intro mask
      rcases (by omega : ids.length = 1 ∨ ids.length = 2 ∨ ids.length = 3 ∨ ids.length = 4) with
        h | h | h | h <;> rw [h] <;> rfl
    have hpath : path (numbers mem ids) ids.length element = [0] := by
      rw [path, hleaf]
      simp
    have hend := last_add_width hpos
    have hfound : findWithCount mem ids.length element = .exist ↔ Holds ids 0 element := by
      rw [← eqMask_lanes_iff mem (width_pos _) (width_le _)
        (show 4 * 0 + width ids.length ≤ _ by unfold groups at hend; omega)
        (Or.inr (by unfold groups at hend; omega))]
      simp only [findWithCount, if_pos hone, hread, lastCompareMask_eq]
      split_ifs <;> simp_all
    simp only [hpath, List.mem_singleton, exists_eq_left]
    refine ⟨hfound, ?_⟩
    rw [findWithCountSIMD, hread, ← hsum]
    cases anyLane (lanes (numbers mem ids) 0) element with
    | false => simp [hone]
    | true => simp
  · have hlong : 4 < ids.length := by omega
    have hroot := @eqMask_full_iff mem ids 0 element (by omega)
    rw [findWithCountSIMD_eq_exist_iff hlen hone, findWithCount_eq_exist_iff hlen hone, hread]
    simp only [path, List.mem_cons, exists_eq_or_imp, ← hroot, ← hsum]
    by_cases heq : eqMask (lanes (numbers mem ids) 0) element ≠ 0
    · simp [heq]
    · have hzero := not_not.mp heq
      simp only [hzero, ne_eq, not_true, if_true, false_or]
      have hfull := childrenFull_treesAry hlen hlong
      generalize ltMask (lanes (numbers mem ids) 0) element = mask
      cases hchild : childOf (treesAry ids.length) mask with
      | none => simp
      | some child =>
        have hnode : nodesFull ids.length child = true := by
          generalize treesAry ids.length = tree at hfull hchild
          obtain ⟨idx, children, masks⟩ := tree
          obtain ⟨found, hfound, rfl⟩ := Option.map_eq_some_iff.mp hchild
          exact List.all_eq_true.mp hfull _
            (List.of_mem_zip (List.mem_of_find?_eq_some hfound)).1
        -- the sums of the root are compared before the child is searched
        obtain ⟨hfound, hsimd⟩ := @dfs_eq_exist_iff mem ids element hmem hlt child hnode
        simp only [Option.some.injEq, exists_eq_left', ← hfound, hsimd]
        exact ⟨trivial, or_left_comm⟩

end

/-- Exactly when `HSIMD` does not change the answer. -/
theorem sameAnswer_iff {mem : Nat → BitVec 8} {ids : List Nat} (h : Ascending ids)
    (hne : 1 ≤ ids.length) (hlen : ids.length ≤ 31) (hmem : Stored mem (encodeArray ids))
    (element : Nat) :
    findWithCountSIMD mem ids.length element = findWithCount mem ids.length element ↔
      (∃ g ∈ path (numbers mem ids) ids.length element, Holds ids g element) ∨
      ∀ g ∈ path (numbers mem ids) ids.length element,
        ¬ Summed (lanes (numbers mem ids) g) element := by
  obtain ⟨hfound, hsimd⟩ := @findWithCount_path mem ids element hmem h.lt
    (List.length_pos_iff.mp hne) (by omega)
  rw [← hfound]
  constructor
  · intro hsame
    by_cases hsum : ∃ g ∈ path (numbers mem ids) ids.length element,
        Summed (lanes (numbers mem ids) g) element
    · left
      rw [← hsame]
      exact hsimd.mpr (Or.inr hsum)
    · right
      exact fun g hg hg' => hsum ⟨g, hg, hg'⟩
  · intro hcond
    rcases @findWithCountSIMD_cases mem ids.length element with hexist | hsame
    · rw [hexist]
      rcases hsimd.mp hexist with hplain | ⟨g, hg, hsum⟩
      · exact hplain.symm
      · rcases hcond with hplain | hnone
        · exact hplain.symm
        · exact absurd hsum (hnone g hg)
    · exact hsame

theorem sameAnswer_iff_five :
    findWithCountSIMD (fun p => (encodeArray [1, 3, 4, 7, 9]).getD p 0) 5 6 =
      findWithCount (fun p => (encodeArray [1, 3, 4, 7, 9]).getD p 0) 5 6 :=
  (@sameAnswer_iff _ [1, 3, 4, 7, 9] ⟨by decide, by decide⟩ (by decide) (by decide)
    (fun _ _ => rfl) 6).mpr (Or.inr (by decide +kernel))

/-- The search for 4 among the ids 1 and 3: their sum is found. -/
theorem sum_of_two_found :
    findWithCount (fun p => (encodeArray [1, 3]).getD p 0) 2 4 = .greaterThanMax ∧
    findWithCountSIMD (fun p => (encodeArray [1, 3]).getD p 0) 2 4 = .exist := by
  decide +kernel

end DeltaSIMDCodecV3

end Vend
