import Vend.Encode.HashCount

/-! # The slot score of `V3`

    `HashCount(slot_size)`, `Construct` and `GetVal`. All neighbours are counted in an
    array of `slot_size` counters. To score a block, a copy of the array loses the members
    of the block again, and the slots that come out empty are added to the empty ones.

    `Hash` is 0 for an area of no slots, and the array then has no element 0. Elsewhere
    every access is in range and the score is the one it should be, unless it is 2^32 or an
    `int` counter overflows (`scoresExactly_iff`).
-/

namespace Vend

open SlotCount

namespace HashCount

/-! ## Section 1: Model -/

/-- `Construct(neighbors)` with its accesses: `hash_array_[val]` has to exist. -/
def constructAt (h : HashCount) (neighbors : List Nat) : Option HashCount :=
  neighbors.foldlM
    (fun h key => if h.hash key < h.hashArray.length then some (h.addHash key) else none) h

/-- `GetVal(neighbors, first_idx, block_size, type)` with its accesses: `memcpy` reads
    `hash_size_` counters, `neighbors` has the positions of the block, and `hash_copy[val]`
    has to exist. The positions are `int`s, and so is `first_idx + block_size`. -/
def getValAt (c : Config) (h : HashCount) (neighbors : List Nat) (firstIdx blockSize : Nat)
    (type : BlockType) : Option Nat :=
  if h.hashSize ≤ h.hashArray.length ∧ firstIdx + blockSize ≤ neighbors.length ∧
      firstIdx + blockSize < 2 ^ 31 ∧
      ∀ key ∈ (neighbors.drop firstIdx).take blockSize, h.hash key < h.hashSize then
    some (h.getVal c neighbors firstIdx blockSize type)
  else none

/-- `HashCount(slot_size)`, `Construct(neighbors)` and `GetVal`, as `DynamicChoose` calls
    them. The constructor counts the slots with an `int`. -/
def slotScore (c : Config) (neighbors : List Nat) (slotSize firstIdx blockSize : Nat)
    (type : BlockType) : Option Nat :=
  if slotSize < 2 ^ 31 then
    (constructAt (ofHashSize slotSize) neighbors).bind fun h =>
      h.getValAt c neighbors firstIdx blockSize type
  else none

/-- The neighbours outside the block. -/
def outsideOf (neighbors : List Nat) (firstIdx blockSize : Nat) : List Nat :=
  neighbors.take firstIdx ++ neighbors.drop (firstIdx + blockSize)

/-- The block covers a range of ids, and the score is the number of these ids and, for
    every slot that no neighbour outside the block hits, its share of the other ids. -/
def ScoresExactly (c : Config) (neighbors : List Nat) (slotSize firstIdx blockSize : Nat)
    (type : BlockType) : Prop :=
  let first := (blockBounds c neighbors blockSize firstIdx type).1
  let last := (blockBounds c neighbors blockSize firstIdx type).2
  first ≤ last ∧
  slotScore c neighbors slotSize firstIdx blockSize type =
    some (last - first + 1 +
      if slotSize = 0 then 0
      else (c.vertexSize - last + first) / slotSize *
        free slotSize ((outsideOf neighbors firstIdx blockSize).map (· % slotSize)))

/-! ## Section 2: The counters -/

theorem slot_lt {h : HashCount} (hpos : 0 < h.hashSize) {keys : List Nat} :
    ∀ i ∈ keys.map h.hash, i < h.hashSize := by
  intro i hi
  obtain ⟨key, -, rfl⟩ := List.mem_map.mp hi
  exact hash_lt hpos key

/-- With slots there is a counter for every key. -/
theorem constructAt_eq {h : HashCount} (hpos : 0 < h.hashSize)
    (hlen : h.hashSize ≤ h.hashArray.length) (keys : List Nat) :
    constructAt h keys = some (construct h keys) := by
  induction keys generalizing h with
  | nil => rfl
  | cons key keys ih =>
    have hlt := hash_lt hpos key
    have hlen' : (h.addHash key).hashSize ≤ (h.addHash key).hashArray.length := by
      rw [hashSize_addHash, addHash, List.length_set]
      exact hlen
    have hnext := @ih (h.addHash key) hpos hlen'
    rw [constructAt, List.foldlM_cons, if_pos (by omega)]
    exact hnext

/-- Without slots the first key has no counter. -/
theorem constructAt_zero {keys : List Nat} (hne : keys ≠ []) :
    constructAt (ofHashSize 0) keys = none := by
  cases keys with
  | nil => exact absurd rfl hne
  | cons key keys => rfl

/-- A hit that is taken back frees its slot when it was the last one. -/
theorem free_cons {size v : Nat} {hits : List Nat} (hv : v < size) (hlt : ∀ i ∈ hits, i < size) :
    free size hits = free size (v :: hits) + if v ∈ hits then 0 else 1 := by
  have hall : ∀ i ∈ v :: hits, i < size := by
    intro i hi
    rcases List.mem_cons.mp hi with rfl | hi
    · exact hv
    · exact hlt i hi
  have hbefore := free_add_used hall
  have hafter := free_add_used hlt
  rw [used_cons] at hbefore
  split_ifs at hbefore ⊢ <;> omega

/-- The loop of `GetVal` counts the slots that only the block hits. -/
theorem takeOut_eq {h : HashCount} (hpos : 0 < h.hashSize) {keys rest : List Nat}
    {copy : List Nat} {zeroCount : Nat}
    (hcounts : Counts copy h.hashSize ((keys ++ rest).map h.hash))
    (hlen : (keys ++ rest).length < 2 ^ 32)
    (hzero : zeroCount = free h.hashSize ((keys ++ rest).map h.hash)) :
    takeOut h keys copy zeroCount = free h.hashSize (rest.map h.hash) := by
  -- the copy counts the keys that are still to come and the rest
  induction keys generalizing copy zeroCount with
  | nil => exact hzero
  | cons key keys ih =>
    have hlt := hash_lt hpos key
    have hall : ∀ i ∈ (keys ++ rest).map h.hash, i < h.hashSize := slot_lt hpos
    -- the counter is at least one and fits its 32 bits
    have hold : copy.getD (h.hash key) 0 = ((keys ++ rest).map h.hash).count (h.hash key) + 1 := by
      rw [hcounts.getD_eq _ hlt, List.cons_append, List.map_cons, List.count_cons_self]
    have hle : ((keys ++ rest).map h.hash).count (h.hash key) ≤ (keys ++ rest).length := by
      have := List.count_le_length (a := h.hash key) (l := (keys ++ rest).map h.hash)
      rwa [List.length_map] at this
    rw [List.cons_append, List.length_cons] at hlen
    have hsub : sub32 (copy.getD (h.hash key) 0) 1 = copy.getD (h.hash key) 0 - 1 :=
      sub32_of_le (by omega) (by omega)
    have hfree := free_cons hlt hall
    rw [List.cons_append, List.map_cons] at hzero
    simp only [takeOut]
    rw [hsub]
    refine ih (hcounts.remove hlt) (by omega) ?_
    rw [hfree, ← hzero]
    -- the counter comes down to zero when no other key has the slot
    by_cases hmem : h.hash key ∈ (keys ++ rest).map h.hash
    · have := List.count_pos_iff.mpr hmem
      rw [if_pos hmem, if_neg (by omega)]
      rfl
    · have := List.count_eq_zero.mpr hmem
      rw [if_neg hmem, if_pos (by omega)]

/-! ## Section 3: The score -/

section Score

variable {c : Config} {ids : List Nat} {slotSize firstIdx blockSize : Nat} {type : BlockType}
variable (hlen : ids.length < 2 ^ 32) (hbound : firstIdx + blockSize ≤ ids.length)

/-- A call with a result has its `int` values in range. -/
theorem ints_of_slotScore {score : Nat}
    (h : slotScore c ids slotSize firstIdx blockSize type = some score) :
    slotSize < 2 ^ 31 ∧ firstIdx + blockSize < 2 ^ 31 := by
  rw [slotScore] at h
  split at h
  next hslots =>
    obtain ⟨counts, -, hval⟩ := Option.bind_eq_some_iff.mp h
    rw [getValAt] at hval
    split at hval
    next haccess => exact ⟨hslots, haccess.2.2.1⟩
    next => cases hval
  next => cases h

/-- The block first, then the others. -/
theorem perm_outsideOf (ids : List Nat) (firstIdx blockSize : Nat) :
    ids.Perm ((ids.drop firstIdx).take blockSize ++ outsideOf ids firstIdx blockSize) := by
  have hsplit : ids = ids.take firstIdx ++
      ((ids.drop firstIdx).take blockSize ++ ids.drop (firstIdx + blockSize)) := by
    rw [← List.drop_drop, List.take_append_drop, List.take_append_drop]
  rw [outsideOf, ← List.append_assoc]
  conv_lhs => rw [hsplit, ← List.append_assoc]
  exact List.perm_append_comm.append_right _

include hlen hbound in
/-- What the loops leave for the score. -/
theorem slotScore_eq (hslot : 0 < slotSize) (hslots : slotSize < 2 ^ 31)
    (hend : firstIdx + blockSize < 2 ^ 31) :
    ∃ h : HashCount, h.hashSize = slotSize ∧
      slotScore c ids slotSize firstIdx blockSize type =
        some (h.getVal c ids firstIdx blockSize type) ∧
      takeOut h ((ids.drop firstIdx).take blockSize) h.hashArray (h.hashSize - h.hashCount) =
        free slotSize ((outsideOf ids firstIdx blockSize).map (· % slotSize)) := by
  have hsize : (construct (ofHashSize slotSize) ids).hashSize = slotSize :=
    hashSize_foldl_addHash _ _
  have hexact : (construct (ofHashSize slotSize) ids).Exact ids := by
    have hfold := (exact_replicate hslot (Nat.le_refl slotSize)).foldl_addHash ids
    rwa [List.append_nil] at hfold
  have hcount := hexact.count_eq
  have hpos := hexact.size_pos
  have hhash : (construct (ofHashSize slotSize) ids).hash = fun key => key % slotSize := by
    funext key
    rw [hash, hsize, if_neg (by omega)]
  have hperm := perm_outsideOf ids firstIdx blockSize
  refine ⟨construct (ofHashSize slotSize) ids, hsize, ?_, ?_⟩
  · rw [slotScore, if_pos hslots, constructAt_eq hslot (by simp [ofHashSize]), Option.bind_some,
      getValAt, if_pos ⟨hexact.counts.size_le, hbound, hend, fun key _ => hash_lt hpos key⟩]
  · have hfree := free_add_used (@slot_lt _ hpos ids)
    have hsame : free (construct (ofHashSize slotSize) ids).hashSize
        (ids.map (construct (ofHashSize slotSize) ids).hash) =
        free (construct (ofHashSize slotSize) ids).hashSize
          (((ids.drop firstIdx).take blockSize ++ outsideOf ids firstIdx blockSize).map
            (construct (ofHashSize slotSize) ids).hash) := by
      unfold free
      congr 2
      funext i
      rw [(hperm.map _).mem_iff]
    have hexact' := hexact.perm hperm
    rw [takeOut_eq hpos hexact'.counts (by rw [← hperm.length_eq]; exact hlen)
      (by rw [hcount, ← hsame]; omega), hsize, hhash]

theorem getVal_eq (h : HashCount) (htype : type ≠ .fullHash) :
    h.getVal c ids firstIdx blockSize type =
      ((sub32 (blockBounds c ids blockSize firstIdx type).2
          (blockBounds c ids blockSize firstIdx type).1 + 1) % 2 ^ 32 +
        if h.hashSize = 0 then 0
        else (sub32 c.vertexSize (blockBounds c ids blockSize firstIdx type).2 +
          (blockBounds c ids blockSize firstIdx type).1) % 2 ^ 32 / h.hashSize *
          takeOut h ((ids.drop firstIdx).take blockSize) h.hashArray (h.hashSize - h.hashCount)
            % 2 ^ 32) % 2 ^ 32 := by
  cases type with
  | fullHash => exact absurd rfl htype
  | leftMost => rfl
  | rightMost => rfl
  | middle => rfl

/-- A block ends with a vertex id. -/
theorem bounds_le (hrange : ∀ id ∈ ids, id ≤ c.vertexSize) (type : BlockType) :
    (blockBounds c ids blockSize firstIdx type).2 ≤ c.vertexSize := by
  have hget : ∀ i, ids.getD i 0 ≤ c.vertexSize := fun i =>
    Nat.le_of_lt_succ (getD_lt_of_forall (Nat.succ_pos _)
      (fun id hid => Nat.lt_succ_of_le (hrange id hid)) i)
  cases type with
  | fullHash => exact Nat.zero_le _
  | leftMost => exact hget _
  | rightMost => exact Nat.le_refl _
  | middle => exact hget _

/-- The share of the other ids is all of them when it divides up and every slot is free. -/
theorem share_eq_iff {s z m : Nat} (hs : 0 < s) (hz : z ≤ s) :
    m / s * z = m ↔ m = 0 ∨ s ∣ m ∧ z = s := by
  constructor
  · intro h
    rcases Nat.eq_zero_or_pos m with hm | hm
    · exact Or.inl hm
    · right
      have hle : m / s * z ≤ m / s * s := Nat.mul_le_mul_left _ hz
      have hdiv : m / s * s ≤ m := Nat.div_mul_le_self m s
      have heq : m / s * s = m := by omega
      have hpos : 0 < m / s := by
        rcases Nat.eq_zero_or_pos (m / s) with hzero | hpos
        · rw [hzero, Nat.zero_mul] at heq
          omega
        · exact hpos
      exact ⟨⟨m / s, by rw [Nat.mul_comm, heq]⟩, Nat.eq_of_mul_eq_mul_left hpos (h.trans heq.symm)⟩
  · intro h
    rcases h with rfl | ⟨hdvd, rfl⟩
    · simp
    · exact Nat.div_mul_cancel hdvd

theorem free_eq_iff {s : Nat} {hits : List Nat} (hlt : ∀ i ∈ hits, i < s) :
    free s hits = s ↔ hits = [] := by
  have hsum := free_add_used hlt
  constructor
  · intro h
    have hused : used hits = 0 := by omega
    exact List.toFinset_eq_empty_iff _ |>.mp (Finset.card_eq_zero.mp hused)
  · rintro rfl
    have : used ([] : List Nat) = 0 := rfl
    omega

/-- The sum of a range that is not reversed and of its share wraps only when it is `2 ^ 32`:
    it is at most `VERTEX_SIZE + 1`, which it reaches with the whole share only. -/
theorem sum_eq_iff {size first last slots z : Nat} (hsize : size < 2 ^ 32) (hlast : last ≤ size)
    (hpart : (size - last + first) / slots * z ≤ size - last + first) :
    (first ≤ last ∧
      ((sub32 last first + 1) % 2 ^ 32 +
        (sub32 size last + first) % 2 ^ 32 / slots * z % 2 ^ 32) % 2 ^ 32 =
          last - first + 1 + (size - last + first) / slots * z) ↔
      first ≤ last ∧
        ¬ (size + 1 = 2 ^ 32 ∧ (size - last + first) / slots * z = size - last + first) := by
  refine and_congr_right fun hle => ?_
  rw [sub32_of_le hle (by omega), sub32_of_le hlast hsize,
    Nat.mod_eq_of_lt (show size - last + first < 2 ^ 32 by omega),
    Nat.mod_eq_of_lt (show (size - last + first) / slots * z < 2 ^ 32 by omega)]
  constructor
  · intro heq hcorner
    -- the score would be 2^32
    rw [hcorner.2] at heq
    omega
  · intro hcorner
    by_cases hall : (size - last + first) / slots * z = size - last + first
    · have hsmall : size + 1 ≠ 2 ^ 32 := fun heq => hcorner ⟨heq, hall⟩
      omega
    · omega

/-- The score is exact with at least one slot, on a range that is not reversed, as long as
    it is not 2^32 and the counters are `int`s. -/
theorem scoresExactly_iff (hrange : ∀ id ∈ ids, 1 ≤ id ∧ id ≤ c.vertexSize)
    (hlen : ids.length < 2 ^ 32) (hpos : 1 ≤ blockSize)
    (hbound : firstIdx + blockSize ≤ ids.length) (htype : type ≠ .fullHash) :
    ScoresExactly c ids slotSize firstIdx blockSize type ↔
      0 < slotSize ∧ slotSize < 2 ^ 31 ∧ firstIdx + blockSize < 2 ^ 31 ∧
      (blockBounds c ids blockSize firstIdx type).1 ≤ (blockBounds c ids blockSize firstIdx type).2 ∧
      ¬ (c.vertexSize + 1 = 2 ^ 32 ∧
        (c.vertexSize - (blockBounds c ids blockSize firstIdx type).2 +
            (blockBounds c ids blockSize firstIdx type).1 = 0 ∨
          slotSize ∣ c.vertexSize - (blockBounds c ids blockSize firstIdx type).2 +
            (blockBounds c ids blockSize firstIdx type).1 ∧
          outsideOf ids firstIdx blockSize = [])) := by
  have hV := c.vertexSize_lt
  have hne : ids ≠ [] := by
    rintro rfl
    simp only [List.length_nil] at hbound
    omega
  rcases Nat.eq_zero_or_pos slotSize with rfl | hslot
  · -- the first neighbour has no slot
    refine iff_of_false (fun h => ?_) (fun h => absurd h.1 (Nat.lt_irrefl 0))
    have hscore := h.2
    rw [slotScore, if_pos (by decide), constructAt_zero hne] at hscore
    cases hscore
  by_cases hints : slotSize < 2 ^ 31 ∧ firstIdx + blockSize < 2 ^ 31
  · obtain ⟨h, hsize, hscore, htake⟩ :=
      @slotScore_eq c ids slotSize firstIdx blockSize type hlen hbound hslot hints.1 hints.2
    rw [hsize] at htake
    have hlast : (blockBounds c ids blockSize firstIdx type).2 ≤ c.vertexSize :=
      bounds_le (fun id hid => (hrange id hid).2) type
    unfold ScoresExactly
    simp only [hscore, getVal_eq h htype, hsize, htake, if_neg (show ¬ slotSize = 0 by omega),
      Option.some.injEq]
    generalize (blockBounds c ids blockSize firstIdx type).2 = last at hlast ⊢
    generalize (blockBounds c ids blockSize firstIdx type).1 = first
    have hslots : ∀ i ∈ (outsideOf ids firstIdx blockSize).map (· % slotSize), i < slotSize := by
      intro i hi
      obtain ⟨key, -, rfl⟩ := List.mem_map.mp hi
      exact Nat.mod_lt _ hslot
    have hfree := free_le slotSize ((outsideOf ids firstIdx blockSize).map (· % slotSize))
    have hshare := share_eq_iff (m := c.vertexSize - last + first) hslot hfree
    rw [free_eq_iff hslots, List.map_eq_nil_iff] at hshare
    rw [← hshare]
    generalize free slotSize ((outsideOf ids firstIdx blockSize).map (· % slotSize)) = z at hfree ⊢
    have hpart : (c.vertexSize - last + first) / slotSize * z ≤ c.vertexSize - last + first :=
      (Nat.mul_le_mul_left _ hfree).trans (Nat.div_mul_le_self _ _)
    rw [sum_eq_iff hV hlast hpart]
    exact ⟨fun h => ⟨hslot, hints.1, hints.2, h⟩, fun h => h.2.2.2⟩
  · -- an `int` overflows
    exact iff_of_false (fun h => hints (ints_of_slotScore h.2)) fun h => hints ⟨h.2.1, h.2.2.1⟩

end Score

/-- Ten vertices. -/
def tenIds : Config := Config.ofSizes 1 10 3 (by decide)

theorem scoresExactly_iff_pair :
    ScoresExactly tenIds [1, 3, 9] 8 1 2 .rightMost ↔
      0 < 8 ∧ 8 < 2 ^ 31 ∧ 1 + 2 < 2 ^ 31 ∧ 3 ≤ 10 ∧
        ¬ (11 = 2 ^ 32 ∧ (10 - 10 + 3 = 0 ∨ 8 ∣ 10 - 10 + 3 ∧ [1] = [])) := by
  have h := @scoresExactly_iff tenIds [1, 3, 9] 8 1 2 .rightMost (by decide) (by decide)
    (by decide) (by decide) (by decide)
  exact h

/-- Records of one word: the block of the first of three neighbours takes all three bytes,
    and there is no slot to count in. -/
theorem no_slot_to_count : slotScore tenIds [3, 5, 7] 0 0 1 .leftMost = none ∧
    ¬ ScoresExactly tenIds [3, 5, 7] 0 0 1 .leftMost := by
  have hnone : slotScore tenIds [3, 5, 7] 0 0 1 .leftMost = none := rfl
  refine ⟨hnone, fun h => ?_⟩
  have hscore := h.2
  rw [hnone] at hscore
  cases hscore

end HashCount

end Vend
