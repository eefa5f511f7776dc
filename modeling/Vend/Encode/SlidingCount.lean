import Vend.Encode.HybridEncode

/-! # The sliding hash count of the hybrid search

    `HybridEncode::DynamicChoose` scores a block of neighbours by the number of hash slots
    that the other neighbours occupy. For a block size it counts these once, for the
    leftmost block, and then slides: the neighbour the block leaves is added and the one
    it takes in is removed.

    The loop ends in front of the rightmost block, which is scored with the count of the
    block before it. For blocks of one neighbour the count of the rightmost block is
    built from scratch and leaves a neighbour out. The count is right all the same when
    the slots in question happen to be occupied anyway (`slidingExact_iff`).
-/

namespace Vend

open SlotCount

namespace HybridEncode

/-! ## Section 1: The calls of `ChooseHighest` -/

/-- The arguments of a call of `ChooseHighest`. -/
structure Call where
  hashCount : HashCount
  blockSize : Nat
  firstIdx : Nat
  type : BlockType

/-- The calls of the loop over the middle blocks, and the counts it ends with. -/
def middleCalls (neighbors : List Nat) (blockSize : Nat) :
    Nat → Nat → HashCount → HashCount × List Call
  | 0, _, hashCount => (hashCount, [])
  | n + 1, firstIdx, hashCount =>
    let hashCount := (hashCount.addHash (neighbors.getD (firstIdx - 1) 0)).removeHash
      (neighbors.getD (firstIdx + blockSize - 1) 0)
    let (swept, rest) := middleCalls neighbors blockSize n (firstIdx + 1) hashCount
    (swept, ⟨hashCount, blockSize, firstIdx, .middle⟩ :: rest)

/-- The calls of one round of the loop over `block_size`. -/
def blockCalls (c : Config) (neighbors : List Nat) (blockSize : Nat) : List Call :=
  let hashCount := HashCount.reConstruct c neighbors blockSize false
  ⟨hashCount, blockSize, 0, .leftMost⟩ ::
    if blockSize = 1 then
      [⟨HashCount.reConstruct c neighbors blockSize true, blockSize, neighbors.length - blockSize,
        .rightMost⟩]
    else
      let middles := neighbors.length - blockSize - 1
      let swept := middleCalls neighbors blockSize middles 1 hashCount
      swept.2 ++ [⟨swept.1, blockSize, middles + 1, .rightMost⟩]

/-- The calls of `DynamicChoose`, in their order. -/
def calls (c : Config) (neighbors : List Nat) : List Call :=
  ⟨HashCount.reConstruct c neighbors 0 false, 0, 0, .fullHash⟩ ::
    (List.range' 1 c.maxIntegerSize).flatMap (blockCalls c neighbors)

/-- A call against the best candidate so far. -/
def choose (c : Config) (neighbors : List Nat) (best : Nat × BitSetSIMD) (call : Call) :
    Nat × BitSetSIMD :=
  chooseHighest c neighbors best call.hashCount call.blockSize call.firstIdx call.type

theorem chooseMiddle_eq_foldl (c : Config) (ids : List Nat) (blockSize n firstIdx : Nat)
    (hashCount : HashCount) (best : Nat × BitSetSIMD) :
    chooseMiddle c ids blockSize n firstIdx hashCount best =
      ((middleCalls ids blockSize n firstIdx hashCount).1,
        (middleCalls ids blockSize n firstIdx hashCount).2.foldl (choose c ids) best) := by
  induction n generalizing firstIdx hashCount best with
  | zero => rfl
  | succ n ih =>
    rw [chooseMiddle, middleCalls]
    simp only [ih, List.foldl_cons, choose]

theorem chooseBlock_eq_foldl (c : Config) (ids : List Nat) (best : Nat × BitSetSIMD)
    (blockSize : Nat) :
    chooseBlock c ids best blockSize = (blockCalls c ids blockSize).foldl (choose c ids) best := by
  unfold chooseBlock blockCalls
  by_cases hone : blockSize = 1
  · simp only [if_pos hone]
    rw [List.foldl_cons, List.foldl_cons, List.foldl_nil, choose, choose]
  · simp only [if_neg hone, chooseMiddle_eq_foldl]
    rw [List.foldl_cons, List.foldl_append, List.foldl_cons, List.foldl_nil, choose, choose]

/-- `DynamicChoose` goes through its calls one after the other. -/
theorem dynamicChoose_eq_foldl (c : Config) (ids : List Nat) (bitset : BitSetSIMD) :
    dynamicChoose c ids bitset = (calls c ids).foldl (choose c ids) (0, bitset) := by
  have hstep : chooseBlock c ids = fun best blockSize =>
      (blockCalls c ids blockSize).foldl (choose c ids) best := by
    funext best blockSize
    exact chooseBlock_eq_foldl c ids best blockSize
  rw [dynamicChoose, calls, List.foldl_cons, List.foldl_flatMap, hstep]
  rfl

/-! ## Section 2: The neighbours outside a window -/

/-- The neighbours outside the positions `[firstIdx, firstIdx + blockSize)`. -/
def outside (ids : List Nat) (blockSize firstIdx : Nat) : List Nat :=
  ids.take firstIdx ++ ids.drop (firstIdx + blockSize)

/-- `PER_ENCODE_BIT_SIZE - PREFIX_BIT_SIZE - block_size * VERTEX_BIT_SIZE`. -/
def areaSize (c : Config) (blockSize : Nat) : Nat :=
  c.perEncodeBitSize - c.prefixBitSize - blockSize * c.vertexBitSize

/-- The count of a call is the number of hash values of the neighbours outside the window,
    when the hash area is not empty. -/
def CountsOutside (c : Config) (ids : List Nat) (call : Call) : Prop :=
  call.hashCount.hashSize ≠ 0 →
    call.hashCount.hashSize = areaSize c call.blockSize ∧
    call.hashCount.hashCount =
      used ((outside ids call.blockSize call.firstIdx).map (· % areaSize c call.blockSize))

/-- The count is right at every call. -/
structure SlidingExact (c : Config) (ids : List Nat) : Prop where
  /-- The `int` index of `ReConstruct` does not overflow. -/
  length_lt : ids.length < 2 ^ 31
  counts : ∀ call ∈ calls c ids, CountsOutside c ids call

/-- The slots that the count of the rightmost block gets wrong are occupied anyway: the
    one of the neighbour in front of the block, which is left out, and for more than one
    neighbour the one of the last neighbour, which is still counted. -/
def EndAbsorbed (c : Config) (ids : List Nat) (blockSize : Nat) : Prop :=
  let slot := fun i => ids.getD i 0 % areaSize c blockSize
  let front := (ids.take (ids.length - blockSize - 1)).map (· % areaSize c blockSize)
  if blockSize = 1 then slot (ids.length - 2) ∈ front
  else slot (ids.length - 1) ∈ front ↔ slot (ids.length - blockSize - 1) ∈ front

theorem take_succ_perm {ids : List Nat} {i : Nat} (hi : i < ids.length) :
    (ids.getD i 0 :: ids.take i).Perm (ids.take (i + 1)) := by
  rw [List.take_succ_eq_append_getElem hi, List.getD_eq_getElem _ _ hi]
  exact (List.perm_append_singleton _ _).symm

/-- The window moves on by one neighbour. -/
theorem outside_succ {ids : List Nat} {blockSize i : Nat} (hi : i + blockSize < ids.length) :
    (ids.getD i 0 :: outside ids blockSize i).Perm
      (ids.getD (i + blockSize) 0 :: outside ids blockSize (i + 1)) := by
  have hdrop : ids.drop (i + blockSize) =
      ids.getD (i + blockSize) 0 :: ids.drop (i + 1 + blockSize) := by
    rw [List.drop_eq_getElem_cons hi, List.getD_eq_getElem _ _ hi]
    simp only [Nat.add_right_comm]
  unfold outside
  rw [hdrop]
  -- the neighbour in front of the window joins the front, the next one is on top
  exact ((take_succ_perm (by omega)).append_right _).trans List.perm_middle

/-! ## Section 3: The counts -/

section Counts

variable {c : Config} {ids : List Nat} {blockSize : Nat}

/-- The number of hash values, for counters of an area of `size` slots. -/
theorem used_of_exact {h : HashCount} {keys : List Nat} (he : h.Exact keys) :
    h.hashCount = used (keys.map (· % h.hashSize)) := by
  have hhash : h.hash = fun key => key % h.hashSize := by
    funext key
    rw [HashCount.hash, if_neg (by have := he.size_pos; omega)]
  rw [he.count_eq, hhash]

theorem hashSize_reConstruct (reverse : Bool) (hper : c.perEncodeBitSize < 2 ^ 32)
    (hle : blockSize ≤ c.maxIntegerSize) :
    (HashCount.reConstruct c ids blockSize reverse).hashSize = areaSize c blockSize := by
  rw [HashCount.reConstruct]
  split <;> rw [HashCount.hashSize_foldl_addHash, HashCount.hashSize_emptyFor hper hle, areaSize]

theorem exact_emptyFor (hper : c.perEncodeBitSize < 2 ^ 32) (hle : blockSize ≤ c.maxIntegerSize)
    (hpos : 0 < areaSize c blockSize) : (HashCount.emptyFor c blockSize).Exact [] := by
  have hsize := HashCount.hashSize_emptyFor hper hle
  have hareaLe : areaSize c blockSize ≤ c.perEncodeBitSize := by
    unfold areaSize
    omega
  have hexact := HashCount.exact_replicate hpos hareaLe
  rw [areaSize, ← hsize] at hexact
  exact hexact

/-- A count that is built for the leftmost block. -/
theorem exact_leftmost (hper : c.perEncodeBitSize < 2 ^ 32) (hle : blockSize ≤ c.maxIntegerSize)
    (hpos : 0 < areaSize c blockSize) :
    (HashCount.reConstruct c ids blockSize false).Exact (outside ids blockSize 0) := by
  have hexact := (exact_emptyFor hper hle hpos).foldl_addHash (ids.drop blockSize)
  rw [List.append_nil] at hexact
  rw [outside, List.take_zero, List.nil_append, Nat.zero_add]
  exact hexact

/-- One move of the window. -/
theorem exact_move {h : HashCount} {i : Nat} (he : h.Exact (outside ids blockSize i))
    (hi : i + blockSize < ids.length) :
    ((h.addHash (ids.getD i 0)).removeHash (ids.getD (i + blockSize) 0)).Exact
      (outside ids blockSize (i + 1)) :=
  ((he.addHash (ids.getD i 0)).perm (outside_succ hi)).removeHash

/-- The loop over the middle blocks leaves the area alone. -/
theorem sizes_middleCalls (n firstIdx : Nat) (h : HashCount) :
    (middleCalls ids blockSize n firstIdx h).1.hashSize = h.hashSize ∧
    ∀ call ∈ (middleCalls ids blockSize n firstIdx h).2,
      call.blockSize = blockSize ∧ call.hashCount.hashSize = h.hashSize := by
  induction n generalizing firstIdx h with
  | zero => exact ⟨rfl, fun _ hcall => absurd hcall List.not_mem_nil⟩
  | succ n ih =>
    have hsize : ((h.addHash (ids.getD (firstIdx - 1) 0)).removeHash
        (ids.getD (firstIdx + blockSize - 1) 0)).hashSize = h.hashSize := by
      rw [HashCount.hashSize_removeHash, HashCount.hashSize_addHash]
    obtain ⟨hlast, hcalls⟩ := ih (firstIdx + 1) ((h.addHash (ids.getD (firstIdx - 1) 0)).removeHash
        (ids.getD (firstIdx + blockSize - 1) 0))
    rw [middleCalls]
    refine ⟨hlast.trans hsize, fun call hcall => ?_⟩
    rcases List.mem_cons.mp hcall with rfl | hrest
    · exact ⟨rfl, hsize⟩
    · exact ⟨(hcalls call hrest).1, (hcalls call hrest).2.trans hsize⟩

/-- Each middle block is scored with its own count, and the counts that the loop ends with
    are those of the last one. -/
theorem exact_middleCalls {n firstIdx : Nat} {h : HashCount} (hfirst : 1 ≤ firstIdx)
    (he : h.Exact (outside ids blockSize (firstIdx - 1)))
    (hbound : firstIdx + n + blockSize ≤ ids.length) :
    (middleCalls ids blockSize n firstIdx h).1.Exact (outside ids blockSize (firstIdx + n - 1)) ∧
    ∀ call ∈ (middleCalls ids blockSize n firstIdx h).2,
      call.hashCount.Exact (outside ids blockSize call.firstIdx) := by
  -- the counters are those of the window in front, and every round moves it on by one
  induction n generalizing firstIdx h with
  | zero => exact ⟨he, fun _ hcall => absurd hcall List.not_mem_nil⟩
  | succ n ih =>
    have hmove := exact_move he (by omega)
    rw [Nat.sub_add_cancel hfirst, show firstIdx - 1 + blockSize = firstIdx + blockSize - 1 by omega]
      at hmove
    obtain ⟨hlast, hcalls⟩ := @ih (firstIdx + 1) _ (by omega) hmove (by omega)
    rw [middleCalls]
    refine ⟨?_, fun call hcall => ?_⟩
    · rwa [show firstIdx + 1 + n - 1 = firstIdx + (n + 1) - 1 by omega] at hlast
    · rcases List.mem_cons.mp hcall with rfl | hrest
      · exact hmove
      · exact hcalls call hrest

/-- One hit more or less makes a difference when its slot is new. -/
theorem used_concat_iff (front : List Nat) (a b : Nat) :
    used (front ++ [a]) = used (front ++ [b]) ↔ (a ∈ front ↔ b ∈ front) := by
  have hlast : ∀ v, used (front ++ [v]) = if v ∈ front then used front else used front + 1 := by
    intro v
    rw [← used_cons]
    exact used_congr fun i => (List.perm_append_singleton v front).mem_iff
  rw [hlast, hlast]
  split_ifs <;> simp_all

theorem used_eq_concat_iff (front : List Nat) (b : Nat) :
    used front = used (front ++ [b]) ↔ b ∈ front := by
  have hlast : used (front ++ [b]) = used (b :: front) :=
    used_congr fun i => (List.perm_append_singleton b front).mem_iff
  rw [hlast, used_cons]
  split_ifs <;> simp_all

/-- Counters that are exact for the neighbours outside the window. -/
theorem countsOutside_of_exact {call : Call}
    (hsize : call.hashCount.hashSize = areaSize c call.blockSize)
    (he : call.hashCount.Exact (outside ids call.blockSize call.firstIdx)) :
    CountsOutside c ids call := by
  intro _
  have hused := used_of_exact he
  rw [hsize] at hused
  exact ⟨hsize, hused⟩

/-- Nothing is claimed of an empty area. -/
theorem countsOutside_of_zero {call : Call} (hzero : call.hashCount.hashSize = 0) :
    CountsOutside c ids call := fun hne => absurd hzero hne

/-- The front that both counts of the rightmost block have in common. -/
theorem outside_end {n : Nat} (hn : ids.length = n + 1 + blockSize) :
    outside ids blockSize (n + 1) = ids.take n ++ [ids.getD n 0] := by
  have hlt : n < ids.length := by omega
  rw [outside, List.drop_eq_nil_of_le (by omega), List.append_nil,
    List.take_succ_eq_append_getElem hlt, List.getD_eq_getElem _ _ hlt]

theorem outside_before_end {n : Nat} (hn : ids.length = n + 1 + blockSize) :
    outside ids blockSize n = ids.take n ++ [ids.getD (ids.length - 1) 0] := by
  have hlt : n + blockSize < ids.length := by omega
  rw [outside, List.drop_eq_getElem_cons hlt, List.drop_eq_nil_of_le (by omega),
    ← List.getD_eq_getElem _ 0 hlt, show n + blockSize = ids.length - 1 by omega]

theorem map_slot_concat (s : Nat) (front : List Nat) (v : Nat) :
    (front ++ [v]).map (· % s) = front.map (· % s) ++ [v % s] := by
  rw [List.map_append, List.map_singleton]

section Rightmost

variable {n : Nat} (hn : ids.length = n + 1 + blockSize) (hper : c.perEncodeBitSize < 2 ^ 32)
variable (hle : blockSize ≤ c.maxIntegerSize) (harea : 0 < areaSize c blockSize)
include hn hper hle harea

/-- The count of a single rightmost neighbour is built without the one in front of it. -/
theorem countsOutside_reverse (hone : blockSize = 1) (hlen : ids.length < 2 ^ 32) :
    CountsOutside c ids ⟨HashCount.reConstruct c ids blockSize true, blockSize,
      ids.length - blockSize, .rightMost⟩ ↔ EndAbsorbed c ids blockSize := by
  have hsize := @hashSize_reConstruct c ids blockSize true hper hle
  have hcount : (HashCount.reConstruct c ids blockSize true).hashCount =
      used ((ids.take n).map (· % areaSize c blockSize)) := by
    have hexact := (exact_emptyFor hper hle harea).foldl_addHash (ids.take n)
    rw [List.append_nil] at hexact
    -- `i < neighbor_size_ - block_size - 1` leaves out position `n` itself
    have hstop : sub32 (sub32 ids.length blockSize) 1 = n := by
      rw [sub32_of_le (a := ids.length) (by omega) (by omega), sub32_of_le (by omega) (by omega)]
      omega
    have hused := used_of_exact hexact
    rw [HashCount.hashSize_foldl_addHash, HashCount.hashSize_emptyFor hper hle] at hused
    rw [HashCount.reConstruct, if_pos rfl, hstop]
    exact hused
  unfold CountsOutside EndAbsorbed
  rw [if_pos hone, hcount, hsize, show ids.length - blockSize = n + 1 by omega, outside_end hn,
    map_slot_concat, show ids.length - 2 = n by omega, used_eq_concat_iff,
    show n + 1 - 1 = n from rfl]
  exact ⟨fun h => (h (by omega)).2, fun h _ => ⟨rfl, h⟩⟩

/-- The middle blocks are counted right. -/
theorem countsOutside_middle : ∀ call ∈ (middleCalls ids blockSize n 1
    (HashCount.reConstruct c ids blockSize false)).2, CountsOutside c ids call := by
  intro call hcall
  obtain ⟨hblock, hcallSize⟩ := (sizes_middleCalls n 1 _).2 call hcall
  have hexact := (exact_middleCalls (Nat.le_refl 1) (exact_leftmost hper hle harea)
    (by omega)).2 call hcall
  rw [← hblock] at hexact
  refine countsOutside_of_exact ?_ hexact
  rw [hcallSize, hashSize_reConstruct false hper hle, hblock]

/-- The rightmost block is scored with the count of the block in front of it. -/
theorem countsOutside_swept (hone : blockSize ≠ 1) :
    CountsOutside c ids ⟨(middleCalls ids blockSize n 1
      (HashCount.reConstruct c ids blockSize false)).1, blockSize, n + 1, .rightMost⟩ ↔
      EndAbsorbed c ids blockSize := by
  have hsize := (@sizes_middleCalls ids blockSize n 1 (HashCount.reConstruct c ids blockSize false)).1
  rw [hashSize_reConstruct false hper hle] at hsize
  -- the last middle block begins at `n`, and nothing moves the window to `n + 1`
  have hused := used_of_exact (exact_middleCalls (Nat.le_refl 1) (exact_leftmost hper hle harea)
    (show 1 + n + blockSize ≤ ids.length by omega)).1
  rw [Nat.add_sub_cancel_left, outside_before_end hn, hsize, map_slot_concat] at hused
  unfold CountsOutside EndAbsorbed
  rw [if_neg hone, hused, hsize, outside_end hn, map_slot_concat,
    show ids.length - blockSize - 1 = n by omega, used_concat_iff]
  exact ⟨fun h => (h (by omega)).2, fun h _ => ⟨rfl, h⟩⟩

end Rightmost

end Counts

/-- The calls of one block size count right, up to the neighbour at the end. -/
theorem blockCalls_iff {c : Config} {ids : List Nat} {blockSize : Nat}
    (hper : c.perEncodeBitSize < 2 ^ 32) (hle : blockSize ≤ c.maxIntegerSize)
    (hlen : blockSize < ids.length) (hlen' : ids.length < 2 ^ 31) :
    (∀ call ∈ blockCalls c ids blockSize, CountsOutside c ids call) ↔
      (0 < areaSize c blockSize → EndAbsorbed c ids blockSize) := by
  obtain ⟨n, hn⟩ : ∃ n, ids.length = n + 1 + blockSize := ⟨ids.length - blockSize - 1, by omega⟩
  have hmiddles : ids.length - blockSize - 1 = n := by omega
  have hsize := fun reverse => @hashSize_reConstruct c ids blockSize reverse hper hle
  have hsizes := @sizes_middleCalls ids blockSize n 1 (HashCount.reConstruct c ids blockSize false)
  rcases Nat.eq_zero_or_pos (areaSize c blockSize) with hzero | harea
  · -- an empty area is never asked
    rw [hzero] at hsize
    rw [hsize] at hsizes
    have hleft : CountsOutside c ids ⟨HashCount.reConstruct c ids blockSize false, blockSize, 0,
        .leftMost⟩ := countsOutside_of_zero (hsize false)
    refine iff_of_true ?_ (fun hne => absurd hne (by omega))
    by_cases hone : blockSize = 1
    · simp only [blockCalls, if_pos hone, List.forall_mem_cons]
      exact ⟨hleft, countsOutside_of_zero (hsize true), fun _ hcall => absurd hcall List.not_mem_nil⟩
    · simp only [blockCalls, if_neg hone, hmiddles, List.forall_mem_cons, List.forall_mem_append]
      exact ⟨hleft, fun call hcall => countsOutside_of_zero (hsizes.2 call hcall).2,
        countsOutside_of_zero hsizes.1, fun _ hcall => absurd hcall List.not_mem_nil⟩
  · -- the leftmost and the middle blocks are right, so the rightmost one decides
    have hleft : CountsOutside c ids ⟨HashCount.reConstruct c ids blockSize false, blockSize, 0,
        .leftMost⟩ := countsOutside_of_exact (hsize false) (exact_leftmost hper hle harea)
    by_cases hone : blockSize = 1
    · simp only [blockCalls, if_pos hone, List.forall_mem_cons]
      rw [countsOutside_reverse hn hper hle harea hone (by omega)]
      exact ⟨fun h _ => h.2.1, fun h => ⟨hleft, h harea, fun _ hcall => absurd hcall List.not_mem_nil⟩⟩
    · simp only [blockCalls, if_neg hone, hmiddles, List.forall_mem_cons, List.forall_mem_append]
      rw [countsOutside_swept hn hper hle harea hone]
      exact ⟨fun h _ => h.2.2.1, fun h => ⟨hleft, countsOutside_middle hn hper hle harea, h harea,
        fun _ hcall => absurd hcall List.not_mem_nil⟩⟩

/-- The count is right at every call exactly when, for every block size with a hash area,
    the slots that the rightmost block gets wrong are occupied anyway. -/
theorem slidingExact_iff {c : Config} (hint : c.perEncodeBitSize < 2 ^ 31) {ids : List Nat}
    (hlong : c.maxKCoreSize < ids.length) :
    SlidingExact c ids ↔
      ids.length < 2 ^ 31 ∧
      ∀ blockSize, 1 ≤ blockSize → blockSize ≤ c.maxIntegerSize → 0 < areaSize c blockSize →
        EndAbsorbed c ids blockSize := by
  have hmax := c.maxIntegerSize_le
  -- the full hash is a leftmost block of no neighbours
  have hfull : CountsOutside c ids ⟨HashCount.reConstruct c ids 0 false, 0, 0, .fullHash⟩ := by
    intro hne
    have hsize := @hashSize_reConstruct c ids 0 false (by omega) (Nat.zero_le _)
    exact countsOutside_of_exact hsize (exact_leftmost (by omega) (Nat.zero_le _)
      (Nat.pos_of_ne_zero (by rwa [← hsize]))) hne
  have hblocks : ids.length < 2 ^ 31 → ∀ blockSize, 1 ≤ blockSize → blockSize ≤ c.maxIntegerSize →
      ((∀ call ∈ blockCalls c ids blockSize, CountsOutside c ids call) ↔
        (0 < areaSize c blockSize → EndAbsorbed c ids blockSize)) :=
    fun hlen blockSize _ hle => blockCalls_iff (by omega) hle (by omega) hlen
  constructor
  · intro h
    refine ⟨h.length_lt, fun blockSize hpos hle harea => ?_⟩
    refine (hblocks h.length_lt blockSize hpos hle).mp (fun call hcall => h.counts call ?_) harea
    exact List.mem_cons_of_mem _
      (List.mem_flatMap.mpr ⟨blockSize, List.mem_range'_1.mpr ⟨hpos, by omega⟩, hcall⟩)
  · intro h
    obtain ⟨hlen, hends⟩ := h
    refine ⟨hlen, fun call hcall => ?_⟩
    rcases List.mem_cons.mp hcall with rfl | hrest
    · exact hfull
    · obtain ⟨blockSize, hmem, hin⟩ := List.mem_flatMap.mp hrest
      obtain ⟨hpos, hle⟩ := List.mem_range'_1.mp hmem
      exact (hblocks hlen blockSize hpos (by omega)).mpr (hends blockSize hpos (by omega)) call hin

/-- Records of one word over ten vertices: seven slots, and blocks of up to six. -/
def tenVertices : Config := Config.ofSizes 1 10 4 (by decide)

theorem slidingExact_iff_eight :
    tenVertices.maxKCoreSize < 8 ∧
    (SlidingExact tenVertices [2, 3, 4, 5, 6, 7, 8, 9] ↔
      8 < 2 ^ 31 ∧
      ∀ blockSize, 1 ≤ blockSize → blockSize ≤ tenVertices.maxIntegerSize →
        0 < areaSize tenVertices blockSize →
        EndAbsorbed tenVertices [2, 3, 4, 5, 6, 7, 8, 9] blockSize) :=
  ⟨by decide, slidingExact_iff (by decide) (by decide)⟩

/-- Eight neighbours, and a rightmost block of one: the 22 bits of the area are hit by seven
    of them in seven places, and the count is six. -/
theorem count_of_last_one_short :
    ⟨HashCount.reConstruct tenVertices [2, 3, 4, 5, 6, 7, 8, 9] 1 true, 1, 7, .rightMost⟩ ∈
      calls tenVertices [2, 3, 4, 5, 6, 7, 8, 9] ∧
    areaSize tenVertices 1 = 22 ∧
    (HashCount.reConstruct tenVertices [2, 3, 4, 5, 6, 7, 8, 9] 1 true).hashSize = 22 ∧
    (HashCount.reConstruct tenVertices [2, 3, 4, 5, 6, 7, 8, 9] 1 true).hashCount = 6 ∧
    used ((outside [2, 3, 4, 5, 6, 7, 8, 9] 1 7).map (· % 22)) = 7 ∧
    ¬ SlidingExact tenVertices [2, 3, 4, 5, 6, 7, 8, 9] := by
  have hcall : ⟨HashCount.reConstruct tenVertices [2, 3, 4, 5, 6, 7, 8, 9] 1 true, 1, 7,
      .rightMost⟩ ∈ calls tenVertices [2, 3, 4, 5, 6, 7, 8, 9] := by
    refine List.mem_cons_of_mem _ (List.mem_flatMap.mpr ⟨1, by decide, ?_⟩)
    simp [blockCalls]
  refine ⟨hcall, by decide, by decide, by decide, by decide, ?_⟩
  intro h
  have hcount := (h.counts _ hcall (by decide)).2
  exact absurd hcount (by decide)

end HybridEncode

end Vend
