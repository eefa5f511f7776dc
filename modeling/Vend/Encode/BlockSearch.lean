import Vend.Encode.ByteLength
import Vend.Encode.DeltaSIMDEncodeV3
import Vend.Lib.BestSearch

/-! # The candidates of `DynamicChoose`

    `encode/SIMD/delta_simd_encode.h`. A list that does not fit is searched for the block
    of neighbours to write. The search begins at every neighbour in turn, with one
    neighbour at either end of the list and with two in between, and lets the block grow
    until its codec bytes no longer fit. Each block is scored with the bits that would be
    left for the hash area.

    The loops are unrolled here into the list of their candidates, and `DynamicChoose` is
    the fold over it (`dynamicChoose_eq_foldl`). `V0`, `V1` and `V2` keep a running byte
    count; `V3` asks the codec and adds the control bytes once more.
-/

namespace Vend

open BitSetSIMD GroupVarint DeltaSIMDCodec

namespace DeltaSIMDEncode

/-- A block and the hash bits it is scored with. -/
structure Candidate where
  block : BlockInfo
  hashBits : Nat
  deriving DecidableEq, Repr

/-- The neighbours in the block that the loop over `i` begins with. -/
def firstSize (neighbors : List Nat) (i : Nat) : Nat :=
  if i = 0 then 1 else if i ≠ neighbors.length - 1 then 2 else 1

/-- The block of `size` neighbours from `i` on, as it is scored. -/
def blockAt (neighbors : List Nat) (i size : Nat) : BlockInfo :=
  ⟨i, size,
    if size + i = neighbors.length then .rightMost else if i = 0 then .leftMost else .middle⟩

/-! ## Section 1: The candidates of `V0`, `V1` and `V2` -/

/-- The candidates of the `while` loop. -/
def growExamined (c : Config) (ver : Version) (neighbors : List Nat) (infos : List DeltaInfo) :
    Nat → BlockInfo → Nat → Nat → List Candidate
  | 0, _, _, _ => []
  | rounds + 1, block, preBytes, preVal =>
    if preBytes + (block.blockSize + 3) / 4 ≤ maxBytesLen c then
      let block :=
        if block.blockSize + block.start = neighbors.length then
          { block with blockType := .rightMost }
        else block
      let hashBits := (maxBytesLen c - preBytes - (block.blockSize + 3) / 4) * 8
      ⟨block, hashBits⟩ ::
        if block.blockType = .rightMost then []
        else
          let block := { block with blockSize := block.blockSize + 1 }
          let (bytes, preVal) := growBytes ver neighbors infos block.start block.blockSize preVal
          growExamined c ver neighbors infos rounds block (preBytes + bytes) preVal
    else []

/-- The candidates of one round of the loop over the first index. -/
def examinedFrom (c : Config) (ver : Version) (neighbors : List Nat) (infos : List DeltaInfo)
    (i : Nat) : List Candidate :=
  let preBytes := (infos.getD i ⟨0, 0, 0⟩).valBits
  let preVal := neighbors.getD i 0
  if i = 0 then
    growExamined c ver neighbors infos neighbors.length ⟨i, 1, .leftMost⟩ preBytes preVal
  else if i ≠ neighbors.length - 1 then
    let (bytes, preVal) := growBytes ver neighbors infos i 2 preVal
    growExamined c ver neighbors infos neighbors.length ⟨i, 2, .middle⟩ (preBytes + bytes) preVal
  else
    growExamined c ver neighbors infos neighbors.length ⟨i, 1, .rightMost⟩ preBytes preVal

/-- The candidates of `DynamicChoose`, in the order in which they are scored. -/
def examined (c : Config) (ver : Version) (neighbors : List Nat) : List Candidate :=
  (List.range neighbors.length).flatMap
    (examinedFrom c ver neighbors (parseEncode 0 0 0 neighbors))

/-- The candidate against the best block so far. -/
def consider (c : Config) (neighbors : List Nat) (best : Nat × BlockInfo) (cand : Candidate) :
    Nat × BlockInfo :=
  match scoreCount c cand.block neighbors cand.hashBits best.1 with
  | some score => (score, cand.block)
  | none => best

theorem growBlock_eq_foldl (c : Config) (ver : Version) (ids : List Nat) (infos : List DeltaInfo)
    (rounds : Nat) (block : BlockInfo) (preBytes preVal : Nat) (best : Nat × BlockInfo) :
    growBlock c ver ids infos rounds block preBytes preVal best =
      (growExamined c ver ids infos rounds block preBytes preVal).foldl (consider c ids) best := by
  induction rounds generalizing block preBytes preVal best with
  | zero => rfl
  | succ rounds ih =>
    rw [growBlock, growExamined]
    split
    · -- the loop goes on unless the block reaches the last neighbour
      simp only
      generalize (if block.blockSize + block.start = ids.length then
        { block with blockType := .rightMost } else block : BlockInfo) = block'
      rw [List.foldl_cons]
      split
      · rfl
      · exact ih _ _ _ _
    · rfl

theorem chooseFrom_eq_foldl (c : Config) (ver : Version) (ids : List Nat) (infos : List DeltaInfo)
    (best : Nat × BlockInfo) (i : Nat) :
    chooseFrom c ver ids infos best i =
      (examinedFrom c ver ids infos i).foldl (consider c ids) best := by
  simp only [chooseFrom, examinedFrom, growBlock_eq_foldl]
  split
  · rfl
  · split <;> rfl

/-- `DynamicChoose` goes through its candidates from the score of the full hash on. -/
theorem dynamicChoose_eq_foldl (c : Config) (ver : Version) (ids : List Nat) :
    dynamicChoose c ver ids (parseEncode 0 0 0 ids) =
      ((examined c ver ids).foldl (consider c ids)
        (fullHashScoreCount c ids (maxBytesLen c * 8) 0, ⟨0, 0, .fullHash⟩)).2 := by
  have hstep : chooseFrom c ver ids (parseEncode 0 0 0 ids) = fun best i =>
      (examinedFrom c ver ids (parseEncode 0 0 0 ids) i).foldl (consider c ids) best := by
    funext best i
    exact chooseFrom_eq_foldl _ _ _ _ _ _
  rw [dynamicChoose, examined, List.foldl_flatMap, hstep]

/-! ## Section 2: Which blocks are candidates -/

/-- The blocks that the loops reach when a block of `size` neighbours from `i` on takes
    `cost i size` bytes: every smaller block from `i` on has to fit as well. -/
structure Examined (c : Config) (cost : Nat → Nat → Nat) (ids : List Nat) (i size : Nat) :
    Prop where
  start_lt : i < ids.length
  first_le : firstSize ids i ≤ size
  bound : i + size ≤ ids.length
  fits : ∀ t, firstSize ids i ≤ t → t ≤ size → cost i t ≤ maxBytesLen c

/-- A block with the hash bits that `cost` leaves for it. -/
def candidateAt (c : Config) (cost : Nat → Nat → Nat) (ids : List Nat) (i size : Nat) :
    Candidate :=
  ⟨blockAt ids i size, (maxBytesLen c - cost i size) * 8⟩

theorem firstSize_pos (ids : List Nat) (i : Nat) : 1 ≤ firstSize ids i := by
  unfold firstSize
  split_ifs <;> omega

theorem firstSize_bound {ids : List Nat} {i : Nat} (hi : i < ids.length) :
    i + firstSize ids i ≤ ids.length := by
  unfold firstSize
  split_ifs <;> omega

theorem mem_candidates_iff {c : Config} {cost : Nat → Nat → Nat} {ids : List Nat}
    {cand : Candidate} :
    (cand ∈ (List.range ids.length).flatMap fun i =>
      (BestSearch.grow (fun t => cost i t ≤ maxBytesLen c) (ids.length - i) ids.length
        (firstSize ids i)).map (candidateAt c cost ids i)) ↔
      ∃ i size, Examined c cost ids i size ∧ cand = candidateAt c cost ids i size := by
  simp only [List.mem_flatMap, List.mem_range, List.mem_map]
  have hgrow : ∀ i < ids.length, ∀ size, _ := fun i hi size =>
    @BestSearch.mem_grow_iff (fun t => cost i t ≤ maxBytesLen c) _ _ _ _ size
      (show firstSize ids i ≤ ids.length - i by have := firstSize_bound hi; omega)
      (show ids.length - i < firstSize ids i + ids.length by have := firstSize_pos ids i; omega)
  constructor
  · intro h
    obtain ⟨i, hi, size, hsize, rfl⟩ := h
    obtain ⟨hfirst, hbound, hfits⟩ := (hgrow i hi size).mp hsize
    exact ⟨i, size, ⟨hi, hfirst, by omega, hfits⟩, rfl⟩
  · intro h
    obtain ⟨i, size, hex, rfl⟩ := h
    have hbound := hex.bound
    exact ⟨i, hex.start_lt, size,
      (hgrow i hex.start_lt size).mpr ⟨hex.first_le, by omega, hex.fits⟩, rfl⟩

/-! ## Section 3: The running byte count -/

/-- The bytes of the block of `size` neighbours from `start` on. -/
def blockBytes (ver : Version) (ids : List Nat) (start size : Nat) : Nat :=
  getRequiredBytes ver ((ids.drop start).take size)

theorem blockBytes_eq (ver : Version) {ids : List Nat} {start size : Nat}
    (hle : start + size ≤ ids.length) :
    blockBytes ver ids start size =
      groups size + offset (genValues ver 0 0 (ids.drop start)) size :=
  getRequiredBytes_take ver (by rw [List.length_drop]; omega)

/-- A block takes no fewer bytes than its front. -/
theorem blockBytes_mono (ver : Version) {ids : List Nat} {start size size' : Nat}
    (hle : size ≤ size') (hbound : start + size' ≤ ids.length) :
    blockBytes ver ids start size ≤ blockBytes ver ids start size' := by
  rw [blockBytes_eq ver (by omega), blockBytes_eq ver hbound]
  -- one neighbour more: its own bytes, and perhaps a control byte
  induction hle with
  | refl => exact Nat.le_refl _
  | @step n hn ih =>
    have hlt : n < (genValues ver 0 0 (ids.drop start)).length := by
      rw [length_genValues, List.length_drop]
      omega
    have hrec := ih (by omega)
    rw [offset_succ hlt]
    unfold groups at hrec ⊢
    omega

section Running

variable {c : Config} {ver : Version} {ids : List Nat}

/-- The blocks that the `while` loop scores are those whose codec bytes fit. -/
theorem growExamined_eq (rounds : Nat) {block : BlockInfo} {preBytes preVal : Nat}
    (hg : Growing ver ids block preBytes preVal)
    (htype : block.blockSize + block.start ≠ ids.length →
      block.blockType = if block.start = 0 then .leftMost else .middle) :
    growExamined c ver ids (parseEncode 0 0 0 ids) rounds block preBytes preVal =
      (BestSearch.grow (fun t => blockBytes ver ids block.start t ≤ maxBytesLen c)
        (ids.length - block.start) rounds block.blockSize).map
        (candidateAt c (blockBytes ver ids) ids block.start) := by
  induction rounds generalizing block preBytes preVal with
  | zero => rfl
  | succ rounds ih =>
    have hbound := hg.bound
    -- the running count and the control bytes are what the codec would count
    have hbytes := blockBytes_eq ver hbound
    rw [← hg.preBytes_eq] at hbytes
    have hcost : preBytes + (block.blockSize + 3) / 4 =
        blockBytes ver ids block.start block.blockSize := by
      rw [hbytes, Nat.add_comm]
      rfl
    rw [growExamined, BestSearch.grow, hcost]
    split
    · by_cases hend : block.blockSize + block.start = ids.length
      · -- the last neighbour is taken in, and the block is a right one
        have hlimit : block.blockSize = ids.length - block.start := by omega
        simp only [if_pos hend, if_true, if_pos hlimit, List.map_cons, List.map_nil, candidateAt,
          blockAt, Nat.sub_sub, hcost]
      · have hlimit : ¬ block.blockSize = ids.length - block.start := by omega
        have hnot : block.blockType ≠ .rightMost := by
          rw [htype hend]
          split <;> simp
        have hnext := ih (hg.next (by omega)) (fun _ => htype hend)
        have hblock : block = blockAt ids block.start block.blockSize := by
          rw [blockAt, if_neg hend, ← htype hend]
        simp only [if_neg hend, if_neg hnot, if_neg hlimit, List.map_cons, hnext]
        rw [Nat.sub_sub, hcost, candidateAt, ← hblock]
    · rfl

/-- The candidates that begin at neighbour `i`. -/
theorem examinedFrom_eq (hlt : ∀ id ∈ ids, id < 2 ^ 32) {i : Nat} (hi : i < ids.length) :
    examinedFrom c ver ids (parseEncode 0 0 0 ids) i =
      (BestSearch.grow (fun t => blockBytes ver ids i t ≤ maxBytesLen c) (ids.length - i)
        ids.length (firstSize ids i)).map (candidateAt c (blockBytes ver ids) ids i) := by
  simp only [examinedFrom, firstSize]
  split
  · rename_i hzero
    exact growExamined_eq _ (growing_one hlt hi (by simp) (fun _ => hzero) (by simp))
      (fun _ => (if_pos hzero).symm)
  · rename_i hzero
    split
    · have hone : Growing ver ids ⟨i, 1, .middle⟩ _ _ := growing_one hlt hi (by simp) (by simp) (by simp)
      exact growExamined_eq _ (hone.next (by show i + 1 < _; omega))
        (fun _ => (if_neg hzero).symm)
    · exact growExamined_eq _ (growing_one hlt hi (by simp) (by simp) (fun _ => by omega))
        (fun hend => absurd (by show 1 + i = _; omega) hend)

/-- `DynamicChoose` looks at every block that fits, and scores it with the bits that its
    codec bytes leave. -/
theorem mem_examined_iff (hlt : ∀ id ∈ ids, id < 2 ^ 32) {cand : Candidate} :
    cand ∈ examined c ver ids ↔
      ∃ i size, Examined c (blockBytes ver ids) ids i size ∧
        cand = candidateAt c (blockBytes ver ids) ids i size := by
  rw [← mem_candidates_iff, examined, List.mem_flatMap, List.mem_flatMap]
  apply exists_congr
  intro i
  apply and_congr_right
  intro hi
  rw [examinedFrom_eq hlt (List.mem_range.mp hi)]

/-- A block that fits is a candidate: its front fits too. -/
theorem examined_of_fits {i size : Nat} (hi : i < ids.length) (hfirst : firstSize ids i ≤ size)
    (hbound : i + size ≤ ids.length) (hfit : blockBytes ver ids i size ≤ maxBytesLen c) :
    Examined c (blockBytes ver ids) ids i size :=
  ⟨hi, hfirst, hbound, fun _ _ ht => (blockBytes_mono ver ht hbound).trans hfit⟩

end Running

end DeltaSIMDEncode

/-! ## Section 4: The candidates of `V3` -/

namespace DeltaSIMDEncodeV3

open DeltaSIMDCodecV3 (getRequiredBytesAt order)
open DeltaSIMDEncode (BlockInfo Candidate Examined candidateAt blockAt firstSize fullHashScoreCount
  maxBytesLen mem_candidates_iff)

/-- `byte_len`: the control bytes are in `GetRequiredBytes` already. -/
def byteLen (neighbors : List Nat) (start blockSize : Nat) : Nat :=
  getRequiredBytesAt neighbors start blockSize + (blockSize + 3) / 4

/-- The candidates of the `while` loop. -/
def growExamined (c : Config) (neighbors : List Nat) : Nat → BlockInfo → List Candidate
  | 0, _ => []
  | rounds + 1, block =>
    if maxBytesLen c < byteLen neighbors block.start block.blockSize then []
    else
      let block' :=
        if block.blockSize + block.start = neighbors.length then
          { block with blockType := .rightMost }
        else block
      let slotSize := (maxBytesLen c - byteLen neighbors block.start block.blockSize) * 8
      ⟨block', slotSize⟩ ::
        if block'.blockType = .rightMost then []
        else growExamined c neighbors rounds { block' with blockSize := block'.blockSize + 1 }

/-- The candidates of one round of the loop over the first index. -/
def examinedFrom (c : Config) (neighbors : List Nat) (i : Nat) : List Candidate :=
  if i = 0 then growExamined c neighbors neighbors.length ⟨i, 1, .leftMost⟩
  else if i ≠ neighbors.length - 1 then growExamined c neighbors neighbors.length ⟨i, 2, .middle⟩
  else growExamined c neighbors neighbors.length ⟨i, 1, .rightMost⟩

/-- The candidates of `DynamicChoose`, in the order in which they are scored. -/
def examined (c : Config) (neighbors : List Nat) : List Candidate :=
  (List.range neighbors.length).flatMap (examinedFrom c neighbors)

/-- `current_score`: what `GetVal` says of the candidate. -/
def currentScore (c : Config) (neighbors : List Nat) (cand : Candidate) : Nat :=
  ((HashCount.ofHashSize cand.hashBits).construct neighbors).getVal c neighbors
    cand.block.start cand.block.blockSize cand.block.blockType

theorem growBlock_eq_foldl (c : Config) (ids : List Nat) (rounds : Nat) (block : BlockInfo)
    (best : Nat × BlockInfo) :
    growBlock c ids rounds block best = (growExamined c ids rounds block).foldl
      (BestSearch.keepBest (currentScore c ids) Candidate.block) best := by
  induction rounds generalizing block best with
  | zero => rfl
  | succ rounds ih =>
    by_cases hlong : maxBytesLen c < byteLen ids block.start block.blockSize
    · rw [growExamined, if_pos hlong]
      exact if_pos hlong
    · rw [growExamined, if_neg hlong]
      refine (if_neg hlong).trans ?_
      generalize (if block.blockSize + block.start = ids.length then
        { block with blockType := .rightMost } else block : BlockInfo) = block'
      rw [List.foldl_cons]
      split
      · rfl
      · exact ih _ _

/-- `DynamicChoose` keeps the best of its candidates, from the score of the full hash on. -/
theorem dynamicChoose_eq_foldl (c : Config) (ids : List Nat) :
    dynamicChoose c ids = ((examined c ids).foldl
      (BestSearch.keepBest (currentScore c ids) Candidate.block)
      (fullHashScoreCount c ids (maxBytesLen c * 8) 0, ⟨0, 0, .fullHash⟩)).2 := by
  have hstep : chooseFrom c ids = fun best i => (examinedFrom c ids i).foldl
      (BestSearch.keepBest (currentScore c ids) Candidate.block) best := by
    funext best i
    simp only [chooseFrom, examinedFrom, growBlock_eq_foldl]
    split
    · rfl
    · split <;> rfl
  rw [dynamicChoose, examined, List.foldl_flatMap, hstep]

section Running

variable {c : Config} {ids : List Nat}

theorem growExamined_eq (rounds : Nat) {block : BlockInfo} (hg : Growing ids block)
    (htype : block.blockSize + block.start ≠ ids.length →
      block.blockType = if block.start = 0 then .leftMost else .middle) :
    growExamined c ids rounds block =
      (BestSearch.grow (fun t => byteLen ids block.start t ≤ maxBytesLen c)
        (ids.length - block.start) rounds block.blockSize).map
        (candidateAt c (byteLen ids) ids block.start) := by
  induction rounds generalizing block with
  | zero => rfl
  | succ rounds ih =>
    have hbound := hg.bound
    rw [growExamined, BestSearch.grow]
    by_cases hfit : byteLen ids block.start block.blockSize ≤ maxBytesLen c
    · rw [if_neg (Nat.not_lt.mpr hfit), if_pos hfit]
      by_cases hend : block.blockSize + block.start = ids.length
      · have hlimit : block.blockSize = ids.length - block.start := by omega
        simp only [if_pos hend, if_true, if_pos hlimit, List.map_cons, List.map_nil, candidateAt,
          blockAt]
      · have hlimit : ¬ block.blockSize = ids.length - block.start := by omega
        have hnot : block.blockType ≠ .rightMost := by
          rw [htype hend]
          split <;> simp
        -- a block that does not reach the end of the list grows
        have hnext : Growing ids { block with blockSize := block.blockSize + 1 } :=
          ⟨Nat.le_add_left _ _, by show block.start + (block.blockSize + 1) ≤ _; omega,
            hg.ne_fullHash, hg.leftMost, fun hright => absurd hright hnot⟩
        have hrest := ih hnext (fun _ => htype hend)
        have hblock : block = blockAt ids block.start block.blockSize := by
          rw [blockAt, if_neg hend, ← htype hend]
        simp only [if_neg hend, if_neg hnot, if_neg hlimit, List.map_cons, hrest]
        rw [candidateAt, ← hblock]
    · rw [if_pos (Nat.not_le.mp hfit), if_neg hfit]
      rfl

/-- The candidates of `V3`, with the byte count that has the control bytes twice. -/
theorem mem_examined_iff {cand : Candidate} :
    cand ∈ examined c ids ↔
      ∃ i size, Examined c (byteLen ids) ids i size ∧
        cand = candidateAt c (byteLen ids) ids i size := by
  rw [← mem_candidates_iff, examined, List.mem_flatMap, List.mem_flatMap]
  apply exists_congr
  intro i
  apply and_congr_right
  intro hi
  have hi' := List.mem_range.mp hi
  have hfrom : examinedFrom c ids i =
      (BestSearch.grow (fun t => byteLen ids i t ≤ maxBytesLen c) (ids.length - i) ids.length
        (firstSize ids i)).map (candidateAt c (byteLen ids) ids i) := by
    unfold examinedFrom firstSize
    split
    · rename_i hzero
      exact growExamined_eq _ ⟨Nat.le_refl _, hi', (by simp), fun _ => hzero, (by simp)⟩
        (fun _ => (if_pos hzero).symm)
    · rename_i hzero
      split
      · exact growExamined_eq _
          ⟨Nat.le_add_left 1 1, by show i + 2 ≤ _; omega, (by simp), (by simp), (by simp)⟩
          (fun _ => (if_neg hzero).symm)
      · exact growExamined_eq _
          ⟨Nat.le_refl _, hi', (by simp), (by simp), fun _ => by show i + 1 = _; omega⟩
          (fun hend => absurd (by show 1 + i = _; omega) hend)
  rw [hfrom]

end Running

end DeltaSIMDEncodeV3

/-! ## Section 5: Budgets -/

namespace DeltaSIMDEncode

/-- The block is another one with the neighbour behind it or in front of it. -/
def Extends (block : BlockInfo) (start size : Nat) : Prop :=
  size = block.blockSize + 1 ∧ (start = block.start ∨ start + 1 = block.start)

/-- The search scores every candidate with the hash bits that `ConstructEncode` leaves
    behind the block, and a block that fits and extends a candidate is a candidate. -/
structure BudgetsExactly (c : Config) (write : List Nat → List Byte) (out : List Nat → Nat)
    (ids : List Nat) (cands : List Candidate) : Prop where
  /-- The `int` indices of the loops over the neighbours do not overflow. -/
  length_lt : ids.length < 2 ^ 31
  hashBits_eq : ∀ cand ∈ cands,
    cand.hashBits = c.perEncodeBitSize - 8 - 8 * (write (cand.block.inside ids)).length ∧
    cand.hashBits = c.perEncodeBitSize - (out (cand.block.inside ids) + 1) * 8
  closed : ∀ cand ∈ cands, ∀ start size, Extends cand.block start size →
    start + size ≤ ids.length → (write ((ids.drop start).take size)).length ≤ maxBytesLen c →
    ∃ cand' ∈ cands, cand'.block.start = start ∧ cand'.block.blockSize = size

theorem inside_blockAt (ids : List Nat) (i size : Nat) :
    (blockAt ids i size).inside ids = (ids.drop i).take size := rfl

/-- The running byte count of `V0`, `V1` and `V2` is exact. `ConstructEncode` goes by the
    length that `EncodeDeltas` reports, which is right up to 255 data bytes. -/
theorem budgetsExactly_running_iff {c : Config} {ver : Version} {ids : List Nat}
    (hlt : ∀ id ∈ ids, id < 2 ^ 32) :
    BudgetsExactly c (encodeArray ver) (outBytesLength ver) ids (examined c ver ids) ↔
      ids.length < 2 ^ 31 ∧
      ∀ i size, i < ids.length → firstSize ids i ≤ size → i + size ≤ ids.length →
        getRequiredBytes ver ((ids.drop i).take size) ≤ maxBytesLen c →
        (dataPart ver ((ids.drop i).take size)).length ≤ 255 := by
  have hper := perEncodeBitSize_eq c
  constructor
  · intro h
    refine ⟨h.length_lt, fun i size hi hfirst hbound hfit => ?_⟩
    have hex : Examined c (blockBytes ver ids) ids i size := examined_of_fits hi hfirst hbound hfit
    obtain ⟨-, hout⟩ := h.hashBits_eq _ ((mem_examined_iff hlt).mpr ⟨i, size, hex, rfl⟩)
    -- the reported length is the written one, so nothing was cut off
    have hbits : (candidateAt c (blockBytes ver ids) ids i size).hashBits =
      (maxBytesLen c - getRequiredBytes ver ((ids.drop i).take size)) * 8 := rfl
    have hinside : (candidateAt c (blockBytes ver ids) ids i size).block.inside ids =
      (ids.drop i).take size := rfl
    rw [hbits, hinside, outBytesLength, encodeDeltas_eq] at hout
    have hlen := length_encodeArray ver ((ids.drop i).take size)
    rw [length_encodeArray_eq_dataPart] at hlen
    omega
  · intro h
    obtain ⟨hlength, hdata⟩ := h
    refine ⟨hlength, fun cand hcand => ?_, fun cand hcand start size hext hbound hfit => ?_⟩
    · obtain ⟨i, size, hex, rfl⟩ := (mem_examined_iff hlt).mp hcand
      have hfit : getRequiredBytes ver ((ids.drop i).take size) ≤ maxBytesLen c :=
        hex.fits size hex.first_le (Nat.le_refl _)
      have hout := outBytesLength_eq (hdata i size hex.start_lt hex.first_le hex.bound hfit)
      have hlen := length_encodeArray ver ((ids.drop i).take size)
      simp only [candidateAt, inside_blockAt, blockBytes]
      rw [hout]
      omega
    · -- a block that fits is a candidate, whatever it extends
      obtain ⟨i, size', hex, rfl⟩ := (mem_examined_iff hlt).mp hcand
      obtain ⟨hsize, hstart⟩ := hext
      change size = size' + 1 at hsize
      change start = i ∨ start + 1 = i at hstart
      have hfirst : firstSize ids start ≤ size := by
        have := firstSize_pos ids i
        have := hex.first_le
        unfold firstSize
        split_ifs <;> omega
      rw [length_encodeArray] at hfit
      have hex' : Examined c (blockBytes ver ids) ids start size :=
        examined_of_fits (by omega) hfirst hbound hfit
      exact ⟨_, (mem_examined_iff hlt).mpr ⟨start, size, hex', rfl⟩, rfl, rfl⟩

end DeltaSIMDEncode

namespace DeltaSIMDEncodeV3

open DeltaSIMDCodecV3 (getRequiredBytesAt outBytesLength)
open DeltaSIMDEncode (BudgetsExactly Candidate Examined candidateAt firstSize maxBytesLen)

theorem getRequiredBytesAt_one (ids : List Nat) (i : Nat) :
    getRequiredBytesAt ids i 1 = 1 + GroupVarint.byteLen (ids.getD i 0) := by
  have horder : DeltaSIMDCodecV3.order 1 0 + i = i := by
    rw [show DeltaSIMDCodecV3.order 1 0 = 0 from rfl, Nat.zero_add]
  simp only [getRequiredBytesAt, List.range_one, List.map_cons, List.map_nil, horder]
  simp [DeltaSIMDCodec.getRequiredBytes, genValues, genValue, getOneEncodeLength,
    GroupVarint.byteLen]

/-- The bits left for the hash area are one byte short for every control byte. -/
theorem hashBits_ne {c : Config} {ids : List Nat} {i size : Nat} (hpos : 1 ≤ size)
    (hsize : size ≤ 40) (hbound : i + size ≤ ids.length)
    (hfit : byteLen ids i size ≤ maxBytesLen c) :
    (candidateAt c (byteLen ids) ids i size).hashBits ≠
      c.perEncodeBitSize - 8 - 8 *
        (DeltaSIMDCodecV3.encodeArray ((ids.drop i).take size)).length := by
  have hper := DeltaSIMDEncode.perEncodeBitSize_eq c
  have hlen := getRequiredBytesAt_eq hbound hsize
  unfold byteLen at hfit
  simp only [candidateAt, byteLen]
  omega

/-- A search of `V3` that scores any block scores the first one, and with the wrong bits.
    Only one word a record and ids of two bytes or more leave it without a candidate. -/
theorem budgetsExactly_doubled_iff {c : Config} {ids : List Nat} (hsorted : ids.Pairwise (· ≤ ·))
    (hne : ids ≠ []) :
    BudgetsExactly c DeltaSIMDCodecV3.encodeArray outBytesLength ids (examined c ids) ↔
      ids.length < 2 ^ 31 ∧ c.kSize = 1 ∧ 2 ^ 8 ≤ ids.getD 0 0 := by
  have hpos : 0 < ids.length := List.length_pos_iff.mpr hne
  have hk := c.kSize_ne
  have hmax : maxBytesLen c = c.kSize * 4 - 1 := by
    unfold maxBytesLen Config.perEncodeBitSize
    omega
  have hone : ∀ i, byteLen ids i 1 = 2 + GroupVarint.byteLen (ids.getD i 0) := by
    intro i
    rw [byteLen, getRequiredBytesAt_one]
    omega
  have hshort : ∀ v, 2 ^ 8 ≤ v → 2 ≤ GroupVarint.byteLen v := by
    intro v hv
    unfold GroupVarint.byteLen
    split_ifs <;> omega
  constructor
  · intro h
    -- the block of the first neighbour would be the first candidate
    have hfirst : ¬ byteLen ids 0 1 ≤ maxBytesLen c := by
      intro hfit
      have hex : Examined c (byteLen ids) ids 0 1 :=
        ⟨hpos, Nat.le_refl 1, by omega, fun t ht ht' => by
          rw [show t = 1 from Nat.le_antisymm ht' ht]
          exact hfit⟩
      have hbits := (h.hashBits_eq _ (mem_examined_iff.mpr ⟨0, 1, hex, rfl⟩)).1
      exact hashBits_ne (Nat.le_refl 1) (by decide) (by omega) hfit hbits
    rw [hone, hmax] at hfirst
    have hle := GroupVarint.byteLen_le (ids.getD 0 0)
    refine ⟨h.length_lt, by omega, ?_⟩
    by_contra hsmall
    rw [GroupVarint.byteLen, if_pos (by omega)] at hfirst
    omega
  · intro h
    obtain ⟨hlength, hword, hlow⟩ := h
    have hlast : 2 ^ 8 ≤ ids.getD (ids.length - 1) 0 := by
      rcases Nat.eq_or_lt_of_le hpos with heq | hlt
      · rw [← heq]
        exact hlow
      · have hle := List.pairwise_iff_getElem.mp hsorted 0 (ids.length - 1) hpos (by omega) (by omega)
        rw [← List.getD_eq_getElem _ 0, ← List.getD_eq_getElem _ 0] at hle
        omega
    -- no block that a round begins with fits the three bytes
    have hnone : ∀ cand, cand ∉ examined c ids := by
      intro cand hcand
      obtain ⟨i, size, hex, -⟩ := mem_examined_iff.mp hcand
      have hfit := hex.fits _ (Nat.le_refl _) hex.first_le
      rw [hmax, hword] at hfit
      have hi := hex.start_lt
      unfold firstSize at hfit
      -- one neighbour at either end takes four bytes, two in between take five
      split_ifs at hfit with hzero hinner
      · have := hshort _ hlow
        rw [hone, hzero] at hfit
        omega
      · have hle := le_getRequiredBytesAt ids i 2
        unfold byteLen at hfit
        omega
      · have := hshort _ hlast
        rw [hone, show i = ids.length - 1 by omega] at hfit
        omega
    exact ⟨hlength, fun cand hcand => absurd hcand (hnone cand),
      fun cand hcand => absurd hcand (hnone cand)⟩

end DeltaSIMDEncodeV3

namespace DeltaSIMDEncode

/-- When the search of a list that does not fit budgets exactly. -/
theorem budgetsExactly_iff {c : Config} {ids : List Nat} (hsorted : ids.Pairwise (· ≤ ·))
    (hrange : ∀ id ∈ ids, 1 ≤ id ∧ id ≤ c.vertexSize) :
    (∀ ver, ¬ getRequiredBytes ver ids ≤ maxBytesLen c →
      (BudgetsExactly c (encodeArray ver) (outBytesLength ver) ids (examined c ver ids) ↔
        ids.length < 2 ^ 31 ∧
        ∀ i size, i < ids.length → firstSize ids i ≤ size → i + size ≤ ids.length →
          getRequiredBytes ver ((ids.drop i).take size) ≤ maxBytesLen c →
          (dataPart ver ((ids.drop i).take size)).length ≤ 255)) ∧
    (¬ DeltaSIMDCodecV3.getRequiredBytes ids ≤ maxBytesLen c →
      (BudgetsExactly c DeltaSIMDCodecV3.encodeArray DeltaSIMDCodecV3.outBytesLength ids
          (DeltaSIMDEncodeV3.examined c ids) ↔
        ids.length < 2 ^ 31 ∧ c.kSize = 1 ∧ 2 ^ 8 ≤ ids.getD 0 0)) := by
  have hlt : ∀ id ∈ ids, id < 2 ^ 32 :=
    fun id hid => Nat.lt_of_le_of_lt (hrange id hid).2 c.vertexSize_lt
  refine ⟨fun ver _ => budgetsExactly_running_iff hlt, fun hlong => ?_⟩
  have hne : ids ≠ [] := by
    rintro rfl
    exact hlong (Nat.zero_le _)
  exact DeltaSIMDEncodeV3.budgetsExactly_doubled_iff hsorted hne

/-- Records of two words over ten vertices. -/
def twoWords : Config := Config.ofSizes 2 10 2 (by decide)

theorem budgetsExactly_iff_six :
    (BudgetsExactly twoWords (encodeArray .v0) (outBytesLength .v0) [1, 2, 3, 4, 5, 6]
        (examined twoWords .v0 [1, 2, 3, 4, 5, 6]) ↔
      6 < 2 ^ 31 ∧
      ∀ i size, i < 6 → firstSize [1, 2, 3, 4, 5, 6] i ≤ size → i + size ≤ 6 →
        getRequiredBytes .v0 (([1, 2, 3, 4, 5, 6].drop i).take size) ≤ 7 →
        (dataPart .v0 (([1, 2, 3, 4, 5, 6].drop i).take size)).length ≤ 255) ∧
    (BudgetsExactly twoWords DeltaSIMDCodecV3.encodeArray DeltaSIMDCodecV3.outBytesLength
        [1, 2, 3, 4, 5, 6] (DeltaSIMDEncodeV3.examined twoWords [1, 2, 3, 4, 5, 6]) ↔
      6 < 2 ^ 31 ∧ 2 = 1 ∧ 2 ^ 8 ≤ 1) := by
  have h := @budgetsExactly_iff twoWords [1, 2, 3, 4, 5, 6] (by decide) (by decide)
  exact ⟨h.1 .v0 (by decide), h.2 (by decide)⟩

/-- Six neighbours, records of two words: the block of the first neighbour takes two bytes,
    which leaves 40 bits, and `V3` scores it with 32. -/
theorem budget_of_one_short :
    ¬ DeltaSIMDCodecV3.getRequiredBytes [1, 2, 3, 4, 5, 6] ≤ maxBytesLen twoWords ∧
    ⟨⟨0, 1, .leftMost⟩, 32⟩ ∈ DeltaSIMDEncodeV3.examined twoWords [1, 2, 3, 4, 5, 6] ∧
    (DeltaSIMDCodecV3.encodeArray
      ((⟨0, 1, .leftMost⟩ : BlockInfo).inside [1, 2, 3, 4, 5, 6])).length = 2 ∧
    ¬ BudgetsExactly twoWords DeltaSIMDCodecV3.encodeArray DeltaSIMDCodecV3.outBytesLength
      [1, 2, 3, 4, 5, 6] (DeltaSIMDEncodeV3.examined twoWords [1, 2, 3, 4, 5, 6]) := by
  have hmem : ⟨⟨0, 1, .leftMost⟩, 32⟩ ∈
      DeltaSIMDEncodeV3.examined twoWords [1, 2, 3, 4, 5, 6] := by decide
  refine ⟨by decide, hmem, by decide, ?_⟩
  intro h
  have hbits := (h.hashBits_eq _ hmem).1
  exact absurd hbits (by decide)

end DeltaSIMDEncode

end Vend
