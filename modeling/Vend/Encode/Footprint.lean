import Vend.Encode.BitHashEncode
import Vend.Encode.BloomEncode
import Vend.Encode.CountEncode
import Vend.Encode.DeltaSIMDEncodeV3
import Vend.Encode.FullRecords

/-! # Bytes behind a record

    A query may read past the end of a record: the codecs load 16 bytes at a time, and a
    size field may announce more ids than the record has room for. `withBehind` is a record
    with the bytes that follow it in memory.

    The lanes that a search of the SIMD codecs compares are cut out of the bytes that
    `GetEncodeLength` counts. While these are in the record, what follows it does not matter
    (`testBits_withBehind`). The loop for `HSIMD ≠ 0` compares the last group without its
    mask, so all four of its lanes have to be there.
-/

namespace Vend

/-! ## Section 1: A record and what follows it -/

namespace BitSetSIMD

/-- The record with the bytes that stand behind it. -/
def withBehind (bs : BitSetSIMD) (behind : List Byte) : BitSetSIMD := ⟨bs.data ++ behind⟩

@[simp] theorem withBehind_nil (bs : BitSetSIMD) : bs.withBehind [] = bs := by
  simp [withBehind]

section

variable {bs : BitSetSIMD} (behind : List Byte)

theorem byte_withBehind {i : Nat} (hi : i < bs.data.length) :
    (bs.withBehind behind).byte i = bs.byte i :=
  List.getD_append _ _ _ _ hi

theorem isOne_withBehind {pos : Nat} (hpos : pos < bs.bitLength) :
    (bs.withBehind behind).isOne pos = bs.isOne pos := by
  have hbyte : pos >>> 3 < bs.data.length := by
    rw [shiftRight_three]
    unfold bitLength at hpos
    omega
  rw [isOne, isOne, byte_withBehind behind hbyte]

/-- `BlockGet` reads the bytes up to the one with the last bit of the field. -/
theorem blockGet_congr {bs bs' : BitSetSIMD} {start size : Nat}
    (h : ∀ i ≤ (start + size - 1) / 8, bs.byte i = bs'.byte i)
    (hstart : start / 8 ≤ (start + size - 1) / 8) :
    bs.blockGet start size = bs'.blockGet start size := by
  have hloop : ∀ n ≤ (start + size - 1) / 8,
      blockGetLoop bs ((start + size - 1) / 8) ((start + size - 1) % 8) n =
        blockGetLoop bs' ((start + size - 1) / 8) ((start + size - 1) % 8) n := by
    intro n hn
    induction n with
    | zero => rfl
    | succ n ih => rw [blockGetLoop, blockGetLoop, ih (by omega), h _ (Nat.sub_le _ _)]
  simp only [blockGet, shiftRight_three, h _ hstart, h _ (Nat.le_refl _),
    hloop _ (show (start + size - 1) / 8 - start / 8 - 1 ≤ _ by omega)]

theorem blockGet_withBehind {start size : Nat} (hsize : 0 < size)
    (hle : start + size ≤ bs.bitLength) :
    (bs.withBehind behind).blockGet start size = bs.blockGet start size := by
  unfold bitLength at hle
  exact blockGet_congr (fun i hi => byte_withBehind behind (by omega)) (by omega)

end

end BitSetSIMD

/-- The records with the bytes that stand behind each of them. -/
def Records.withBehind (rs : Records) (behind : Nat → List Byte) : Records :=
  rs.mapIdx fun v bs => bs.withBehind (behind v)

@[simp] theorem Records.withBehind_nil (rs : Records) : (rs.withBehind fun _ => []) = rs := by
  apply List.ext_getElem
  · simp [withBehind]
  · intro v h₁ h₂
    simp [withBehind]

theorem Records.record_withBehind {rs : Records} {v : Nat} (hv : v < rs.length)
    (behind : Nat → List Byte) :
    (rs.withBehind behind).record v = (rs.record v).withBehind (behind v) := by
  have hv' : v < (rs.withBehind behind).length := by rwa [withBehind, List.length_mapIdx]
  rw [record, record, List.getD_eq_getElem _ _ hv', List.getD_eq_getElem _ _ hv]
  exact List.getElem_mapIdx

/-! ## Section 2: The lanes of a group -/

namespace DeltaSIMDCodec

open GroupVarint DeltaSIMDCodecV3

/-- Two memories with the same first bytes. -/
def SameBelow (limit : Nat) (mem mem' : Nat → BitVec 8) : Prop := ∀ p < limit, mem p = mem' p

/-- Two registers with the same first lanes. -/
def SameLanes (w : Nat) (x y : M128) : Prop := ∀ j < w, x.lane j = y.lane j

theorem SameLanes.mono {w w' : Nat} {x y : M128} (h : SameLanes w x y) (hle : w' ≤ w) :
    SameLanes w' x y :=
  fun j hj => h j (by omega)

theorem SameLanes.eq {x y : M128} (h : SameLanes 4 x y) : x = y := by
  have h₀ := h 0 (by decide)
  have h₁ := h 1 (by decide)
  have h₂ := h 2 (by decide)
  have h₃ := h 3 (by decide)
  cases x
  cases y
  simp_all [M128.lane]

/-- The additions carry lanes to later lanes only. -/
theorem SameLanes.recoveryFromDelta {w : Nat} {x y pre pre' : M128} (h : SameLanes w x y)
    (hle : w ≤ 4) (hpre : pre.l3 = pre'.l3) (ver : Version) :
    SameLanes w (recoveryFromDelta ver x pre) (recoveryFromDelta ver y pre') := by
  intro j hj
  have h₀ : x.l0 = y.l0 := h 0 (by omega)
  have h₁ : 1 ≤ j → x.l1 = y.l1 := fun hj' => h 1 (by omega)
  have h₂ : 2 ≤ j → x.l2 = y.l2 := fun hj' => h 2 (by omega)
  have h₃ : 3 ≤ j → x.l3 = y.l3 := fun hj' => h 3 (by omega)
  rcases (by omega : j = 0 ∨ j = 1 ∨ j = 2 ∨ j = 3) with rfl | rfl | rfl | rfl <;> cases ver <;>
    simp_all [DeltaSIMDCodec.recoveryFromDelta, M128.add, M128.slli4, M128.slli8, M128.set1, M128.lane]

theorem laneStart_mono (control : Nat) {i j : Nat} (hij : i ≤ j) :
    laneStart control i ≤ laneStart control j := by
  induction hij with
  | refl => exact Nat.le_refl _
  | step _ ih =>
    rw [laneStart]
    omega

section

variable {mem mem' : Nat → BitVec 8} {limit count : Nat}

/-- A lane is cut out of the bytes up to its end. -/
theorem SameBelow.sameLanes (h : SameBelow limit mem mem') {control ptr w : Nat}
    (hcontrol : control < 256) (hw : w ≤ 4) (hend : ptr + laneStart control w ≤ limit) :
    SameLanes w (decodeData mem control ptr) (decodeData mem' control ptr) := by
  intro j hj
  rw [lane_decodeData mem ptr hcontrol (by omega), lane_decodeData mem' ptr hcontrol (by omega)]
  apply value_congr
  intro b hb
  apply h
  have hmono := laneStart_mono control (show j + 1 ≤ w from hj)
  rw [laneStart] at hmono
  omega

/-- `GetEncodeLength` counts the groups, the bytes of all groups but the last, and there the
    bytes of the ids. -/
theorem getEncodeLength_split (mem : Nat → BitVec 8) (count : Nat) :
    getEncodeLength mem count = groups count + countByteLen mem (groups count - 1) +
      laneStart (mem (groups count - 1)).toNat (width count) := by
  have hmod : width (count % 4) = width count := by simp [width]
  have hmask := lengthTable_mask (mem (groups count - 1)).toNat (mem (groups count - 1)).isLt
    (count % 4) (Nat.mod_lt _ (by decide))
  rw [hmod] at hmask
  have hpad : (4 - count % 4) % 4 = 4 - width count := by
    unfold width
    split_ifs <;> omega
  have hle := width_le count
  show groups count + countByteLen mem (groups count - 1) +
    lengthTable.getD ((mem (groups count - 1)).toNat &&& encodeLengthMask.getD (count % 4) 0) 0 -
      (4 - count % 4) % 4 = _
  rw [hmask, hpad]
  omega

theorem countByteLen_succ (mem : Nat → BitVec 8) (g : Nat) :
    countByteLen mem (g + 1) = countByteLen mem g + laneStart (mem g).toNat 4 := by
  rw [countByteLen, List.range_succ, List.map_append, List.sum_append, countByteLen,
    List.map_singleton, List.sum_singleton, lengthTable_eq (mem g).isLt]

theorem countByteLen_mono (mem : Nat → BitVec 8) {g g' : Nat} (hle : g ≤ g') :
    countByteLen mem g ≤ countByteLen mem g' := by
  induction hle with
  | refl => exact Nat.le_refl _
  | step _ ih =>
    rw [countByteLen_succ]
    omega

/-- The compared lanes of every group end inside the bytes that are counted. -/
theorem lanes_le (mem : Nat → BitVec 8) {g : Nat} (hg : g < groups count) :
    groups count + countByteLen mem g + laneStart (mem g).toNat (groupWidth count g) ≤
      getEncodeLength mem count := by
  rw [getEncodeLength_split, groupWidth]
  rcases Nat.lt_or_ge (g + 1) (groups count) with hlt | hge
  · rw [if_neg (by unfold groups at hlt; omega)]
    have hnext := countByteLen_mono mem (show g + 1 ≤ groups count - 1 by omega)
    rw [countByteLen_succ] at hnext
    omega
  · have heq : g = groups count - 1 := by omega
    rw [if_pos (show g = (count + 3) / 4 - 1 from heq), heq]

theorem groups_le (mem : Nat → BitVec 8) : groups count ≤ getEncodeLength mem count := by
  rw [getEncodeLength_split]
  omega

/-- All lanes of the last group are counted. -/
theorem getEncodeLength_le (mem : Nat → BitVec 8) (count : Nat) :
    getEncodeLength mem count ≤ getEncodeLength mem (4 * groups count) := by
  have hgroups : groups (4 * groups count) = groups count := by
    unfold groups
    omega
  have hwidth : width (4 * groups count) = 4 := if_pos (by omega)
  rw [getEncodeLength_split, getEncodeLength_split, hgroups, hwidth]
  have := laneStart_mono (mem (groups count - 1)).toNat (width_le count)
  omega

section

variable (h : SameBelow (getEncodeLength mem count) mem mem')
include h

theorem SameBelow.control {g : Nat} (hg : g < groups count) : mem g = mem' g :=
  h g (Nat.lt_of_lt_of_le hg (groups_le mem))

theorem SameBelow.byteLen {g : Nat} (hg : g ≤ groups count) :
    countByteLen mem g = countByteLen mem' g := by
  induction g with
  | zero => rfl
  | succ g ih => rw [countByteLen_succ, countByteLen_succ, ih (by omega), h.control hg]

theorem SameBelow.encodeLength (hcount : 0 < count) :
    getEncodeLength mem count = getEncodeLength mem' count := by
  have hlast : groups count - 1 < groups count := by
    unfold groups
    omega
  rw [getEncodeLength_split, getEncodeLength_split,
    h.byteLen (Nat.le_of_lt hlast), h.control hlast]

/-- The compared lanes of a group are the same. -/
theorem SameBelow.lanes {g : Nat} (hg : g < groups count) {ptr : Nat}
    (hptr : ptr = groups count + countByteLen mem g) :
    SameLanes (groupWidth count g) (decodeData mem (mem g).toNat ptr)
      (decodeData mem' (mem' g).toNat ptr) := by
  rw [← h.control hg]
  apply h.sameLanes (mem g).isLt
  · unfold groupWidth
    split
    · exact width_le count
    · exact Nat.le_refl 4
  · rw [hptr]
    exact lanes_le mem hg

/-- The compared ids of a group are the same, if the lane that is carried over is. -/
theorem SameBelow.group (ver : Version) {g : Nat} (hg : g < groups count) {ptr : Nat}
    (hptr : ptr = groups count + countByteLen mem g) {pre pre' : M128} (hpre : pre.l3 = pre'.l3) :
    SameLanes (groupWidth count g)
      (recoveryFromDelta ver (decodeData mem (mem g).toNat ptr) pre)
      (recoveryFromDelta ver (decodeData mem' (mem' g).toNat ptr) pre') := by
  refine (h.lanes hg hptr).recoveryFromDelta ?_ hpre ver
  unfold groupWidth
  split
  · exact width_le count
  · exact Nat.le_refl 4

/-! ## Section 3: The searches of `V0` to `V2` -/

/-- The loop over the groups behind the first one. -/
theorem SameBelow.findMiddle (ver : Version) (element : Nat) {n g ptr : Nat} {pre pre' : M128}
    (hg : g + n + 1 = groups count) (hptr : ptr = groups count + countByteLen mem g)
    (hpre : pre.l3 = pre'.l3) :
    findMiddle ver mem (count % 4) element n g ptr pre =
      findMiddle ver mem' (count % 4) element n g ptr pre' := by
  induction n generalizing g ptr pre pre' with
  | zero =>
    have hgroup := h.group ver (show g < groups count by omega) hptr hpre
    rw [groupWidth, if_pos (show g = (count + 3) / 4 - 1 by unfold groups at hg; omega)] at hgroup
    have hmask := fun p => movemask_congr p (width_le count) hgroup
    simp only [DeltaSIMDCodec.findMiddle, findLast, ltMask, eqMask, lastCompareMask_eq, hmask]
  | succ n ih =>
    -- a group in the middle has all of its lanes
    have hgroup := h.group ver (show g < groups count by omega) hptr hpre
    rw [groupWidth, if_neg (show g ≠ (count + 3) / 4 - 1 by unfold groups at hg; omega)] at hgroup
    have hnext : ptr + lengthTable.getD (mem g).toNat 0 =
        groups count + countByteLen mem (g + 1) := by
      rw [countByteLen_succ, lengthTable_eq (mem g).isLt, hptr, Nat.add_assoc]
    simp only [DeltaSIMDCodec.findMiddle, hgroup.eq, ← h.control (show g < groups count by omega)]
    rw [ih (by omega) hnext rfl]

theorem SameBelow.findWithCount (ver : Version) (element : Nat) (hpos : 0 < count)
    (hlt : count + 3 < 2 ^ 32) :
    findWithCount ver mem count element = findWithCount ver mem' count element := by
  have hgroups : (count + 3) % 2 ^ 32 / 4 = groups count := by
    rw [Nat.mod_eq_of_lt hlt]
    rfl
  have hfirst : 0 < groups count := by
    unfold groups
    omega
  have hgroup := h.group ver hfirst (show groups count = _ from rfl)
    (show (M128.set1 0).l3 = (M128.set1 0).l3 from rfl)
  unfold DeltaSIMDCodec.findWithCount
  simp only [hgroups]
  by_cases hone : groups count = 1
  · -- the only group is the last one
    rw [groupWidth, if_pos (show 0 = (count + 3) / 4 - 1 by unfold groups at hone; omega)] at hgroup
    have hmask := fun p => movemask_congr p (width_le count) hgroup
    have hlane := hgroup 0 (width_pos count)
    simp only [M128.lane] at hlane
    simp only [if_pos hone, ltMask, eqMask, lastCompareMask_eq, hmask, hlane]
  · rw [groupWidth, if_neg (show 0 ≠ (count + 3) / 4 - 1 by unfold groups at hone hfirst; omega)]
      at hgroup
    have hnext : groups count + lengthTable.getD (mem 0).toNat 0 =
        groups count + countByteLen mem 1 := by
      rw [countByteLen_succ, lengthTable_eq (mem 0).isLt]
      simp [countByteLen]
    have hrounds : 1 + (sub32 (groups count) 1 - 1) + 1 = groups count := by
      rw [sub32_of_le (by omega) (by unfold groups; omega)]
      omega
    simp only [if_neg hone, hgroup.eq, ← h.control hfirst]
    rw [h.findMiddle ver element hrounds hnext rfl]

end

end

end DeltaSIMDCodec

/-! ## Section 4: The searches of `V3` -/

namespace DeltaSIMDCodecV3

open GroupVarint DeltaSIMDCodec

section

variable {mem mem' : Nat → BitVec 8} {count : Nat}

/-- The ids are read from the bytes that are counted. -/
theorem sameIds_of_sameBelow (h : SameBelow (getEncodeLength mem count) mem mem') :
    SameIds count mem mem' := by
  intro g j hj hin
  have hg : g < groups count := by
    unfold groups
    omega
  have hgroup := h.group .v2 hg rfl (show (M128.set1 0).l3 = (M128.set1 0).l3 from rfl)
  unfold readGroup
  rw [← h.byteLen (Nat.le_of_lt hg)]
  apply hgroup j
  unfold groupWidth width
  split_ifs <;> omega

/-- With every lane counted, the registers are the same. -/
theorem readGroup_congr (h : SameBelow (getEncodeLength mem (4 * groups count)) mem mem') {g : Nat}
    (hg : g < groups count) : readGroup mem count g = readGroup mem' count g := by
  have hgroups : groups (4 * groups count) = groups count := by
    unfold groups
    omega
  have hgroup := h.group .v2 (show g < groups (4 * groups count) by rwa [hgroups]) rfl
    (show (M128.set1 0).l3 = (M128.set1 0).l3 from rfl)
  have hwidth : groupWidth (4 * groups count) g = 4 := by
    unfold groupWidth width
    split_ifs <;> omega
  rw [hwidth, hgroups] at hgroup
  unfold readGroup
  rw [← h.byteLen (show g ≤ groups (4 * groups count) by omega)]
  exact hgroup.eq

section

variable (h : ∀ g < groups count, readGroup mem count g = readGroup mem' count g)
include h

theorem sameIds_of_readGroup : SameIds count mem mem' := by
  intro g j hj hin
  rw [h g (by unfold groups; omega)]

theorem dfsSIMD_congr (element : Nat) {node : TreeNode} (hnode : nodesFull count node = true) :
    dfsSIMD mem count element node = dfsSIMD mem' count element node := by
  have hgroups : ∀ idx w, 1 ≤ w → 4 * idx + w ≤ count → idx < groups count := by
    intro idx w hw hle
    unfold groups
    omega
  induction node using nodesFull.induct with
  | case1 idx masks =>
    have hleaf := dfs_congr (sameIds_of_readGroup h) element hnode
    rw [nodesFull, decide_eq_true_eq] at hnode
    have hpos : 1 ≤ groupWidth count idx := by
      unfold groupWidth width
      split_ifs <;> omega
    rw [dfsSIMD, dfsSIMD, h idx (hgroups idx _ hpos hnode), hleaf]
  | case2 idx child rest masks ih =>
    rw [nodesFull, Bool.and_eq_true, decide_eq_true_eq] at hnode
    rw [dfsSIMD, dfsSIMD, h idx (hgroups idx 4 (by decide) hnode.1), ih hnode.2]

theorem findWithCountSIMD_congr (element : Nat) (hlen : count ≤ 40) (hpos : 0 < count) :
    findWithCountSIMD mem count element = findWithCountSIMD mem' count element := by
  unfold findWithCountSIMD
  rw [h 0 (by unfold groups; omega),
    findWithCount_congr (sameIds_of_readGroup h) element hlen hpos]
  rcases Nat.lt_or_ge 4 count with hlong | hshort
  · have hfull := childrenFull_treesAry hlen hlong
    generalize treesAry count = tree at hfull ⊢
    obtain ⟨idx, children, masks⟩ := tree
    dsimp only
    -- only the child that the mask leads to reads on
    cases hfind : (children.zip masks).find? fun child =>
        decide (ltMask (readGroup mem' count 0) element = child.2) with
    | none => rfl
    | some found =>
      have hin := (List.of_mem_zip (List.mem_of_find?_eq_some hfind)).1
      simp only [dfsSIMD_congr h element (List.all_eq_true.mp hfull _ hin)]
  · simp only [if_pos (show (count + 3) / 4 = 1 by omega)]

end

end

end DeltaSIMDCodecV3

/-! ## Section 5: The queries -/

namespace DeltaSIMDEncode

open BitSetSIMD GroupVarint DeltaSIMDCodec

/-- The number of ids whose bytes a search compares: with `HSIMD ≠ 0` the last group is
    compared as if it were full. -/
def comparedIds (hsimd : Bool) (count : Nat) : Nat := if hsimd then 4 * groups count else count

/-- The record announces no ids, or the bytes of all that are compared are in it. -/
def Contained (hsimd : Bool) (encode : BitSetSIMD) : Prop :=
  encode.getEncodeSize = 0 ∨
    1 + getEncodeLength (memory encode fun _ => 0) (comparedIds hsimd encode.getEncodeSize) ≤
      encode.data.length

instance (hsimd : Bool) (encode : BitSetSIMD) : Decidable (Contained hsimd encode) :=
  inferInstanceAs (Decidable (_ ∨ _))

/-- A search that only reads the bytes of the ids that it compares. -/
def Codec.Reads (codec : Codec) (hsimd : Bool) : Prop :=
  ∀ (mem mem' : Nat → Byte) (count element : Nat), 0 < count → count < 32 →
    SameBelow (DeltaSIMDCodec.getEncodeLength mem (comparedIds hsimd count)) mem mem' →
    codec.findWithCount mem count element = codec.findWithCount mem' count element

theorem reads_codecOf (ver : Version) : (codecOf ver).Reads false := by
  intro mem mem' count element hpos hlt h
  exact SameBelow.findWithCount h ver element hpos (show count + 3 < 2 ^ 32 by omega)

theorem reads_codecV3 : codecV3.Reads false := by
  intro mem mem' count element hpos hlt h
  have hsame : DeltaSIMDCodecV3.SameIds count mem mem' :=
    DeltaSIMDCodecV3.sameIds_of_sameBelow h
  exact DeltaSIMDCodecV3.findWithCount_congr hsame element (by omega) hpos

theorem reads_codecV3SIMD : codecV3SIMD.Reads true := by
  intro mem mem' count element hpos hlt h
  exact DeltaSIMDCodecV3.findWithCountSIMD_congr
    (fun g hg => DeltaSIMDCodecV3.readGroup_congr h hg) element (by omega) hpos

/-- With fewer ids the counted bytes are among those that are compared. -/
theorem getEncodeLength_comparedIds (hsimd : Bool) (mem : Nat → Byte) (count : Nat) :
    getEncodeLength mem count ≤ getEncodeLength mem (comparedIds hsimd count) := by
  cases hsimd
  · exact Nat.le_refl _
  · exact getEncodeLength_le mem count

section

variable {c : Config} {encode : BitSetSIMD} (hrec : IsRecord c encode) (behind : List Byte)

/-- The memory of a record goes on with what stands behind it. -/
theorem sameBelow_memory {limit : Nat} (hle : 1 + limit ≤ encode.data.length) :
    SameBelow limit (memory encode fun _ => 0) (memory (encode.withBehind behind) fun _ => 0) := by
  intro p hp
  have hlen : (encode.withBehind behind).data.length = encode.data.length + behind.length :=
    List.length_append
  rw [memory, memory, if_pos (by omega), if_pos (by omega), byte_withBehind behind (by omega)]

include hrec

theorem length_pos : 0 < encode.data.length := by
  have hk := c.kSize_ne
  unfold IsRecord bitLength Config.perEncodeBitSize at hrec
  omega

/-- The bits of the first byte. -/
theorem header_withBehind :
    (encode.withBehind behind).getFirstBit = encode.getFirstBit ∧
    getBlockModel (encode.withBehind behind) = getBlockModel encode ∧
    (encode.withBehind behind).getEncodeSize = encode.getEncodeSize := by
  have hbyte := byte_withBehind behind (length_pos hrec)
  refine ⟨?_, ?_, ?_⟩
  · rw [getFirstBit, getFirstBit, hbyte]
  · simp only [getBlockModel, getSecondBit, getThridBit, hbyte]
    rfl
  · rw [BitSetSIMD.getEncodeSize, BitSetSIMD.getEncodeSize, hbyte]

variable (hper : c.perEncodeBitSize < 2 ^ 32)
include hper

/-- The hash bits end with the record. -/
theorem isOne_hash_withBehind {hashBegin : Nat} (hlt : hashBegin < c.perEncodeBitSize) (w : Nat) :
    (encode.withBehind behind).isOne (hash c w hashBegin) =
      encode.isOne (hash c w hashBegin) := by
  apply isOne_withBehind
  rw [show encode.bitLength = c.perEncodeBitSize from hrec, hash, HybridEncode.hash,
    sub32_of_le (Nat.le_of_lt hlt) hper]
  have hmod := Nat.mod_lt w (show 0 < c.perEncodeBitSize - hashBegin by omega)
  omega

section

variable {codec : Codec} {hsimd : Bool} (hcodec : codec.Reads hsimd)
variable (hin : Contained hsimd encode) (w : Nat)
include hcodec hin

omit hrec hper in
/-- The search and the length only look at the bytes that are counted. -/
theorem search_withBehind (hsize : encode.getEncodeSize ≠ 0) :
    codec.findWithCount (memory (encode.withBehind behind) fun _ => 0) encode.getEncodeSize w =
      codec.findWithCount (memory encode fun _ => 0) encode.getEncodeSize w ∧
    getEncodeLength (memory (encode.withBehind behind) fun _ => 0) encode.getEncodeSize =
      getEncodeLength (memory encode fun _ => 0) encode.getEncodeSize := by
  have hlen := hin.resolve_left hsize
  have hpos : 0 < encode.getEncodeSize := Nat.pos_of_ne_zero hsize
  have hsmall : encode.getEncodeSize < 32 := by
    have hand : (encode.byte 0 &&& 0x1F).toNat ≤ 31 := by
      rw [BitVec.toNat_and]
      exact Nat.and_le_right
    unfold BitSetSIMD.getEncodeSize
    omega
  have hsame := sameBelow_memory behind hlen
  have hle := getEncodeLength_comparedIds hsimd (memory encode fun _ => 0) encode.getEncodeSize
  have hcount : SameBelow (getEncodeLength (memory encode fun _ => 0) encode.getEncodeSize)
      (memory encode fun _ => 0) (memory (encode.withBehind behind) fun _ => 0) :=
    fun p hp => hsame p (Nat.lt_of_lt_of_le hp hle)
  exact ⟨(hcodec _ _ _ w hpos hsmall hsame).symm, (hcount.encodeLength hpos).symm⟩

omit hper in
theorem findDecodable_withBehind :
    findDecodable codec (fun _ => 0) (encode.withBehind behind) w =
      findDecodable codec (fun _ => 0) encode w := by
  unfold findDecodable
  rw [(header_withBehind hrec behind).2.2]
  by_cases hzero : encode.getEncodeSize = 0
  · simp only [if_pos hzero]
  · simp only [if_neg hzero, (search_withBehind behind hcodec hin w hzero).1]

theorem findNonDecodable_withBehind :
    findNonDecodable c codec (fun _ => 0) (encode.withBehind behind) w =
      findNonDecodable c codec (fun _ => 0) encode w := by
  obtain ⟨-, hmodel, hsize⟩ := header_withBehind hrec behind
  unfold findNonDecodable
  rw [hmodel, hsize]
  by_cases hzero : encode.getEncodeSize = 0
  · have hbits : 8 < c.perEncodeBitSize := by
      have hk := c.kSize_ne
      unfold Config.perEncodeBitSize
      omega
    simp only [if_pos hzero, isOne_hash_withBehind hrec behind hper hbits]
  · obtain ⟨hfind, hlength⟩ := search_withBehind behind hcodec hin w hzero
    simp only [if_neg hzero, hfind, hlength]
    by_cases hfull : (1 + getEncodeLength (memory encode fun _ => 0) encode.getEncodeSize) * 8 =
        c.perEncodeBitSize
    · simp only [hfull, true_or]
    · have hle := getEncodeLength_comparedIds hsimd (memory encode fun _ => 0) encode.getEncodeSize
      have hlen := hin.resolve_left hzero
      have hbits : (1 + getEncodeLength (memory encode fun _ => 0) encode.getEncodeSize) * 8 <
          c.perEncodeBitSize := by
        unfold IsRecord bitLength at hrec
        omega
      simp only [isOne_hash_withBehind hrec behind hper hbits]

/-- While the compared bytes are in the record, a query does not depend on what follows. -/
theorem testBits_withBehind :
    testBits c codec (fun _ => 0) (encode.withBehind behind) w =
      testBits c codec (fun _ => 0) encode w := by
  rw [testBits, testBits, (header_withBehind hrec behind).1,
    findDecodable_withBehind hrec behind hcodec hin,
    findNonDecodable_withBehind hrec behind hper hcodec hin]

end

end

/-- The bytes of a stored list are counted as they were written. -/
theorem contained_of_stored {ver : Version} {ids : List Nat} {encode : BitSetSIMD}
    (hsize : encode.getEncodeSize = ids.length)
    (hstored : ∀ tail, Stored (memory encode tail) ((codecOf ver).encodeArray ids))
    (hlen : (encodeArray ver ids).length < encode.data.length) : Contained false encode := by
  by_cases hne : ids = []
  · exact Or.inl (by rw [hsize, hne, List.length_nil])
  · right
    rw [length_encodeArray] at hlen
    rw [hsize, show comparedIds false ids.length = ids.length from rfl,
      getEncodeLength_eq (stream_of_stored (hstored _)) hne]
    omega

/-- What `EncodeVertex` of `V0` to `V2` writes is in its record. -/
theorem contained_encodeBits {c : Config} (hc : c.Narrow) (ver : Version) {ids : List Nat}
    (h : NonDecreasing ids) :
    Contained false (encodeBits c ver ids (ofBitSize c.perEncodeBitSize)) := by
  have hlength : (encodeBits c ver ids (ofBitSize c.perEncodeBitSize)).data.length =
      maxBytesLen c + 1 := by
    rw [length_encodeBits, length_of_isRecord (isRecord_ofBitSize c)]
  by_cases hfit : getRequiredBytes ver ids ≤ maxBytesLen c
  · have hrecord := decodableRecord_encodeBits hc ver hfit
    refine contained_of_stored hrecord.size hrecord.stored ?_
    rw [length_encodeArray]
    omega
  · obtain ⟨block, -, hvalid, hrecord⟩ := blockRecord_of_nonDecreasing hc ver h hfit
    refine contained_of_stored hrecord.size hrecord.stored ?_
    have hle : (encodeArray ver (block.inside ids)).length ≤ maxBytesLen c := hvalid.fits
    omega

end DeltaSIMDEncode

/-! ## Section 6: The other encoders -/

section

open BitSetSIMD

variable {c : Config} {encode : BitSetSIMD} (hrec : IsRecord c encode) (behind : List Byte)
include hrec

/-- A field of the record is read from the record. -/
theorem blockGet_withBehind_of_le {start size : Nat} (hsize : 0 < size)
    (hle : start + size ≤ c.perEncodeBitSize) :
    (encode.withBehind behind).blockGet start size = encode.blockGet start size :=
  blockGet_withBehind behind hsize (by rwa [show encode.bitLength = c.perEncodeBitSize from hrec])

theorem isOne_withBehind_of_lt {pos : Nat} (hpos : pos < c.perEncodeBitSize) :
    (encode.withBehind behind).isOne pos = encode.isOne pos :=
  isOne_withBehind behind (by rwa [show encode.bitLength = c.perEncodeBitSize from hrec])

theorem BitHashEncode.isOne_hash_withBehind (w : Nat) :
    (encode.withBehind behind).isOne (hash c w) = encode.isOne (hash c w) := by
  apply isOne_withBehind_of_lt hrec
  apply Nat.mod_lt
  have hk := c.kSize_ne
  unfold Config.perEncodeBitSize
  omega

theorem RangeEncode.word_withBehind {i : Nat} (hi : i < c.kSize) :
    word (encode.withBehind behind) i = word encode i := by
  apply blockGet_withBehind_of_le hrec behind (by decide)
  unfold Config.perEncodeBitSize
  omega

/-- The words behind the flag are all in the record. -/
theorem RangeEncode.testBits_withBehind (hk : 2 ≤ c.kSize) (w : Nat) :
    testBits c (encode.withBehind behind) w = testBits c encode w := by
  have hword : ∀ i < c.kSize, word (encode.withBehind behind) i = word encode i :=
    fun i hi => word_withBehind hrec behind hi
  have hslots : slots c (encode.withBehind behind) = slots c encode := by
    apply List.map_congr_left
    intro i hi
    rw [List.mem_range'_1, maxIntSize] at hi
    exact hword i (by omega)
  simp only [testBits, getFlag, hslots, hword 0 (by omega), hword 1 (by omega),
    hword (maxIntSize c) (by unfold maxIntSize; omega)]
  rfl

/-- The bits of the filter and the slots are all in the record. -/
theorem BloomEncode.testBits_withBehind (hk : 2 ≤ c.kSize) (u w : Nat) :
    testBits c u (encode.withBehind behind) w = testBits c u encode w := by
  have hflag : getFlag (encode.withBehind behind) = getFlag encode := by
    rw [getFlag, getFlag, blockGet_withBehind_of_le hrec behind (by decide)]
    unfold Config.perEncodeBitSize
    omega
  have hslots : slots c (encode.withBehind behind) = slots c encode := by
    apply List.map_congr_left
    intro i hi
    rw [List.mem_range'_1, blockSize] at hi
    apply blockGet_withBehind_of_le hrec behind (by decide)
    unfold Config.perEncodeBitSize
    omega
  have hone : (encode.withBehind behind).isOne (hash c u w) = encode.isOne (hash c u w) := by
    apply isOne_withBehind_of_lt hrec
    have hmod := Nat.mod_lt ((9191891 * u + 6659501 * w) % 2 ^ 64) (show 0 < bitSize c by
      unfold bitSize
      omega)
    have hper : bitSize c + 32 = c.perEncodeBitSize := by
      unfold bitSize Config.perEncodeBitSize
      omega
    unfold hash
    omega
  simp only [testBits, hflag, hslots, hone]

/-- The elements are all in the record. -/
theorem CountEncode.testBits_withBehind (hk : 2 ≤ c.kSize) (hpos : 0 < c.elementSize)
    (hle : c.elementSize ≤ 32) (u w : Nat) :
    testBits c u (encode.withBehind behind) w = testBits c u encode w := by
  have hper : c.perEncodeBitSize = (c.kSize - 1) * 32 + 32 := by
    unfold Config.perEncodeBitSize
    omega
  have hnums : elementNums c * c.elementSize ≤ (c.kSize - 1) * 32 := Nat.div_mul_le_self _ _
  have hflag : getFlag (encode.withBehind behind) = getFlag encode := by
    rw [getFlag, getFlag, blockGet_withBehind_of_le hrec behind (by decide) (by omega)]
  have hfull : ∀ n offset, offset + n * c.elementSize ≤ c.perEncodeBitSize →
      findFull c (encode.withBehind behind) w n offset = findFull c encode w n offset := by
    intro n
    induction n with
    | zero => exact fun _ _ => rfl
    | succ n ih =>
      intro offset hoffset
      rw [Nat.succ_mul] at hoffset
      rw [findFull, findFull, blockGet_withBehind_of_le hrec behind hpos (by omega),
        ih _ (by omega)]
  have hcounter : (encode.withBehind behind).blockGet (hash c u w * c.elementSize) c.elementSize =
      encode.blockGet (hash c u w * c.elementSize) c.elementSize := by
    apply blockGet_withBehind_of_le hrec behind hpos
    have hnums_pos : 0 < elementNums c := Nat.div_pos (by omega) hpos
    have hmod := Nat.mod_lt ((9191891 * u + 6659501 * w) % 2 ^ 64) hnums_pos
    have hmul : hash c u w * c.elementSize ≤ elementNums c * c.elementSize :=
      Nat.mul_le_mul_right _ hmod
    omega
  simp only [testBits, hflag, hfull (elementNums c) 32 (by omega), hcounter]

end

/-! A block may announce more slots than the record has. -/

namespace HybridEncode

open BitSetSIMD

section

variable {c : Config} {encode : BitSetSIMD} (hrec : IsRecord c encode) (behind : List Byte)
include hrec

section

variable {size : Nat} (hsize : 0 < size) (value : Nat)
include hsize

theorem blockFind_withBehind {n start : Nat} (hle : start + n * size ≤ c.perEncodeBitSize) :
    (encode.withBehind behind).blockFind start size n value =
      encode.blockFind start size n value := by
  induction n generalizing start with
  | zero => rfl
  | succ n ih =>
    rw [Nat.succ_mul] at hle
    rw [blockFind, blockFind, blockGet_withBehind_of_le hrec behind hsize (by omega),
      ih (by omega)]

theorem blockFindGroups_withBehind {n start : Nat}
    (hle : start + n * (size * 4) ≤ c.perEncodeBitSize) :
    (encode.withBehind behind).blockFindGroups start size n value =
      encode.blockFindGroups start size n value := by
  induction n generalizing start with
  | zero => rfl
  | succ n ih =>
    rw [Nat.succ_mul] at hle
    have hget : ∀ k < 4, (encode.withBehind behind).blockGet (start + size * k) size =
        encode.blockGet (start + size * k) size := by
      intro k hk
      have hmul : size * k + size ≤ size * 4 := by
        rw [← Nat.mul_succ]
        exact Nat.mul_le_mul_left size hk
      exact blockGet_withBehind_of_le hrec behind hsize (by omega)
    have hget₀ := hget 0 (by decide)
    have hget₁ := hget 1 (by decide)
    rw [Nat.mul_zero, Nat.add_zero] at hget₀
    rw [Nat.mul_one] at hget₁
    rw [blockFindGroups, blockFindGroups, hget₀, hget₁, hget 2 (by decide), hget 3 (by decide),
      ih (by omega)]

theorem blockFindRest_withBehind {n start : Nat} (hle : start + n * size ≤ c.perEncodeBitSize) :
    (encode.withBehind behind).blockFindRest start size n = encode.blockFindRest start size n := by
  have hget : ∀ k < n, (encode.withBehind behind).blockGet (start + size * k) size =
      encode.blockGet (start + size * k) size := by
    intro k hk
    have hmul : size * k + size ≤ n * size := by
      rw [← Nat.mul_succ, Nat.mul_comm]
      exact Nat.mul_le_mul_right size hk
    exact blockGet_withBehind_of_le hrec behind hsize (by omega)
  unfold blockFindRest
  split
  · have hget₀ := hget 0 (by decide)
    rw [Nat.mul_zero, Nat.add_zero] at hget₀
    rw [hget₀]
  · have hget₀ := hget 0 (by decide)
    have hget₁ := hget 1 (by decide)
    rw [Nat.mul_zero, Nat.add_zero] at hget₀
    rw [Nat.mul_one] at hget₁
    rw [hget₀, hget₁]
  · have hget₀ := hget 0 (by decide)
    have hget₁ := hget 1 (by decide)
    rw [Nat.mul_zero, Nat.add_zero] at hget₀
    rw [Nat.mul_one] at hget₁
    rw [hget₀, hget₁, hget 2 (by decide)]
  · rfl

theorem findBlock_withBehind (hsimd : Bool) {n start : Nat}
    (hle : start + n * size ≤ c.perEncodeBitSize) :
    findBlock hsimd (encode.withBehind behind) start size n value =
      findBlock hsimd encode start size n value := by
  cases hsimd with
  | false => exact blockFind_withBehind hrec behind hsize value hle
  | true =>
    -- the groups of four and the rest are the slots of the block
    have hsplit : n * size = n / 4 * (size * 4) + n % 4 * size := by
      have hdiv := Nat.div_add_mod n 4
      calc n * size = (4 * (n / 4) + n % 4) * size := by rw [hdiv]
        _ = n / 4 * (size * 4) + n % 4 * size := by ring
    have hgroups := blockFindGroups_withBehind hrec behind hsize value
      (show start + n / 4 * (size * 4) ≤ c.perEncodeBitSize by omega)
    have hrest := blockFindRest_withBehind hrec behind hsize
      (show start + size * 4 * (n / 4) + n % 4 * size ≤ c.perEncodeBitSize by
        rw [Nat.mul_comm (size * 4)]
        omega)
    simp only [findBlock, if_true, blockFindSIMD, hgroups, hrest]

end

/-- The slots of the block are in the record. A decodable record has no block. -/
def BlockInside (c : Config) (encode : BitSetSIMD) : Prop :=
  encode.isOne 0 = false →
    getBlockNum c encode * c.vertexBitSize + 3 + c.logK ≤ c.perEncodeBitSize

theorem getBlockNum_withBehind (hle : 3 + c.logK ≤ c.perEncodeBitSize) :
    getBlockNum c (encode.withBehind behind) = getBlockNum c encode := by
  have hk := c.kSize_ne
  have hsize : c.perEncodeBitSize = c.kSize * 32 := rfl
  have hlen : encode.bitLength = c.perEncodeBitSize := hrec
  unfold bitLength at hlen
  unfold getBlockNum
  rw [blockGet_congr (fun i hi => byte_withBehind behind (by omega)) (by omega)]

/-- The bounds are the first slot of the block and its last one. -/
theorem blockRange_withBehind (hbits : 0 < c.vertexBitSize)
    (hle : getBlockNum c encode * c.vertexBitSize + 3 + c.logK ≤ c.perEncodeBitSize) :
    blockRange c (encode.withBehind behind) = blockRange c encode := by
  have hk := c.kSize_ne
  have hsize : c.perEncodeBitSize = c.kSize * 32 := rfl
  have hmodel : getBlockModel (encode.withBehind behind) = getBlockModel encode := by
    rw [getBlockModel, getBlockModel, isOne_withBehind_of_lt hrec behind (by omega),
      isOne_withBehind_of_lt hrec behind (by omega)]
  have hslot : ∀ k < getBlockNum c encode,
      (encode.withBehind behind).blockGet (3 + c.logK + k * c.vertexBitSize) c.vertexBitSize =
        encode.blockGet (3 + c.logK + k * c.vertexBitSize) c.vertexBitSize := by
    intro k hk
    have hmul : k * c.vertexBitSize + c.vertexBitSize ≤
        getBlockNum c encode * c.vertexBitSize := by
      rw [← Nat.succ_mul]
      exact Nat.mul_le_mul_right _ hk
    exact blockGet_withBehind_of_le hrec behind hbits (by omega)
  simp only [blockRange, getBlockNum_withBehind hrec behind (by omega), hmodel]
  rcases Nat.eq_zero_or_pos (getBlockNum c encode) with hzero | hpos
  · simp only [if_pos hzero]
  · have hfirst := hslot 0 hpos
    rw [Nat.zero_mul, Nat.add_zero] at hfirst
    rw [hfirst, hslot (getBlockNum c encode - 1) (by omega)]

theorem testBits_withBehind (hper : c.perEncodeBitSize < 2 ^ 32) (hbits : 0 < c.vertexBitSize)
    (hin : BlockInside c encode) (hsimd : Bool) (w : Nat) :
    testBits c hsimd (encode.withBehind behind) w = testBits c hsimd encode w := by
  have hflag := isOne_withBehind_of_lt hrec behind
    (Nat.lt_of_lt_of_le (by decide) c.perEncodeBitSize_ge : 0 < c.perEncodeBitSize)
  unfold testBits
  rw [hflag]
  cases hone : encode.isOne 0 with
  | true =>
    have hslots : c.maxKCoreSize * c.vertexBitSize ≤ c.perEncodeBitSize - 1 :=
      Nat.div_mul_le_self _ _
    have hge := c.perEncodeBitSize_ge
    rw [if_pos rfl, if_pos rfl]
    exact findBlock_withBehind hrec behind hbits w hsimd (by omega)
  | false =>
    have hle := hin hone
    have hhash : getBlockNum c encode * c.vertexBitSize + 3 + c.logK = c.perEncodeBitSize ∨
        (encode.withBehind behind).isOne
            (hash c w (getBlockNum c encode * c.vertexBitSize + 3 + c.logK)) =
          encode.isOne (hash c w (getBlockNum c encode * c.vertexBitSize + 3 + c.logK)) := by
      rcases Nat.eq_or_lt_of_le hle with hfull | hlt
      · exact Or.inl hfull
      · right
        apply isOne_withBehind_of_lt hrec
        rw [hash, sub32_of_le hle hper]
        have hmod := Nat.mod_lt w (Nat.sub_pos_of_lt hlt)
        omega
    have hblock := findBlock_withBehind hrec behind hbits w hsimd
      (show c.blockBeginIndex + getBlockNum c encode * c.vertexBitSize ≤ c.perEncodeBitSize by
        unfold Config.blockBeginIndex
        omega)
    simp only [if_neg Bool.false_ne_true, getBlockNum_withBehind hrec behind (by omega),
      blockRange_withBehind hrec behind hbits hle, hblock]
    rcases hhash with hfull | hbit
    · simp only [hfull, true_or]
    · simp only [hbit]

end

end HybridEncode

/-! The codecs of the range encoder with compression check their accesses. -/

namespace RangeCompEncode

open BitSetSIMD

section

variable {c : Config} {encode : BitSetSIMD} (hrec : IsRecord c encode) (behind : List Byte)

include hrec

theorem getFlag_withBehind : getFlag (encode.withBehind behind) = getFlag encode := by
  have hk := c.kSize_ne
  rw [getFlag, getFlag, blockGet_withBehind_of_le hrec behind (by decide)]
  unfold shift Config.perEncodeBitSize
  omega

/-- The first two fields are in the record, and the loop stops in front of its end. -/
theorem BitsComp.find_withBehind (hbits : 0 < c.vertexBitSize)
    (hle : shift + c.vertexBitSize + c.vertexBitSize ≤ c.perEncodeBitSize) (w : Nat)
    (notPartial : Bool) :
    BitsComp.find c w (encode.withBehind behind) shift notPartial =
      BitsComp.find c w encode shift notPartial := by
  have hloop : ∀ rounds start, BitsComp.findLoop c (encode.withBehind behind) w rounds start =
      BitsComp.findLoop c encode w rounds start := by
    intro rounds
    induction rounds with
    | zero => exact fun _ => rfl
    | succ rounds ih =>
      intro start
      rw [BitsComp.findLoop, BitsComp.findLoop, ih]
      split
      next hlt => rw [blockGet_withBehind_of_le hrec behind hbits (Nat.le_of_lt hlt)]
      next => rfl
  simp only [BitsComp.find, hloop, blockGet_withBehind_of_le hrec behind hbits hle,
    blockGet_withBehind_of_le hrec behind hbits (show shift + c.vertexBitSize ≤ _ by omega)]

omit hrec in
/-- A number that is decoded does not change when bytes are appended. -/
theorem decodeLoop_append {ptr : List Byte} {res len : Nat} {out : Nat × Nat × List Byte}
    (h : VbyteComp.decodeLoop res len ptr = some out) :
    VbyteComp.decodeLoop res len (ptr ++ behind) = some (out.1, out.2.1, out.2.2 ++ behind) := by
  induction ptr generalizing res len with
  | nil => exact absurd h (by simp [VbyteComp.decodeLoop])
  | cons b ptr ih =>
    rw [VbyteComp.decodeLoop] at h
    rw [List.cons_append, VbyteComp.decodeLoop]
    split_ifs at h ⊢ with hlast
    · cases h
      rfl
    · exact ih h

omit hrec in
theorem findLoop_append {next : Nat → Nat → Nat} {w rounds pre len : Nat} {ptr : List Byte}
    {type : PairType} (h : VbyteComp.findLoop c next w rounds pre len ptr = some type) :
    VbyteComp.findLoop c next w rounds pre len (ptr ++ behind) = some type := by
  induction rounds generalizing pre len ptr with
  | zero => exact absurd h (by simp [VbyteComp.findLoop])
  | succ rounds ih =>
    rw [VbyteComp.findLoop] at h ⊢
    split_ifs at h ⊢ with hlen
    · obtain ⟨out, hout, hrest⟩ := Option.bind_eq_some_iff.mp h
      rw [VbyteComp.decode, decodeLoop_append behind hout, Option.bind_some]
      dsimp only at hrest ⊢
      split_ifs at hrest ⊢
      · exact hrest
      · exact hrest
      · exact ih hrest
    · exact h

/-- A search of bytes that ends inside the record does not change when bytes follow. -/
theorem findWith_withBehind {next : Nat → Nat → Nat} {w : Nat} {notPartial : Bool}
    {type : PairType} (h : VbyteComp.findWith c next w encode shift notPartial = some type) :
    VbyteComp.findWith c next w (encode.withBehind behind) shift notPartial = some type := by
  have hlen : shift / 8 ≤ encode.data.length := by
    have hk := c.kSize_ne
    unfold IsRecord bitLength Config.perEncodeBitSize at hrec
    unfold shift
    omega
  have hdrop : (encode.withBehind behind).data.drop (shift / 8) =
      encode.data.drop (shift / 8) ++ behind := List.drop_append_of_le_length hlen
  rw [VbyteComp.findWith] at h ⊢
  rw [hdrop]
  cases notPartial with
  | true => exact findLoop_append behind h
  | false =>
    obtain ⟨min, hmin, h⟩ := Option.bind_eq_some_iff.mp h
    obtain ⟨max, hmax, h⟩ := Option.bind_eq_some_iff.mp h
    rw [if_neg Bool.false_ne_true, VbyteComp.decode, decodeLoop_append behind hmin,
      Option.bind_some]
    dsimp only
    rw [VbyteComp.decode, decodeLoop_append behind hmax, Option.bind_some]
    dsimp only at h ⊢
    split_ifs at h ⊢
    · exact h
    · exact h
    · exact findLoop_append behind h

/-- The search of a record does not leave it. -/
def FindsInside (c : Config) (encode : BitSetSIMD) (w : Nat) : CompMethod → Prop
  | .bits => 0 < c.vertexBitSize ∧
    shift + c.vertexBitSize + c.vertexBitSize ≤ c.perEncodeBitSize
  | .vbyte => (testBitsAt (VbyteComp.codec c) encode w).isSome = true
  | .delta => (testBitsAt (VbyteDeltaComp.codec c) encode w).isSome = true

theorem testBitsAt_withBehind {method : CompMethod} {w : Nat}
    (hin : FindsInside c encode w method) :
    testBitsAt (codec c method) (encode.withBehind behind) w =
      testBitsAt (codec c method) encode w := by
  have hflag := getFlag_withBehind hrec behind
  cases method with
  | bits =>
    simp only [FindsInside] at hin
    simp only [testBitsAt, hflag, codec, BitsComp.codec]
    exact BitsComp.find_withBehind hrec behind hin.1 hin.2 w _
  | vbyte =>
    simp only [FindsInside, testBitsAt, VbyteComp.codec] at hin
    obtain ⟨type, htype⟩ := Option.isSome_iff_exists.mp hin
    simp only [testBitsAt, hflag, codec, VbyteComp.codec, htype]
    exact findWith_withBehind hrec behind htype
  | delta =>
    simp only [FindsInside, testBitsAt, VbyteDeltaComp.codec] at hin
    obtain ⟨type, htype⟩ := Option.isSome_iff_exists.mp hin
    simp only [testBitsAt, hflag, codec, VbyteDeltaComp.codec, htype]
    exact findWith_withBehind hrec behind htype

end

end RangeCompEncode

end Vend
