import Vend.Encode.HybridUpdate
import Vend.Encode.HybridVerdict

/-! # The integer slots of `HybridEncode`

    `GetBlockInteger` reads the ids of a record back, and `GetEncodeType` tells whether the
    slots of a decodable record are used up. The slots begin behind the flag bit, but both
    functions count from the end of the record:

    * the loop of `GetBlockInteger` goes on while
      `index <= PER_ENCODE_BIT_SIZE - v_bits_size_ + 1`. When `VERTEX_BIT_SIZE` divides the size
      of the record, this is one slot more than there are, and it ends behind the record;
    * `IsFull` tests the last `VERTEX_BIT_SIZE` bits. They hold the low bits of the last slot
      and the bits that are left over behind it.

    For which lists the slots are read back all the same is `decodesBack_iff`, and for which
    configurations all lists that fit are is `decodesBack_forall_iff`.
-/

namespace Vend

open BitField BitSetSIMD

namespace HybridEncode

/-! ## Section 1: Model -/

/-- The loops of `GetBlockInteger` from slot `index` on. In a decodable record an empty slot
    ends the list. There is no result when a slot is not all in the record. -/
def readSlots (c : Config) (encode : BitSetSIMD) (upper : Nat) (decodable : Bool) :
    Nat → Nat → Option (List Nat)
  | 0, _ => none
  | fuel + 1, index =>
    if index < upper then
      (encode.blockGetAt index c.vertexBitSize).bind fun neighbor =>
        if decodable && neighbor == 0 then some []
        else (readSlots c encode upper decodable fuel (index + c.vertexBitSize)).map
          (neighbor :: ·)
    else some []

/-- `GetBlockSize(vertex)`. -/
def getBlockSize (c : Config) (encodes : Records) (vertex : Nat) : Nat :=
  (encodes.record vertex).blockGet 3 c.logK

/-- `GetBlockInteger(vertex)`. A record has no more slots than bits. -/
def getBlockInteger (c : Config) (encodes : Records) (vertex : Nat) : Option (List Nat) :=
  let encode := encodes.record vertex
  let fuel := c.perEncodeBitSize + 1
  if isDecodable encodes vertex then
    -- `index <= PER_ENCODE_BIT_SIZE - v_bits_size_ + 1`
    readSlots c encode (c.perEncodeBitSize - c.vertexBitSize + 2) true fuel 1
  else
    readSlots c encode (3 + c.logK + getBlockSize c encodes vertex * c.vertexBitSize) false fuel
      (3 + c.logK)

/-! ## Section 2: The loop over the slots -/

section Loop

variable {c : Config} {encode : BitSetSIMD} {upper : Nat} {decodable : Bool}

/-- The loop passes over the slots of a list and adds them to what it reads behind them. -/
theorem readSlots_append {ids : List Nat} (hne : ∀ id ∈ ids, id ≠ 0) (fuel : Nat) {index : Nat}
    (hslots : ∀ i (hi : i < ids.length),
      encode.blockGet (index + i * c.vertexBitSize) c.vertexBitSize = ids[i])
    (hin : index + ids.length * c.vertexBitSize ≤ encode.bitLength)
    (hupper : ∀ i < ids.length, index + i * c.vertexBitSize < upper) :
    readSlots c encode upper decodable (ids.length + fuel) index =
      (readSlots c encode upper decodable fuel (index + ids.length * c.vertexBitSize)).map
        (ids ++ ·) := by
  induction ids generalizing index with
  | nil => simp
  | cons id ids ih =>
    have hshift : ∀ i, index + (i + 1) * c.vertexBitSize =
        index + c.vertexBitSize + i * c.vertexBitSize := by intro i; ring
    have hid : id ≠ 0 := hne id List.mem_cons_self
    rw [List.length_cons, hshift] at hin
    have hfirst := hslots 0 (by simp)
    have hlt := hupper 0 (by simp)
    rw [Nat.zero_mul, Nat.add_zero] at hfirst hlt
    have hget : encode.blockGetAt index c.vertexBitSize = some id := by
      rw [blockGetAt, if_pos (by omega), hfirst]
      rfl
    have hslots' : ∀ i (hi : i < ids.length), encode.blockGet
        (index + c.vertexBitSize + i * c.vertexBitSize) c.vertexBitSize = ids[i] := by
      intro i hi
      rw [← hshift, hslots (i + 1) (by simpa using hi)]
      rfl
    have hupper' : ∀ i < ids.length,
        index + c.vertexBitSize + i * c.vertexBitSize < upper := by
      intro i hi
      rw [← hshift]
      exact hupper (i + 1) (by simpa using hi)
    have hrest := ih (fun id' h => hne id' (List.mem_cons_of_mem _ h)) hslots' hin hupper'
    rw [List.length_cons, Nat.add_right_comm, readSlots, if_pos hlt, hget, Option.bind_some,
      if_neg (by simp [hid]), hrest, hshift, Option.map_map]
    rfl

/-- With enough rounds for the list, one more is left behind it. -/
theorem exists_readSlots {ids : List Nat} (hne : ∀ id ∈ ids, id ≠ 0) {fuel index : Nat}
    (hfuel : ids.length < fuel)
    (hslots : ∀ i (hi : i < ids.length),
      encode.blockGet (index + i * c.vertexBitSize) c.vertexBitSize = ids[i])
    (hin : index + ids.length * c.vertexBitSize ≤ encode.bitLength)
    (hupper : ∀ i < ids.length, index + i * c.vertexBitSize < upper) :
    ∃ rest, readSlots c encode upper decodable fuel index =
      (readSlots c encode upper decodable (rest + 1) (index + ids.length * c.vertexBitSize)).map
        (ids ++ ·) := by
  obtain ⟨rest, rfl⟩ := Nat.exists_eq_add_of_lt hfuel
  exact ⟨rest, readSlots_append hne (rest + 1) hslots hin hupper⟩

theorem readSlots_of_le (fuel : Nat) {index : Nat} (hle : upper ≤ index) :
    readSlots c encode upper decodable (fuel + 1) index = some [] := by
  rw [readSlots, if_neg (by omega)]

theorem readSlots_of_empty (fuel : Nat) {index : Nat} (hlt : index < upper)
    (hin : index + c.vertexBitSize ≤ encode.bitLength)
    (hslot : encode.blockGet index c.vertexBitSize = 0) :
    readSlots c encode upper true (fuel + 1) index = some [] := by
  rw [readSlots, if_pos hlt, blockGetAt, if_pos hin, hslot]
  rfl

theorem readSlots_of_behind (fuel : Nat) {index : Nat} (hlt : index < upper)
    (hout : encode.bitLength < index + c.vertexBitSize) :
    readSlots c encode upper decodable (fuel + 1) index = none := by
  rw [readSlots, if_pos hlt, blockGetAt, if_neg (by omega)]
  rfl

end Loop

/-! ## Section 3: A list that fits -/

/-- The bits of the last slot that `IsFull` tests. -/
def testedBits (c : Config) : Nat :=
  c.vertexBitSize - (c.perEncodeBitSize - 1) % c.vertexBitSize

section Packed

variable {c : Config} (hc : c.Packed)
include hc

/-- No shorter field holds every id. -/
theorem two_pow_pred_lt : 2 ^ (c.vertexBitSize - 1) < c.vertexSize := by
  have hpos := hc.vertexBitSize_pos
  apply Nat.pow_pred_clog_lt_self (by decide)
  by_contra hle
  have hzero : c.vertexBitSize = 0 := Nat.clog_of_right_le_one (Nat.le_of_not_lt hle) 2
  omega

/-- A field has two bits: ids of one bit would only be 0 and 1. -/
theorem two_le_vertexBitSize : 2 ≤ c.vertexBitSize := by
  have hpos := hc.vertexBitSize_pos
  have hpred := two_pow_pred_lt hc
  have hlt := hc.vertexSize_lt
  by_contra hle
  rw [show c.vertexBitSize = 1 by omega] at hpred hlt
  omega

/-- With the flag bit and one more slot the record would be too small. -/
theorem le_succ_slots : c.perEncodeBitSize ≤ (c.maxKCoreSize + 1) * c.vertexBitSize := by
  have hper := c.perEncodeBitSize_ge
  have hlt := Nat.lt_mul_div_succ (c.perEncodeBitSize - 1) hc.vertexBitSize_pos
  rw [Nat.mul_comm] at hlt
  unfold Config.maxKCoreSize
  omega

/-- There is room for one more slot between the slots and the end of the record only when the
    flag bit is counted in. -/
theorem dvd_iff_succ_slots : c.vertexBitSize ∣ c.perEncodeBitSize ↔
    (c.maxKCoreSize + 1) * c.vertexBitSize ≤ c.perEncodeBitSize := by
  have hslots := c.slots_le
  have hover := le_succ_slots hc
  constructor
  · rintro ⟨n, hn⟩
    rw [hn, Nat.mul_comm] at hslots ⊢
    -- the next multiple behind the slots is the size of the record
    have hlt : c.maxKCoreSize < n := by
      by_contra hge
      have hmul := Nat.mul_le_mul_left c.vertexBitSize (Nat.le_of_not_lt hge)
      omega
    exact Nat.mul_le_mul_left _ hlt
  · intro hle
    exact ⟨c.maxKCoreSize + 1, by rw [Nat.mul_comm]; omega⟩

variable {ids : List Nat} {encode : BitSetSIMD}

/-- The loop of `GetBlockInteger` begins with the list, and goes on behind it. -/
theorem FullRecord.readSlots_front (h : FullRecord c ids (ofBitSize c.perEncodeBitSize) encode)
    (hids : IdList c ids) :
    ∃ rest, readSlots c encode (c.perEncodeBitSize - c.vertexBitSize + 2) true
        (c.perEncodeBitSize + 1) 1 =
      (readSlots c encode (c.perEncodeBitSize - c.vertexBitSize + 2) true (rest + 1)
        (1 + ids.length * c.vertexBitSize)).map (ids ++ ·) := by
  have hslots := c.slots_le
  have hfit := h.length_le
  have hrec := h.isRecord
  unfold IsRecord at hrec
  have hmul : ∀ i ≤ c.maxKCoreSize, i * c.vertexBitSize ≤ c.maxKCoreSize * c.vertexBitSize :=
    fun i hi => Nat.mul_le_mul_right _ hi
  have hlen := hmul ids.length hfit
  have hrounds : ids.length ≤ ids.length * c.vertexBitSize :=
    Nat.le_mul_of_pos_right _ hc.vertexBitSize_pos
  have hin : 1 + ids.length * c.vertexBitSize ≤ encode.bitLength := by omega
  have hupper : ∀ i < ids.length,
      1 + i * c.vertexBitSize < c.perEncodeBitSize - c.vertexBitSize + 2 := by
    intro i hi
    have hnext := hmul (i + 1) (by omega)
    rw [Nat.succ_mul] at hnext
    omega
  exact exists_readSlots (fun id hid => Nat.ne_zero_of_lt (hids id hid).1) (by omega) h.slots hin
    hupper

/-- A record that was cleared before is read back unless the loop goes on behind its end. -/
theorem FullRecord.readSlots_eq (h : FullRecord c ids (ofBitSize c.perEncodeBitSize) encode)
    (hids : IdList c ids) :
    readSlots c encode (c.perEncodeBitSize - c.vertexBitSize + 2) true (c.perEncodeBitSize + 1) 1 =
      if ids.length = c.maxKCoreSize ∧ c.vertexBitSize ∣ c.perEncodeBitSize then none
      else some ids := by
  have hle := hc.header_le
  have hslots := c.slots_le
  have hrec := h.isRecord
  unfold IsRecord at hrec
  obtain ⟨rest, hfront⟩ := h.readSlots_front hc hids
  rw [hfront]
  rcases Nat.lt_or_eq_of_le h.length_le with hlt | hall
  · -- the slot behind the list is empty
    have hnext : (ids.length + 1) * c.vertexBitSize ≤ c.maxKCoreSize * c.vertexBitSize :=
      Nat.mul_le_mul_right _ hlt
    rw [Nat.succ_mul] at hnext
    have hempty : encode.blockGet (1 + ids.length * c.vertexBitSize) c.vertexBitSize = 0 := by
      have hrest := h.rest ids.length (Nat.le_refl _) hlt
      rw [slot, slot, blockGet_ofBitSize] at hrest
      exact hrest
    rw [readSlots_of_empty _ (by omega) (by omega) hempty, if_neg (by omega), Option.map_some,
      List.append_nil]
  · -- all slots are used, and the loop ends when the next one would begin too late
    have hdvd := dvd_iff_succ_slots hc
    have hover := le_succ_slots hc
    rw [Nat.succ_mul] at hdvd hover
    rw [hall]
    by_cases hone : c.vertexBitSize ∣ c.perEncodeBitSize
    · have hroom := hdvd.mp hone
      rw [readSlots_of_behind _ (by omega) (by omega), if_pos ⟨rfl, hone⟩, Option.map_none]
    · have hroom := mt hdvd.mpr hone
      rw [readSlots_of_le _ (by omega), if_neg (fun h => hone h.2), Option.map_some,
        List.append_nil]

/-- Nothing is written behind the list. -/
theorem bit_encodeBits_behind (hids : IdList c ids) (hfit : ids.length ≤ c.maxKCoreSize) {p : Nat}
    (hp : 1 + ids.length * c.vertexBitSize ≤ p) :
    (encodeBits c ids (ofBitSize c.perEncodeBitSize)).bit p = false := by
  have hper := c.perEncodeBitSize_ge
  have hslots := c.slots_le
  have hlen : ids.length * c.vertexBitSize ≤ c.maxKCoreSize * c.vertexBitSize :=
    Nat.mul_le_mul_right _ hfit
  have hfresh := isRecord_ofBitSize c
  have hrec : IsRecord c ((ofBitSize c.perEncodeBitSize).setOne 0) := by
    simpa [IsRecord, bitLength] using hfresh
  have hbit : 0 < (ofBitSize c.perEncodeBitSize).bitLength := by
    unfold IsRecord at hfresh
    omega
  obtain ⟨-, hrest⟩ := bit_setSlots hc _ hrec 1 hids (by omega)
  rw [encodeBits, if_pos hfit, hrest p (Or.inr hp), bit_setOne _ hbit, bit_ofBitSize]
  simp
  omega

/-- `IsFull` tests a part of the last slot, in front of bits that are never written. -/
theorem field_last_eq (hids : IdList c ids) (hall : ids.length = c.maxKCoreSize) :
    field (encodeBits c ids (ofBitSize c.perEncodeBitSize)).bit
        (c.perEncodeBitSize - c.vertexBitSize) c.vertexBitSize =
      ids.getD (ids.length - 1) 0 % 2 ^ testedBits c *
        2 ^ ((c.perEncodeBitSize - 1) % c.vertexBitSize) := by
  have hpos := hc.vertexBitSize_pos
  have hper := c.perEncodeBitSize_ge
  have hsome := Nat.le_trans hc.maxIntegerSize_pos c.maxIntegerSize_le
  have hleft : (c.perEncodeBitSize - 1) % c.vertexBitSize < c.vertexBitSize := Nat.mod_lt _ hpos
  have hdiv : (c.maxKCoreSize - 1) * c.vertexBitSize + c.vertexBitSize +
      (c.perEncodeBitSize - 1) % c.vertexBitSize = c.perEncodeBitSize - 1 := by
    rw [← Nat.succ_mul, Nat.succ_eq_add_one, Nat.sub_add_cancel hsome, Nat.mul_comm]
    exact Nat.div_add_mod _ _
  have hfull := fullRecord_encodeBits hc (isRecord_ofBitSize c) hids (Nat.le_of_eq hall)
  have hslot := hfull.slots (ids.length - 1) (by omega)
  have hbehind := fun p => bit_encodeBits_behind hc hids (Nat.le_of_eq hall) (p := p)
  rw [slot, blockGet_eq _ hpos c.vertexBitSize_le] at hslot
  rw [List.getD_eq_getElem _ _ (by omega), ← hslot]
  rw [hall, ← Nat.sub_add_cancel hsome, Nat.succ_mul] at hbehind
  unfold testedBits
  generalize (c.perEncodeBitSize - 1) % c.vertexBitSize = left at hleft hdiv ⊢
  -- the field is the low part of the slot, and `left` bits behind it
  have hsplit := field_add (encodeBits c ids (ofBitSize c.perEncodeBitSize)).bit
    (c.perEncodeBitSize - c.vertexBitSize) (c.vertexBitSize - left) left
  have hlow := field_low (encodeBits c ids (ofBitSize c.perEncodeBitSize)).bit
    (1 + (ids.length - 1) * c.vertexBitSize) left (c.vertexBitSize - left)
  have hzero : field (encodeBits c ids (ofBitSize c.perEncodeBitSize)).bit
      (c.perEncodeBitSize - c.vertexBitSize + (c.vertexBitSize - left)) left = 0 :=
    field_eq_zero fun p hp _ => hbehind p (by omega)
  rw [Nat.sub_add_cancel (Nat.le_of_lt hleft)] at hsplit
  rw [Nat.add_sub_cancel' (Nat.le_of_lt hleft)] at hlow
  rw [hsplit, hzero, Nat.add_zero, ← hlow, hall]
  congr 3
  omega

/-- `IsFull` of a record that was cleared before. -/
theorem blockGet_last_ne_iff (hids : IdList c ids) (hfit : ids.length ≤ c.maxKCoreSize) :
    (encodeBits c ids (ofBitSize c.perEncodeBitSize)).blockGet
        (c.perEncodeBitSize - c.vertexBitSize) c.vertexBitSize ≠ 0 ↔
      ids.length = c.maxKCoreSize ∧ ¬ 2 ^ testedBits c ∣ ids.getD (ids.length - 1) 0 := by
  rw [blockGet_eq _ hc.vertexBitSize_pos c.vertexBitSize_le]
  rcases Nat.lt_or_eq_of_le hfit with hlt | hall
  · -- an empty slot is at the end
    have hnext : (ids.length + 1) * c.vertexBitSize ≤ c.maxKCoreSize * c.vertexBitSize :=
      Nat.mul_le_mul_right _ hlt
    have hslots := c.slots_le
    rw [Nat.succ_mul] at hnext
    have hzero : field (encodeBits c ids (ofBitSize c.perEncodeBitSize)).bit
        (c.perEncodeBitSize - c.vertexBitSize) c.vertexBitSize = 0 :=
      field_eq_zero fun p hp _ => bit_encodeBits_behind hc hids hfit (by omega)
    exact iff_of_false (fun h => h hzero) (fun h => by omega)
  · rw [field_last_eq hc hids hall, Nat.dvd_iff_mod_eq_zero]
    have hpow := Nat.two_pow_pos ((c.perEncodeBitSize - 1) % c.vertexBitSize)
    rw [Nat.mul_ne_zero_iff]
    exact ⟨fun h => ⟨hall, h.1⟩, fun h => ⟨h.2, Nat.ne_of_gt hpow⟩⟩

/-! ## Section 4: A list that does not fit -/

/-- The size field is shorter than a `uint16_t`. -/
theorem logK_le_sixteen : c.logK ≤ 16 := by
  have hmax := hc.maxKCoreSize_lt
  exact (Nat.clog_le_iff_le_pow (by decide)).mpr (by omega)

/-- `GetBlockInteger` reads the block of an undecodable record, and `GetBlockSize` its length. -/
theorem BlockRecord.readSlots_eq {type : BlockType} {block left : List Nat}
    (h : BlockRecord c block left type encode) (hids : IdList c block)
    (hlen : block.length ≤ c.maxIntegerSize) :
    encode.blockGet 3 c.logK = block.length ∧
    readSlots c encode (3 + c.logK + block.length * c.vertexBitSize) false
      (c.perEncodeBitSize + 1) (3 + c.logK) = some block := by
  have hpos := hc.vertexBitSize_pos
  have hblock := hc.block_le_of_le hlen
  have hrounds : block.length ≤ block.length * c.vertexBitSize := Nat.le_mul_of_pos_right _ hpos
  have hrec := h.isRecord
  unfold IsRecord at hrec
  constructor
  · have hnum := h.num
    have hlt := field_lt encode.bit 3 c.logK
    have hpow : 2 ^ c.logK ≤ 2 ^ 16 := Nat.pow_le_pow_right (by decide) (logK_le_sixteen hc)
    rw [getBlockNum, blockGet_eq _ hc.logK_pos hc.logK_le, Nat.mod_eq_of_lt (by omega)] at hnum
    rw [blockGet_eq _ hc.logK_pos hc.logK_le, hnum]
  · have hin : 3 + c.logK + block.length * c.vertexBitSize ≤ encode.bitLength := by omega
    have hupper : ∀ i < block.length, 3 + c.logK + i * c.vertexBitSize <
        3 + c.logK + block.length * c.vertexBitSize :=
      fun i hi => Nat.add_lt_add_left (Nat.mul_lt_mul_of_pos_right hi hpos) _
    have hfuel : block.length < c.perEncodeBitSize + 1 := by omega
    obtain ⟨rest, hfront⟩ := exists_readSlots (fun id hid => Nat.ne_zero_of_lt (hids id hid).1)
      hfuel h.slots hin hupper
    unfold Config.blockBeginIndex at hfront
    rw [hfront, readSlots_of_le _ (Nat.le_refl _), Option.map_some, List.append_nil]

end Packed

/-! ## Section 5: What is read back -/

/-- The vertex can be encoded from the list on cleared records. A list that fits is read back,
    and the record counts as full when it uses all slots; of another list a run of
    `GetBlockSize` ids is read back. -/
def DecodesBack (c : Config) (v : Nat) (ids : List Nat) : Prop :=
  ∃ encodes, encodeVertexAt c v ids (Records.constructed c) = some encodes ∧
    (ids.length ≤ c.maxKCoreSize → getBlockInteger c encodes v = some ids ∧
      getEncodeType c encodes v = if ids.length = c.maxKCoreSize then .full else .unFull) ∧
    (c.maxKCoreSize < ids.length → ∃ block, getBlockInteger c encodes v = some block ∧
      block <:+: ids ∧ block.length = getBlockSize c encodes v)

/-- The list leaves a slot empty, or the loop ends with the last slot and the part of it that
    `IsFull` tests is not zero. -/
def LinesUp (c : Config) (ids : List Nat) : Prop :=
  ids.length < c.maxKCoreSize ∨ ids.length = c.maxKCoreSize ∧
    ¬ c.vertexBitSize ∣ c.perEncodeBitSize ∧ ¬ 2 ^ testedBits c ∣ ids.getD (ids.length - 1) 0

section Encoded

variable {c : Config} (hc : c.Packed) {v : Nat} (hle : v ≤ c.vertexSize) {ids : List Nat}
variable (hids : IdList c ids)
include hc hle hids

theorem getBlockInteger_of_fits (hfit : ids.length ≤ c.maxKCoreSize) :
    getBlockInteger c (encodeVertex c v ids (Records.fresh c)) v =
      if ids.length = c.maxKCoreSize ∧ c.vertexBitSize ∣ c.perEncodeBitSize then none
      else some ids := by
  have hfull := fullRecord_encodeBits hc (isRecord_ofBitSize c) hids hfit
  simp only [getBlockInteger, isDecodable, record_encodeVertex_fresh hle, hfull.flag, if_true]
  exact hfull.readSlots_eq hc hids

theorem getEncodeType_of_fits (hfit : ids.length ≤ c.maxKCoreSize) :
    getEncodeType c (encodeVertex c v ids (Records.fresh c)) v =
      if ids.length = c.maxKCoreSize ∧ ¬ 2 ^ testedBits c ∣ ids.getD (ids.length - 1) 0 then .full
      else .unFull := by
  have hfull := fullRecord_encodeBits hc (isRecord_ofBitSize c) hids hfit
  simp only [getEncodeType, isFull, isDecodable, record_encodeVertex_fresh hle, hfull.flag,
    blockGet_last_ne_iff hc hids hfit, decide_eq_true_eq]
  rfl

/-- A list that fits. -/
theorem decodesBack_of_fits_iff (hfit : ids.length ≤ c.maxKCoreSize) :
    DecodesBack c v ids ↔ c.vertexSize + 1 < 2 ^ 32 ∧ LinesUp c ids := by
  have hmax := hc.maxKCoreSize_lt
  have henc : c.vertexSize + 1 < 2 ^ 32 → encodeVertexAt c v ids (Records.constructed c) =
      some (encodeVertex c v ids (Records.fresh c)) :=
    fun hv => encodeVertexAt_constructed hv hle (by omega)
  have hread := getBlockInteger_of_fits hc hle hids hfit
  have htype := getEncodeType_of_fits hc hle hids hfit
  constructor
  · rintro ⟨encodes, henc', hback, -⟩
    have hv := vertexSize_lt_of_encodeVertexAt henc'
    rw [henc hv, Option.some_inj] at henc'
    subst henc'
    obtain ⟨hsame, hfull⟩ := hback hfit
    rw [hread] at hsame
    rw [htype] at hfull
    refine ⟨hv, (Nat.lt_or_eq_of_le hfit).imp_right fun hall => ⟨hall, fun hdvd => ?_, ?_⟩⟩
    · rw [if_pos ⟨hall, hdvd⟩] at hsame
      cases hsame
    · intro hzero
      rw [if_pos hall, if_neg fun h => h.2 hzero] at hfull
      cases hfull
  · rintro ⟨hv, hlines⟩
    refine ⟨_, henc hv, fun _ => ?_, fun hlong => absurd hfit (Nat.not_le_of_lt hlong)⟩
    rw [hread, htype]
    rcases hlines with hless | ⟨hall, hnot, htest⟩
    · have hne : ids.length ≠ c.maxKCoreSize := Nat.ne_of_lt hless
      rw [if_neg fun h => hne h.1, if_neg fun h => hne h.1, if_neg hne]
      exact ⟨rfl, rfl⟩
    · rw [if_neg fun h => hnot h.2, if_pos ⟨hall, htest⟩, if_pos hall]
      exact ⟨rfl, rfl⟩

/-- Of a list that does not fit the chosen block is read back. -/
theorem decodesBack_of_long (hv : c.vertexSize + 1 < 2 ^ 32) (hlong : c.maxKCoreSize < ids.length)
    (hlen : ids.length < 2 ^ 31) : DecodesBack c v ids := by
  refine ⟨_, encodeVertexAt_constructed hv hle hlen,
    fun hfit => absurd hfit (Nat.not_le_of_lt hlong), fun _ => ?_⟩
  obtain ⟨type, before, block, after, hsplit, hcand, hblock⟩ :=
    holdsCandidate_encodeBits hc hids (by omega) hv hlong (isRecord_ofBitSize c)
  have hmem : IdList c block := fun id hid => hids id (by simp [hsplit, hid])
  obtain ⟨hsize, hread⟩ := hblock.readSlots_eq hc hmem hcand.length_le
  have hrecord := record_encodeVertex_fresh hle ids
  refine ⟨block, ?_, ⟨before, after, hsplit.symm⟩, ?_⟩
  · simp only [getBlockInteger, getBlockSize, isDecodable, hrecord, hblock.flag, hsize,
      Bool.false_eq_true, if_false]
    exact hread
  · rw [getBlockSize, hrecord, hsize]

omit hids in
/-- All lists that fit are read back exactly when the last slot ends with the record. -/
theorem decodesBack_forall_iff :
    (∀ ids, IdList c ids → ids.Pairwise (· ≤ ·) → ids.length ≤ c.maxKCoreSize →
      DecodesBack c v ids) ↔
    c.vertexSize + 1 < 2 ^ 32 ∧ c.vertexBitSize ∣ c.perEncodeBitSize - 1 := by
  have hpos := hc.vertexBitSize_pos
  have hper := c.perEncodeBitSize_ge
  have hsome := Nat.le_trans hc.maxIntegerSize_pos c.maxIntegerSize_le
  constructor
  · intro hall
    have hnil := hall [] (by simp [IdList]) List.Pairwise.nil (Nat.zero_le _)
    refine ⟨((decodesBack_of_fits_iff hc hle (by simp [IdList]) (Nat.zero_le _)).mp hnil).1, ?_⟩
    by_contra hnot
    -- the id whose only bit is in front of the tested ones, in every slot
    have hleft : (c.perEncodeBitSize - 1) % c.vertexBitSize ≠ 0 :=
      fun h => hnot (Nat.dvd_of_mod_eq_zero h)
    have hid : 2 ^ testedBits c ≤ c.vertexSize := by
      have hlt := two_pow_pred_lt hc
      have hpow : 2 ^ testedBits c ≤ 2 ^ (c.vertexBitSize - 1) := by
        apply Nat.pow_le_pow_right (by decide)
        unfold testedBits
        omega
      omega
    have hids : IdList c (List.replicate c.maxKCoreSize (2 ^ testedBits c)) := by
      intro id hmem
      rw [List.eq_of_mem_replicate hmem]
      exact ⟨Nat.one_le_two_pow, hid⟩
    have hfit := Nat.le_of_eq (List.length_replicate (n := c.maxKCoreSize)
      (a := 2 ^ testedBits c))
    have hback := hall _ hids (List.pairwise_replicate.mpr (Or.inr (Nat.le_refl _))) hfit
    obtain ⟨-, hless | ⟨-, -, htest⟩⟩ := (decodesBack_of_fits_iff hc hle hids hfit).mp hback
    · rw [List.length_replicate] at hless
      exact Nat.lt_irrefl _ hless
    · apply htest
      rw [List.length_replicate, List.getD_eq_getElem _ _ (by rw [List.length_replicate]; omega),
        List.getElem_replicate]
  · rintro ⟨hv, hdvd⟩ ids hids - hfit
    refine (decodesBack_of_fits_iff hc hle hids hfit).mpr ⟨hv, ?_⟩
    refine (Nat.lt_or_eq_of_le hfit).imp_right fun hall => ⟨hall, fun hone => ?_, fun hzero => ?_⟩
    · -- the record and the record without the flag differ by one bit
      have hsub := Nat.dvd_sub hone hdvd
      rw [Nat.sub_sub_self (by omega)] at hsub
      have hbit := Nat.le_of_dvd Nat.one_pos hsub
      have htwo := two_le_vertexBitSize hc
      omega
    · have hbits : testedBits c = c.vertexBitSize := by
        rw [testedBits, Nat.mod_eq_zero_of_dvd hdvd, Nat.sub_zero]
      have hlast : ids.length - 1 < ids.length := by omega
      rw [hbits, List.getD_eq_getElem _ _ hlast] at hzero
      obtain ⟨hid, hid'⟩ := hids _ (List.getElem_mem hlast)
      have hge := Nat.le_of_dvd hid hzero
      have hlt := hc.vertexSize_lt
      omega

end Encoded

/-- The slots are read back when there are records, the loop counter of the block search reaches
    the end of a list that does not fit, and one that fits lines up. -/
theorem decodesBack_iff {c : Config} (hc : c.Packed) {v : Nat} (hle : v ≤ c.vertexSize)
    {ids : List Nat} (hids : IdList c ids) :
    (c.vertexSize + 1 < 2 ^ 32 ∧
        (LinesUp c ids ∨ c.maxKCoreSize < ids.length ∧ ids.length < 2 ^ 31) →
      DecodesBack c v ids) ∧
    (ids.length < 2 ^ 32 → DecodesBack c v ids → c.vertexSize + 1 < 2 ^ 32 ∧
      (LinesUp c ids ∨ c.maxKCoreSize < ids.length ∧ ids.length < 2 ^ 31)) := by
  constructor
  · rintro ⟨hv, hlines | ⟨hlong, hlen⟩⟩
    · have hfit : ids.length ≤ c.maxKCoreSize := by
        rcases hlines with hless | ⟨hall, -⟩ <;> omega
      exact (decodesBack_of_fits_iff hc hle hids hfit).mpr ⟨hv, hlines⟩
    · exact decodesBack_of_long hc hle hids hv hlong hlen
  · intro hlen hback
    rcases Nat.lt_or_ge c.maxKCoreSize ids.length with hlong | hfit
    · obtain ⟨encodes, henc, -⟩ := hback
      exact ⟨vertexSize_lt_of_encodeVertexAt henc,
        Or.inr ⟨hlong, length_lt_of_encodeVertexAt hc henc hlen⟩⟩
    · exact ((decodesBack_of_fits_iff hc hle hids hfit).mp hback).imp_right Or.inl

/-- Six slots of five bits behind the flag, and one bit behind them. -/
def sixSlots : Config := .ofSizes 1 20 2 (by decide)

theorem sixSlots_packed : sixSlots.Packed where
  kSize_le := by decide
  vertexSize_lt := by decide
  maxIntegerSize_pos := by decide

/-- Six neighbours, of which the last has a low bit, and one more than there are slots. -/
theorem decodesBack_six :
    DecodesBack sixSlots 1 (List.range' 2 6) ∧ DecodesBack sixSlots 1 (List.range' 2 7) := by
  have hids : ∀ n < 8, IdList sixSlots (List.range' 2 n) := by
    unfold IdList
    decide
  constructor
  · exact (decodesBack_iff sixSlots_packed (by decide) (hids 6 (by decide))).1
      ⟨by decide, Or.inl (Or.inr ⟨by decide, by decide, by decide⟩)⟩
  · exact (decodesBack_iff sixSlots_packed (by decide) (hids 7 (by decide))).1
      ⟨by decide, Or.inr ⟨by decide, by decide⟩⟩

/-- Slots of four bits in a record of 32 bits are read behind its end, and the last slot looks
    empty when its low bits are zero. -/
theorem not_decodesBack_full :
    (RangeVend.tenConfig.Packed ∧ IdList RangeVend.tenConfig (List.range' 2 7) ∧
      ¬ DecodesBack RangeVend.tenConfig 1 (List.range' 2 7)) ∧
    (sixSlots.Packed ∧ IdList sixSlots [2, 3, 4, 5, 6, 16] ∧
      ¬ DecodesBack sixSlots 1 [2, 3, 4, 5, 6, 16]) := by
  have hseven : IdList RangeVend.tenConfig (List.range' 2 7) := by
    unfold IdList
    decide
  have hsix : IdList sixSlots [2, 3, 4, 5, 6, 16] := by
    unfold IdList
    decide
  refine ⟨⟨RangeVend.tenConfig_packed, hseven, fun hback => ?_⟩, ⟨sixSlots_packed, hsix,
    fun hback => ?_⟩⟩
  · obtain ⟨-, hless | ⟨-, hone, -⟩⟩ := (decodesBack_of_fits_iff RangeVend.tenConfig_packed
      (by decide) hseven (by decide)).mp hback
    · exact absurd hless (by decide)
    · exact hone (by decide)
  · obtain ⟨-, hless | ⟨-, -, htest⟩⟩ := (decodesBack_of_fits_iff sixSlots_packed (by decide)
      hsix (by decide)).mp hback
    · exact absurd hless (by decide)
    · exact htest (by decide)

end HybridEncode

end Vend
