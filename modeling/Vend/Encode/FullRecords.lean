import Vend.Encode.BitsComp
import Vend.Encode.RangeUpdate
import Vend.Encode.RangeWindow
import Vend.Encode.VbyteDeltaComp

/-! # Reading full records back

    `GetAllNeighbors` of the range encodings, which insertion and deletion re-encode a vertex
    from. For a record that holds its whole list it is `GetBlockInt`, and this reads words of
    32 bits up to an empty one.

    `RangeEncode` writes such words, and when all of them are used the only `return` is not
    reached. `RangeCompEncode` has the function from its base class but writes fields of
    `VERTEX_BIT_SIZE` bits, or bytes of seven bits. There the first word is larger than the
    id that was written first (`lt_word`), and only the empty list is read back.
-/

namespace Vend

/-- `CompMethod`. -/
inductive CompMethod where
  | bits
  | vbyte
  | delta

namespace RangeCompEncode

open BitField BitSetSIMD
open RangeEncode (word slots getBlockInt getAllNeighbors sorted maxIntSize)

/-! ## Section 1: Model -/

/-- `RangeCompEncode(method)`: the codec. -/
def codec (c : Config) : CompMethod → CompressionAt
  | .bits => BitsComp.codec c
  | .vbyte => VbyteComp.codec c
  | .delta => VbyteDeltaComp.codec c

/-- The bits that the fields of a list take. `GetRequiredBits` is this sum in a `uint32_t`. -/
def listBits (c : Config) : CompMethod → List Nat → Nat
  | .bits, list => list.length * c.vertexBitSize
  | .vbyte, list => VbyteComp.fullBits list
  | .delta, list => VbyteComp.fullBits (VbyteDeltaComp.getDeltas list)

/-- The method writes words of 32 bits. -/
def WritesWords (c : Config) : CompMethod → Prop
  | .bits => c.vertexBitSize = 32
  | .vbyte | .delta => False

theorem getRequiredBits_codec (c : Config) (method : CompMethod) (list : List Nat) :
    (codec c method).getRequiredBits list = listBits c method list % 2 ^ 32 := by
  cases method with
  | bits => rfl
  | vbyte => exact VbyteComp.getRequiredBits_eq list
  | delta => exact VbyteComp.getRequiredBits_eq _

/-! ## Section 2: The first word -/

/-- The first word by the field in front of it. -/
theorem word_one_ge (bs : BitSetSIMD) (size : Nat) (hle : size ≤ 32) :
    field bs.bit 32 size * 2 ^ (32 - size) ≤ word bs 1 := by
  rw [word, blockGet_eq _ (by decide) (by decide)]
  have hsplit := field_add bs.bit 32 size (32 - size)
  rw [Nat.add_sub_cancel' hle] at hsplit
  rw [Nat.one_mul, hsplit]
  exact Nat.le_add_right _ _

/-- A field that is smaller than a word is moved up in it. -/
theorem lt_word_of_field {bs : BitSetSIMD} {size v : Nat} (hlt : size < 32) (hv : 0 < v)
    (hfield : field bs.bit 32 size = v) : v < word bs 1 := by
  have hge := word_one_ge bs size (Nat.le_of_lt hlt)
  -- at least one bit of the word is behind the field
  have hpow : 2 ^ 1 ≤ 2 ^ (32 - size) := Nat.pow_le_pow_right (by decide) (by omega)
  have hmul := Nat.mul_le_mul_left v hpow
  rw [hfield] at hge
  omega

/-- The first byte of a number is the number itself or has its top bit set. -/
theorem lt_word_of_stream {bs : BitSetSIMD} {v : Nat} {values : List Nat} (hv : 0 < v)
    (hlt : v < 2 ^ 28) (hbytes : bs.data.drop 4 = Vbyte.stream VbyteComp.size (v :: values)) :
    v < word bs 1 := by
  have hge := word_one_ge bs 8 (by decide)
  have hfield : field bs.bit 32 8 = (bs.byte 4).toNat := field_byte bs.data 4
  have hbyte : bs.byte 4 = (Vbyte.encode (VbyteComp.size v) v ++
      Vbyte.stream VbyteComp.size values).getD 0 0 := by
    rw [← Vbyte.stream_cons, ← hbytes, byte, List.getD_eq_getElem?_getD,
      List.getD_eq_getElem?_getD, List.getElem?_drop]
  have hsize := VbyteComp.size_add_one v
  rw [VbyteComp.integerBytes_eq] at hsize
  rw [hfield, hbyte] at hge
  cases hn : VbyteComp.size v with
  | zero =>
    -- one byte: it is the highest of the word
    have hsmall : v ≤ 127 := by
      rw [hn] at hsize
      split_ifs at hsize <;> omega
    rw [hn, Vbyte.encode, List.singleton_append, List.getD_cons_zero, BitVec.toNat_ofNat,
      Vbyte.group, pow_zero, Nat.div_one] at hge
    omega
  | succ n =>
    -- more bytes: the first has its top bit set, and the id is below 2^28
    have hgroup := Vbyte.group_lt v (n + 1)
    rw [hn, Vbyte.encode, List.cons_append, List.getD_cons_zero, BitVec.toNat_ofNat] at hge
    omega

/-! ## Section 3: What is read back -/

section

variable {c : Config} (hc : BitsComp.Fielded c)
include hc

/-- Nothing is written for the empty list. -/
theorem encodeBitsAt_nil (method : CompMethod) {bs : BitSetSIMD} (hrec : IsRecord c bs) :
    encodeBitsAt c (codec c method) [] bs = some (flagged c true) := by
  have hreq : (codec c method).getRequiredBits [] ≤ maxBits c := by
    rw [getRequiredBits_codec]
    cases method <;> simp [listBits, VbyteComp.fullBits, VbyteDeltaComp.getDeltas]
  rw [encodeBitsAt_eq hc.worded _ _ hrec, if_pos hreq]
  cases method <;> rfl

theorem word_one_flagged : word (flagged c true) 1 = 0 := by
  rw [word, blockGet_eq _ (by decide) (by decide)]
  exact field_eq_zero fun p hp _ => bit_flagged_of_ge hc.worded true (by omega)

/-- Fields of 32 bits are the words that the reader looks at. -/
theorem slots_of_holds (hword : c.vertexBitSize = 32) {flag : Bool} {ids : List Nat}
    {bs : BitSetSIMD} (h : BitsComp.Holds c flag ids bs) (hfit : ids.length ≤ maxIntSize c) :
    slots c bs = ids ++ List.replicate (maxIntSize c - ids.length) 0 := by
  have hmax := maxBits_eq hc.worded
  apply List.ext_getElem
  · simp [slots]
    omega
  · intro i h₁ h₂
    have hi : i < maxIntSize c := by simpa [slots] using h₁
    -- field `i` is word `i + 1`
    have hslot := h.slot_eq i (by rw [hword]; omega)
    rw [BitsComp.slot, hword, shift] at hslot
    rw [RangeEncode.getElem_slots, word, show (i + 1) * 32 = 32 + i * 32 by ring, hslot]
    by_cases hin : i < ids.length
    · rw [List.getElem_append_left hin, List.getD_eq_getElem _ _ hin]
    · rw [List.getElem_append_right (by omega), List.getElem_replicate,
        List.getD_eq_default _ _ (by omega)]

/-- A list that fits is stored in other fields, and the first word is larger than its first
    id. -/
theorem exists_encodeBitsAt_lt_word {method : CompMethod} (hother : ¬ WritesWords c method)
    {v : Nat} {rest : List Nat} (hids : IdList c (v :: rest)) (hlt : v < 2 ^ 28)
    (hfit : listBits c method (v :: rest) ≤ maxBits c) {bs : BitSetSIMD}
    (hrec : IsRecord c bs) :
    ∃ bs', encodeBitsAt c (codec c method) (v :: rest) bs = some bs' ∧ getFlag bs' = true ∧
      v < word bs' 1 := by
  have hper := perEncodeBitSize_eq hc.worded
  have hper' := perEncodeBitSize_le hc.worded
  have hv := (hids v List.mem_cons_self).1
  cases method with
  | bits =>
    -- fields of other methods than words are narrower
    have hvb : c.vertexBitSize < 32 := Nat.lt_of_le_of_ne c.vertexBitSize_le hother
    obtain ⟨bs', hbs, hholds⟩ := BitsComp.encodeBitsAt_of_fits hc hids hrec hfit
    refine ⟨bs', hbs, hholds.getFlag_eq, lt_word_of_field hvb hv ?_⟩
    have hroom : (0 + 1) * c.vertexBitSize ≤ maxBits c :=
      Nat.le_trans (Nat.mul_le_mul_right _ (Nat.succ_le_succ (Nat.zero_le _))) hfit
    have hslot := hholds.slot_eq 0 hroom
    rw [BitsComp.slot, Nat.zero_mul,
      blockGet_eq _ (BitsComp.vertexBitSize_pos hc) (Nat.le_of_lt hvb)] at hslot
    exact hslot
  | vbyte =>
    obtain ⟨bs', hbs, hstores⟩ := VbyteComp.exists_encodeBitsAt hc.worded hfit hrec
    obtain ⟨k, hbytes⟩ := hstores.bytes
    exact ⟨bs', hbs, hstores.flag, lt_word_of_stream hv hlt hbytes⟩
  | delta =>
    have hreq : (codec c .delta).getRequiredBits (v :: rest) ≤ maxBits c := by
      rw [getRequiredBits_codec, Nat.mod_eq_of_lt (by omega)]
      exact hfit
    obtain ⟨bs', hbs, hstores⟩ := VbyteComp.exists_stores hc.worded true
      (VbyteDeltaComp.getDeltas (v :: rest)) hfit
    obtain ⟨k, hbytes⟩ := hstores.bytes
    refine ⟨bs', ?_, hstores.flag, lt_word_of_stream hv hlt hbytes⟩
    rw [encodeBitsAt_eq hc.worded _ _ hrec, if_pos hreq]
    exact hbs

/-- The words of a record begin with the first one. -/
theorem slots_eq_cons (bs : BitSetSIMD) : ∃ rest, slots c bs = word bs 1 :: rest := by
  have hm := RangeEncode.maxIntSize_ge hc.worded
  obtain ⟨m, hm⟩ : ∃ m, maxIntSize c = m + 1 := ⟨maxIntSize c - 1, by omega⟩
  exact ⟨(List.range' 2 m).map (word bs), by rw [slots, hm, List.range'_succ, List.map_cons]⟩

/-- A first word that is larger than some id of the list is not where the list begins. -/
theorem getBlockInt_ne {ids : List Nat} {v : Nat} (hv : v ∈ ids) {bs : BitSetSIMD}
    (hlt : v < word bs 1) : getBlockInt c bs ≠ some (sorted ids) := by
  intro h
  obtain ⟨rest, hslots⟩ := slots_eq_cons hc bs
  have hmem : v ∈ sorted ids := (List.mem_insertionSort _).mpr hv
  have hsorted := RangeEncode.pairwise_sorted ids
  -- the reader takes the first word, which is not empty
  have hne : decide (word bs 1 ≠ 0) = true := decide_eq_true (Nat.ne_zero_of_lt hlt)
  unfold getBlockInt at h
  rw [hslots, List.takeWhile_cons, if_pos hne] at h
  split at h
  · split at h
    · -- the smallest id would be the first word
      rw [← Option.some_inj.mp h] at hmem hsorted
      rcases List.mem_cons.mp hmem with heq | hmem
      · omega
      · have hle := (List.pairwise_cons.mp hsorted).1 v hmem
        omega
    · cases h
  · cases h

end

end RangeCompEncode

/-! ## Section 4: One vertex -/

/-- Whatever the records held before, `EncodeVertex` stores the list in full. -/
def StoresFull (c : Config) (encodeVertex : Records → Option Records) (v : Nat) : Prop :=
  ∀ encodes : Records, encodes.Built c →
    ∃ encodes', encodeVertex encodes = some encodes' ∧
      RangeEncode.getFlag (encodes'.record v) = true

/-- Whatever the records held before, `GetAllNeighbors` gives the sorted list back. -/
def GivesBack (c : Config) (encodeVertex : Records → Option Records) (v : Nat)
    (ids : List Nat) : Prop :=
  ∀ encodes encodes' : Records, encodes.Built c → encodeVertex encodes = some encodes' →
    ∀ db, RangeEncode.getAllNeighbors c db v encodes' = some (RangeEncode.sorted ids)

/-- A record with a set flag is read back when `GetBlockInt` reads it back. -/
theorem storesFull_and_givesBack_iff {c : Config} {encodeVertex : Records → Option Records}
    {v : Nat} {ids : List Nat} {good : Prop}
    (h : ∀ encodes : Records, encodes.Built c → ∃ encodes', encodeVertex encodes = some encodes' ∧
      RangeEncode.getFlag (encodes'.record v) = true ∧
      (RangeEncode.getBlockInt c (encodes'.record v) = some (RangeEncode.sorted ids) ↔ good)) :
    StoresFull c encodeVertex v ∧ (GivesBack c encodeVertex v ids ↔ good) := by
  refine ⟨fun encodes hbuilt => ?_, fun hback => ?_, fun hgood => ?_⟩
  · obtain ⟨encodes', heq, hflag, -⟩ := h encodes hbuilt
    exact ⟨encodes', heq, hflag⟩
  · have hbuilt := Records.built_constructed c
    obtain ⟨encodes', heq, hflag, hblock⟩ := h _ hbuilt
    -- a new record is enough, whatever the database holds
    have hread := hback _ _ hbuilt heq fun _ => []
    rw [RangeEncode.getAllNeighbors, if_pos hflag] at hread
    exact hblock.mp hread
  · intro encodes encodes' hbuilt heq db
    obtain ⟨encodes'', heq', hflag, hblock⟩ := h encodes hbuilt
    obtain rfl : encodes' = encodes'' := Option.some_inj.mp (heq.symm.trans heq')
    rw [RangeEncode.getAllNeighbors, if_pos hflag]
    exact hblock.mpr hgood

section

variable {c : Config} (hc : BitsComp.Fielded c) {v : Nat} (hv : v ≤ c.vertexSize)
  {ids : List Nat} (hids : IdList c ids)
include hc hv hids

/-- `RangeEncode`: the reader runs off its end when every word is used. -/
theorem RangeEncode.givesBack_iff_lt (hfit : ids.length ≤ RangeEncode.maxIntSize c) :
    StoresFull c (RangeEncode.encodeVertexAt c v ids) v ∧
    (GivesBack c (RangeEncode.encodeVertexAt c v ids) v ids ↔
      ids.length < RangeEncode.maxIntSize c) := by
  apply storesFull_and_givesBack_iff
  intro encodes hbuilt
  have hrec := hbuilt.record (hbuilt.lt_length hc.worded.vertexSize_lt hv)
  refine ⟨_, RangeEncode.encodeVertexAt_eq_some hc.worded hbuilt hv hids (Or.inl hfit), ?_⟩
  rw [RangeEncode.record_encodeVertex hc.worded hbuilt hv ids,
    RangeEncode.getFlag_encodeBits hc.worded hids hrec, decide_eq_true_eq,
    RangeEncode.getBlockInt_encodeBits hc.worded hids hfit hrec]
  refine ⟨hfit, ?_⟩
  split
  next hlt => exact iff_of_true rfl hlt
  next hnot => exact iff_of_false (Option.some_ne_none _).symm hnot

/-- `RangeCompEncode`: the reader is for words. What is written in other fields looks the same
    only in an empty record, and the words of `BitsComp` are not sorted. -/
theorem RangeCompEncode.givesBack_iff_words (hsmall : ∀ id ∈ ids, id < 2 ^ 28)
    (method : CompMethod)
    (hfit : RangeCompEncode.listBits c method ids ≤ RangeCompEncode.maxBits c) :
    StoresFull c (RangeCompEncode.encodeVertexAt c (RangeCompEncode.codec c method) v ids) v ∧
    (GivesBack c (RangeCompEncode.encodeVertexAt c (RangeCompEncode.codec c method) v ids) v ids ↔
      ids = [] ∨ (RangeCompEncode.WritesWords c method ∧ ids.Pairwise (· ≤ ·) ∧
        ids.length < RangeEncode.maxIntSize c)) := by
  apply storesFull_and_givesBack_iff
  intro encodes hbuilt
  have hlt := hbuilt.lt_length hc.worded.vertexSize_lt hv
  have hrec := hbuilt.record hlt
  cases ids with
  | nil =>
    obtain ⟨encodes', heq, hrecord⟩ := RangeCompEncode.encodeVertexAt_eq_some hlt
      (RangeCompEncode.encodeBitsAt_nil hc method hrec)
    refine ⟨encodes', heq, ?_⟩
    rw [hrecord]
    -- the empty list: the reader stops at the first word
    have hflag : RangeEncode.getFlag (RangeCompEncode.flagged c true) = true :=
      RangeCompEncode.getFlag_of_bit hc.worded fun p _ => rfl
    obtain ⟨rest, hslots⟩ := RangeCompEncode.slots_eq_cons hc (RangeCompEncode.flagged c true)
    rw [RangeCompEncode.word_one_flagged hc] at hslots
    refine ⟨hflag, iff_of_true ?_ (Or.inl rfl)⟩
    rw [RangeEncode.getBlockInt, if_pos hflag, hslots, if_pos List.mem_cons_self]
    rfl
  | cons id rest =>
    have hne : id :: rest ≠ [] := List.cons_ne_nil _ _
    -- words are written only by `BitsComp`, and only when the fields have 32 bits
    by_cases hwords : RangeCompEncode.WritesWords c method
    · cases method with
      | bits =>
        have hmax := RangeCompEncode.maxBits_eq hc.worded
        have hfit' : (id :: rest).length ≤ RangeEncode.maxIntSize c := by
          change _ * c.vertexBitSize ≤ _ at hfit
          rw [show c.vertexBitSize = 32 from hwords] at hfit
          omega
        obtain ⟨bs, hbs, hholds⟩ := BitsComp.encodeBitsAt_of_fits hc hids hrec hfit
        obtain ⟨encodes', heq, hrecord⟩ := RangeCompEncode.encodeVertexAt_eq_some hlt hbs
        refine ⟨encodes', heq, ?_⟩
        rw [hrecord, RangeEncode.getBlockInt_of_slots hholds.getFlag_eq
          (RangeCompEncode.slots_of_holds hc hwords hholds hfit')
          fun x hx => Nat.ne_zero_of_lt (hids x hx).1]
        refine ⟨hholds.getFlag_eq, ?_⟩
        -- the list comes back as it was written, so it has to be sorted
        by_cases hroom : (id :: rest).length < RangeEncode.maxIntSize c
        · rw [if_pos hroom, Option.some_inj]
          constructor
          · intro heq
            have hsorted := RangeEncode.pairwise_sorted (id :: rest)
            rw [← heq] at hsorted
            exact Or.inr ⟨hwords, hsorted, hroom⟩
          · intro h
            exact (List.Pairwise.insertionSort_eq (h.resolve_left hne).2.1).symm
        · rw [if_neg hroom]
          exact iff_of_false (Option.some_ne_none _).symm
            fun h => hroom (h.resolve_left hne).2.2
      | vbyte => exact hwords.elim
      | delta => exact hwords.elim
    · obtain ⟨bs, hbs, hflag, hword⟩ := RangeCompEncode.exists_encodeBitsAt_lt_word hc hwords
        hids (hsmall id List.mem_cons_self) hfit hrec
      obtain ⟨encodes', heq, hrecord⟩ := RangeCompEncode.encodeVertexAt_eq_some hlt hbs
      refine ⟨encodes', heq, ?_⟩
      rw [hrecord]
      exact ⟨hflag, iff_of_false (RangeCompEncode.getBlockInt_ne hc List.mem_cons_self hword)
        fun h => h.elim hne fun h => hwords h.1⟩

end

/-- A list that fits is stored in full by all four encodings, and this is when it is read
    back. -/
theorem givesBack_full_iff {c : Config} (hk : 3 ≤ c.kSize) (hk' : c.kSize ≤ 64)
    (hfield : c.vertexSize + 1 < 2 ^ c.vertexBitSize) {v : Nat} (hv : v ≤ c.vertexSize)
    {ids : List Nat} (hids : IdList c ids) (hsmall : ∀ id ∈ ids, id < 2 ^ 28) :
    (ids.length ≤ RangeEncode.maxIntSize c →
      StoresFull c (RangeEncode.encodeVertexAt c v ids) v ∧
      (GivesBack c (RangeEncode.encodeVertexAt c v ids) v ids ↔
        ids.length < RangeEncode.maxIntSize c)) ∧
    ∀ method, RangeCompEncode.listBits c method ids ≤ RangeCompEncode.maxBits c →
      StoresFull c (RangeCompEncode.encodeVertexAt c (RangeCompEncode.codec c method) v ids) v ∧
      (GivesBack c (RangeCompEncode.encodeVertexAt c (RangeCompEncode.codec c method) v ids) v
        ids ↔ ids = [] ∨ (RangeCompEncode.WritesWords c method ∧ ids.Pairwise (· ≤ ·) ∧
          ids.length < RangeEncode.maxIntSize c)) := by
  have hc : BitsComp.Fielded c := ⟨hk, hk', hfield⟩
  exact ⟨RangeEncode.givesBack_iff_lt hc hv hids,
    RangeCompEncode.givesBack_iff_words hc hv hids hsmall⟩

/-- Two words behind the flag, or twelve fields of five bits. -/
def twelveFields : Config := .ofSizes 3 25 2 (by decide)

theorem twelveFields_fielded : BitsComp.Fielded twelveFields := ⟨by decide, by decide, by decide⟩

/-- Four words behind the flag, and fields of 32 bits. -/
def wordFields : Config := .ofSizes 5 (2 ^ 32 - 2) 2 (by decide)

/-- Three ids in four words, also in fields that are words if they are given in order, and the
    empty list. -/
theorem givesBack_full_three :
    GivesBack wordFields (RangeEncode.encodeVertexAt wordFields 1 [9, 4, 7]) 1 [9, 4, 7] ∧
    GivesBack wordFields
      (RangeCompEncode.encodeVertexAt wordFields (RangeCompEncode.codec wordFields .bits) 1
        [4, 7, 9]) 1 [4, 7, 9] ∧
    ∀ method, GivesBack wordFields
      (RangeCompEncode.encodeVertexAt wordFields (RangeCompEncode.codec wordFields method) 1 [])
      1 [] := by
  have hread := fun ids (hids : IdList wordFields ids) =>
    @givesBack_full_iff wordFields (by decide) (by decide) (by decide) 1 (by decide) ids hids
  refine ⟨?_, ?_, fun method => ?_⟩
  · exact ((hread [9, 4, 7] (by unfold IdList; decide) (by decide)).1 (by decide)).2.mpr (by decide)
  · exact ((hread [4, 7, 9] (by unfold IdList; decide) (by decide)).2 .bits (by decide)).2.mpr
      (Or.inr ⟨rfl, by decide, by decide⟩)
  · exact ((hread [] (by unfold IdList; decide) (by decide)).2 method
      (by cases method <;> decide)).2.mpr (Or.inl rfl)

/-- Two ids fill two words, and no compressed list but the empty one is made of words. -/
theorem not_givesBack_two :
    (StoresFull twelveFields (RangeEncode.encodeVertexAt twelveFields 1 [7, 9]) 1 ∧
      ¬ GivesBack twelveFields (RangeEncode.encodeVertexAt twelveFields 1 [7, 9]) 1 [7, 9]) ∧
    ∀ method,
      StoresFull twelveFields
        (RangeCompEncode.encodeVertexAt twelveFields (RangeCompEncode.codec twelveFields method) 1
          [7, 9])
        1 ∧
      ¬ GivesBack twelveFields
        (RangeCompEncode.encodeVertexAt twelveFields (RangeCompEncode.codec twelveFields method) 1
          [7, 9])
        1 [7, 9] := by
  have hids : IdList twelveFields [7, 9] := by
    unfold IdList
    decide
  refine ⟨(RangeEncode.givesBack_iff_lt twelveFields_fielded (by decide) hids (by decide)).imp_right
    fun hread => mt hread.mp (by decide), fun method => ?_⟩
  exact (RangeCompEncode.givesBack_iff_words twelveFields_fielded (by decide) hids (by decide)
    method (by cases method <;> decide)).imp_right fun hread => mt hread.mp
      fun h => absurd (h.resolve_left (List.cons_ne_nil _ _)).2.2 (by decide)

end Vend
