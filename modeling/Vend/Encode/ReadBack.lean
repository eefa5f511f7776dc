import Vend.Encode.Rewrite
import Vend.Encode.ScalarSearch

/-! # The lists that a `V3` record reads back

    `EncodeVertex` of `DeltaSIMDEncodeV3` takes any list. The record answers for all of
    it when the codec can search what was stored (`Readable`), when the ids that were only
    hashed stand beyond the block (`Splits`), and when nothing of the byte length is left in
    the header (`ReadsBack`). For a sorted list the first says that at most 20 ids are
    stored and the second always holds.

    The record may hold an older list. Hash bits that are left of it do not matter here,
    since they only turn an answer into `Uncertain`, but the flag of a longer list must be
    clear.
-/

namespace Vend

open BitSetSIMD DeltaSIMDCodecV3

namespace DeltaSIMDEncodeV3

open DeltaSIMDEncode (BlockInfo BlockRecord Codec codecV3 codecV3SIMD maxBytesLen memory findDecodable
  findNonDecodable)

/-! ## Section 1: Lists -/

instance (ids : List Nat) : Decidable (Readable ids) :=
  inferInstanceAs (Decidable (_ ∧ (_ ∨ (_ ∧ _))))

/-- The record of the list answers for all of it. -/
def ReadsBack (c : Config) (ids : List Nat) : Prop :=
  if getRequiredBytes ids ≤ maxBytesLen c then Readable ids
  else getRequiredBytes ids % 256 < 128 ∧ ¬ Misread c ids ∧
    Readable ((dynamicChoose c ids).inside ids) ∧ (dynamicChoose c ids).Splits ids

instance (c : Config) (ids : List Nat) : Decidable (ReadsBack c ids) :=
  inferInstanceAs (Decidable (if getRequiredBytes ids ≤ maxBytesLen c then Readable ids
    else getRequiredBytes ids % 256 < 128 ∧ ¬ Misread c ids ∧
      Readable ((dynamicChoose c ids).inside ids) ∧ (dynamicChoose c ids).Splits ids))

/-- The same for a sorted list: at most 20 ids are stored. -/
def ReadsBackSorted (c : Config) (ids : List Nat) : Prop :=
  if getRequiredBytes ids ≤ maxBytesLen c then ids.length ≤ 20
  else getRequiredBytes ids % 256 < 128 ∧ ¬ Misread c ids ∧ (dynamicChoose c ids).blockSize ≤ 20

instance (c : Config) (ids : List Nat) : Decidable (ReadsBackSorted c ids) :=
  inferInstanceAs (Decidable (if getRequiredBytes ids ≤ maxBytesLen c then ids.length ≤ 20
    else getRequiredBytes ids % 256 < 128 ∧ ¬ Misread c ids ∧
      (dynamicChoose c ids).blockSize ≤ 20))

theorem readsBack_iff_sorted {c : Config} (hc : c.Narrow) {ids : List Nat}
    (h : DeltaSIMDCodec.Ascending ids) : ReadsBack c ids ↔ ReadsBackSorted c ids := by
  have hreadable : ∀ {l : List Nat}, DeltaSIMDCodec.Ascending l → (Readable l ↔ l.length ≤ 20) := by
    intro l hl
    unfold Readable
    refine ⟨fun hread => by have := hread.2; omega, fun hlen => ⟨hl.lt, Or.inr ⟨hlen, hl.sorted⟩⟩⟩
  have hinside : DeltaSIMDCodec.Ascending ((dynamicChoose c ids).inside ids) :=
    (h.drop _).take _
  have hsplits := DeltaSIMDEncode.splits_of_sorted h.sorted (valid_dynamicChoose hc ids)
  unfold ReadsBack ReadsBackSorted
  rw [hreadable h, hreadable hinside, (length_inside_le hc ids).1]
  simp only [hsplits, and_true]

/-- What the encoders rely on when they write with this codec. -/
theorem sound_codecV3 {ids : List Nat} (h : Readable ids) (hne : ids ≠ []) : codecV3.Sound ids where
  getEncodeLength _ hmem := getEncodeLength_of_stored hne hmem
  find _ hmem _ he := findWithCount_spec (stream_of_stored hmem) h he hne

/-! ## Section 2: Records -/

section Record

variable {c : Config} (hc : c.Narrow) {ids : List Nat} {old : BitSetSIMD} (hrec : IsRecord c old)
variable (h : ReadsBack c ids)
include hc hrec h

/-- The record of a list that does not fit, over one without the flag. -/
theorem blockRecord_encodeBits (hlong : ¬ getRequiredBytes ids ≤ maxBytesLen c)
    (hflag : old.getFirstBit = false) :
    BlockRecord c codecV3 ((dynamicChoose c ids).inside ids) ((dynamicChoose c ids).outside ids)
      (dynamicChoose c ids).blockType (encodeBits c ids old) := by
  rw [ReadsBack, if_neg hlong] at h
  obtain ⟨hspill, hread, -, -⟩ := h
  have hnew := rewritten_encodeBits hc hrec hlong
  refine ⟨?_, hnew.model, ?_, hnew.stored, ?_⟩
  · rw [hnew.flag, hflag, Bool.false_or]
    exact decide_eq_false (by omega)
  · rw [hnew.size_eq hc hread, (length_inside_le hc ids).1]
  · intro id hid hno
    change hashBegin (dynamicChoose c ids) ids ≠ c.perEncodeBitSize at hno
    obtain ⟨hge, hlt⟩ := hash_range hc id hno
    have hbit := hnew.bit _ hge hlt
    rw [List.any_eq_true.mpr ⟨id, hid, decide_eq_true rfl⟩, Bool.or_true] at hbit
    exact (isOne_eq_bit _ _).trans hbit

/-- The flag says whether the list fits. -/
theorem getFirstBit_encodeBits
    (hflag : getRequiredBytes ids ≤ maxBytesLen c ∨ old.getFirstBit = false) :
    (encodeBits c ids old).getFirstBit = decide (getRequiredBytes ids ≤ maxBytesLen c) := by
  by_cases hfit : getRequiredBytes ids ≤ maxBytesLen c
  · rw [(decodableRecord_encodeBits hc hrec hfit).flag, decide_eq_true hfit]
  · rw [(blockRecord_encodeBits hc hrec h hfit (hflag.resolve_left hfit)).flag,
      decide_eq_false hfit]

/-- The record is exact up to `Uncertain`. -/
theorem speaks_encodeBits
    (hflag : getRequiredBytes ids ≤ maxBytesLen c ∨ old.getFirstBit = false) (tail : Nat → Byte)
    {w : Nat} (hw : w < 2 ^ 31) :
    Speaks (decide (getRequiredBytes ids ≤ maxBytesLen c)) (w ∈ ids)
      (testBits c tail (encodeBits c ids old) w) := by
  unfold testBits DeltaSIMDEncode.testBits
  rw [getFirstBit_encodeBits hc hrec h hflag]
  by_cases hfit : getRequiredBytes ids ≤ maxBytesLen c
  · have hread := h
    rw [ReadsBack, if_pos hfit] at hread
    simp only [hfit, decide_true, if_true]
    exact DeltaSIMDEncode.speaks_findDecodable (decodableRecord_encodeBits hc hrec hfit)
      (sound_codecV3 hread) tail hw
  · have hblock := blockRecord_encodeBits hc hrec h hfit (hflag.resolve_left hfit)
    rw [ReadsBack, if_neg hfit] at h
    obtain ⟨-, -, hread, hsplits⟩ := h
    simp only [hfit, decide_false, Bool.false_eq_true, if_false]
    exact DeltaSIMDEncode.speaks_of_splits rfl (valid_dynamicChoose hc ids) hsplits hblock
      (sound_codecV3 hread) tail hw

/-- The ids of the block are reported. -/
theorem testBits_of_inside (hlong : ¬ getRequiredBytes ids ≤ maxBytesLen c)
    (hflag : old.getFirstBit = false) (tail : Nat → Byte) {w : Nat} (hw : w < 2 ^ 31)
    (hmem : w ∈ (dynamicChoose c ids).inside ids) :
    testBits c tail (encodeBits c ids old) w = .neighbor := by
  have hblock := blockRecord_encodeBits hc hrec h hlong hflag
  rw [ReadsBack, if_neg hlong] at h
  have hne : (dynamicChoose c ids).inside ids ≠ [] := List.ne_nil_of_mem hmem
  have hfind := (sound_codecV3 h.2.2.1 hne).find _ (hblock.stored tail) w hw
  have hzero : ((dynamicChoose c ids).inside ids).length ≠ 0 :=
    fun heq => hne (List.length_eq_zero_iff.mp heq)
  unfold testBits DeltaSIMDEncode.testBits findNonDecodable
  rw [hblock.flag, hblock.size, if_neg Bool.false_ne_true]
  simp only [if_neg hzero, DeltaSIMDCodec.FindRes.val_eq_zero, hfind.mem_iff.mp hmem, if_true]

end Record

/-! ## Section 3: Lists that are not read back -/

section Exact

variable {c : Config} (hc : c.Narrow) {ids : List Nat} (h : DeltaSIMDCodec.Ascending ids)
include hc h

/-- The last id but one of a list that fits is lost. -/
theorem denied_of_fits (hfit : getRequiredBytes ids ≤ maxBytesLen c) (hlen : 20 < ids.length)
    {old : BitSetSIMD} (hrec : IsRecord c old) (tail : Nat → Byte) :
    testBits c tail (encodeBits c ids old) (ids.getD (ids.length - 2) 0) = .nonNeighbor := by
  have hnew := decodableRecord_encodeBits hc hrec hfit
  obtain ⟨hlt, -⟩ := length_lt_of_fits hc hfit
  have hlost := findWithCount_lost (stream_of_stored (hnew.stored tail)) h hlen (by omega)
  unfold testBits DeltaSIMDEncode.testBits findDecodable
  rw [hnew.flag, hnew.size, if_pos rfl]
  simp only [codecV3, hlost]
  rw [if_neg (by omega), if_neg (by decide)]

variable (hread : ¬ Misread c ids)
include hread

/-- The last id but one of the block is lost. -/
theorem denied_of_block {old encode : BitSetSIMD}
    (hnew : Rewritten c ids (dynamicChoose c ids) old encode)
    (hsize : 20 < (dynamicChoose c ids).blockSize) (tail : Nat → Byte) :
    testBits c tail encode (((dynamicChoose c ids).inside ids).getD
      ((dynamicChoose c ids).blockSize - 2) 0) = .nonNeighbor := by
  obtain ⟨hlen, hle⟩ := length_inside_le hc ids
  have hinside : DeltaSIMDCodec.Ascending ((dynamicChoose c ids).inside ids) :=
    (h.drop _).take _
  have hlost := findWithCount_lost (stream_of_stored (stored_bytesOf _)) hinside (by omega)
    (by omega)
  rw [hlen] at hlost
  have hzero : (dynamicChoose c ids).blockSize ≠ 0 := by omega
  unfold testBits DeltaSIMDEncode.testBits
  cases encode.getFirstBit with
  | true =>
    rw [if_pos rfl, hnew.findDecodable_eq hc h.lt hread, if_neg hzero, hlost, if_neg (by decide)]
  | false =>
    rw [if_neg Bool.false_ne_true, hnew.findNonDecodable_eq hc h.lt hread, verdictOf, if_neg hzero]
    simp only [hlost]
    -- `NotExist` has a bit in common with every block model
    cases (dynamicChoose c ids).blockType <;> rfl

/-- A record with the flag denies the ids that were hashed. -/
theorem exists_denied_of_flag (hlong : ¬ getRequiredBytes ids ≤ maxBytesLen c)
    {old encode : BitSetSIMD} (hnew : Rewritten c ids (dynamicChoose c ids) old encode)
    (hflag : encode.getFirstBit = true) (tail : Nat → Byte) :
    ∃ w ∈ ids, testBits c tail encode w = .nonNeighbor := by
  obtain ⟨id, hid⟩ := exists_outside hc hlong
  refine ⟨id, (DeltaSIMDEncode.mem_iff_inside_or_outside ids _ id).mpr (Or.inr hid), ?_⟩
  unfold testBits DeltaSIMDEncode.testBits
  rw [hflag, if_pos rfl, hnew.findDecodable_eq hc h.lt hread]
  by_cases hsize : (dynamicChoose c ids).blockSize = 0
  · rw [if_pos hsize]
  · obtain ⟨res, hres, hne, -⟩ := find_hashed hc h hsize hid
    rw [if_neg hsize, hres, if_neg hne]

omit hread in
/-- Where the hash bits are read as such, a fresh record of a list that is not read back
    denies one of its ids. -/
theorem readsBackSorted_iff (hread : getRequiredBytes ids ≤ maxBytesLen c ∨ ¬ Misread c ids)
    (tail : Nat → Byte) :
    ReadsBackSorted c ids ↔ ∀ w ∈ ids,
      testBits c tail (encodeBits c ids (ofBitSize c.perEncodeBitSize)) w ≠ .nonNeighbor := by
  have hfresh := isRecord_ofBitSize c
  constructor
  · intro hback w hw
    exact (speaks_encodeBits hc hfresh ((readsBack_iff_sorted hc h).mpr hback)
      (Or.inr (DeltaSIMDEncode.fresh_header c).1) tail (h.lt w hw)).ne_nonNeighbor hw
  · intro hkeeps
    unfold ReadsBackSorted
    by_cases hfit : getRequiredBytes ids ≤ maxBytesLen c
    · rw [if_pos hfit]
      by_contra hlen
      refine hkeeps _ ?_ (denied_of_fits hc h hfit (by omega) hfresh tail)
      exact DeltaSIMDCodec.mem_iff_getD.mpr ⟨_, by omega, rfl⟩
    · have hread' := hread.resolve_left hfit
      have hnew := rewritten_encodeBits hc hfresh hfit
      rw [if_neg hfit]
      refine ⟨?_, hread', ?_⟩
      · by_contra hspill
        have hflag := hnew.flag
        rw [decide_eq_true (by omega), Bool.or_true] at hflag
        obtain ⟨w, hw, hdenied⟩ := exists_denied_of_flag hc h hread' hfit hnew hflag tail
        exact hkeeps w hw hdenied
      · by_contra hsize
        refine hkeeps _ ?_ (denied_of_block hc h hread' hnew (by omega) tail)
        rw [DeltaSIMDEncode.mem_iff_inside_or_outside ids (dynamicChoose c ids)]
        left
        exact DeltaSIMDCodec.mem_iff_getD.mpr
          ⟨_, by rw [(length_inside_le hc ids).1]; omega, rfl⟩

end Exact

/-! ## Section 4: The search with `HSIMD ≠ 0` -/

/-- A query answers as with `HSIMD = 0`, or it reports the id. -/
theorem testWith_cases (c : Config) (hsimd : Bool) (tail : Nat → Byte) (encode : BitSetSIMD)
    (w : Nat) :
    testWith c hsimd tail encode w = .neighbor ∨
      testWith c hsimd tail encode w = testBits c tail encode w := by
  cases hsimd with
  | false => exact Or.inr rfl
  | true =>
    have hfind := @findWithCountSIMD_cases (memory encode tail) encode.getEncodeSize w
    unfold testWith testBits DeltaSIMDEncode.testBits findDecodable findNonDecodable
    simp only [codecV3, codecV3SIMD, if_true]
    by_cases hzero : encode.getEncodeSize = 0
    · right
      simp only [if_pos hzero]
    · simp only [if_neg hzero]
      rcases hfind with hexist | hsame
      · left
        simp only [hexist, DeltaSIMDCodec.FindRes.val_eq_zero, if_true, ite_self]
      · right
        rw [hsame]
        rfl

end DeltaSIMDEncodeV3

end Vend
