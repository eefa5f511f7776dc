import Vend.Vend.HybridVend

/-! # The verdicts of `HybridEncode`

    `encode/single/hybrid_encode.{h,cpp}`, apart from any graph: one vertex or two
    vertices are encoded from given lists, and the records are queried.

    A record is exact up to `Uncertain` about every list it is written from
    (`exactUpToUncertain_iff`). `Decode` reads the header of a record once and for
    all, and the queries on what it returns agree with the direct ones
    (`cachedAgrees_iff`). Both have the same limits: with
    `VERTEX_SIZE = 2^32 - 1` there are no records, and the `int` counter of
    `HashCount::ReConstruct` does not reach the end of a list of `2^31` ids.
-/

namespace Vend

open BitSetSIMD

namespace HybridEncode

/-! ## Section 1: Model -/

/-- `EncodeVertex(vertex_id, neighbors)` where it has a result. The vertex needs a
    record, and the loop over `int i` in `ReConstruct` must not run past the largest
    `int`. A list of `2^32` ids or more, whose size `neighbor_size` cuts off, is
    not described. -/
def encodeVertexAt (c : Config) (vertexId : Nat) (neighbors : List Nat) (encodes : Records) :
    Option Records :=
  if c.maxKCoreSize < neighbors.length ∧ 2 ^ 31 ≤ neighbors.length % 2 ^ 32 then none
  else encodes.updateAt vertexId (encodeBits c neighbors)

/-- `Encode::DecodeInfo`. -/
structure DecodeInfo where
  decodable : Bool
  /-- A `uint16_t`. -/
  blockNum : Nat
  /-- A `uint16_t`. -/
  hashBegin : Nat
  min : Nat
  max : Nat

/-- `GetBlockModel(BitSetSIMD &encode)`, which tests the bits in another order. -/
def getBlockModelOf (encode : BitSetSIMD) : BlockType :=
  if encode.getSecondBit then .rightMost
  else if encode.getThridBit then .middle
  else .leftMost

/-- `Decode(vertex, decode_info)` on the record of the vertex. For a decodable
    record only the flag is written. -/
def decode (c : Config) (encode : BitSetSIMD) (info : DecodeInfo) : DecodeInfo :=
  if encode.isOne 0 then { info with decodable := true }
  else
    let blockNum := getBlockNum c encode
    if blockNum = 0 then
      { decodable := false, blockNum := blockNum, hashBegin := c.blockBeginIndex % 2 ^ 16,
        min := 0, max := 0 }
    else
      let type := getBlockModelOf encode
      { decodable := false
        blockNum := blockNum
        hashBegin := (c.blockBeginIndex + blockNum * c.vertexBitSize) % 2 ^ 16
        min :=
          if type.val &&& 0x0d ≠ 0 then encode.blockGet c.blockBeginIndex c.vertexBitSize else 0
        max :=
          if type.val &&& 0x0b ≠ 0 then
            encode.blockGet (c.blockBeginIndex + (blockNum - 1) * c.vertexBitSize) c.vertexBitSize
          else c.vertexIdUpper }

/-- `NonNeighborTest(vertex1, decode_info1, vertex2)`. The range test is one
    comparison of `uint32_t` differences. -/
def testInfo (c : Config) (encode : BitSetSIMD) (info : DecodeInfo) (vertex2 : Nat) : PairType :=
  if info.decodable then encode.blockFind 1 c.vertexBitSize c.maxKCoreSize vertex2
  else if sub32 vertex2 info.min ≤ sub32 info.max info.min then
    encode.blockFind c.blockBeginIndex c.vertexBitSize info.blockNum vertex2
  else if info.hashBegin = c.perEncodeBitSize ∨ encode.isOne (hash c vertex2 info.hashBegin) then
    .uncertain
  else .nonNeighbor

/-- `NEpairTest(vertex1, decode_info1, vertex2, decode_info2)`. -/
def nePairTestInfo (c : Config) (encodes : Records) (vertex1 : Nat) (info1 : DecodeInfo)
    (vertex2 : Nat) (info2 : DecodeInfo) : PairType :=
  let type1 := testInfo c (encodes.record vertex1) info1 vertex2
  let type2 := testInfo c (encodes.record vertex2) info2 vertex1
  if info1.decodable && !info2.decodable then type1
  else if !info1.decodable && info2.decodable then type2
  else if info1.decodable && info2.decodable then
    if type1.val &&& 0x01 ≠ 0 then .neighbor else type2
  else if type1.val &&& 0x03 ≠ 0 then type1 else type2

/-! ## Section 2: When `EncodeVertex` has a result -/

section Defined

variable {c : Config} {vertexId : Nat} {neighbors : List Nat} {encodes : Records}

theorem encodeVertexAt_eq_some (hlt : vertexId < encodes.length)
    (hlen : neighbors.length < 2 ^ 31) :
    encodeVertexAt c vertexId neighbors encodes =
      some (encodeVertex c vertexId neighbors encodes) := by
  have hmod : neighbors.length % 2 ^ 32 = neighbors.length := Nat.mod_eq_of_lt (by omega)
  rw [encodeVertexAt, if_neg (by omega), Records.updateAt, if_pos hlt]
  rfl

/-- On new records. -/
theorem encodeVertexAt_constructed (hv : c.vertexSize + 1 < 2 ^ 32) (hle : vertexId ≤ c.vertexSize)
    (hlen : neighbors.length < 2 ^ 31) :
    encodeVertexAt c vertexId neighbors (Records.constructed c) =
      some (encodeVertex c vertexId neighbors (Records.fresh c)) := by
  rw [Records.constructed_eq hv]
  exact encodeVertexAt_eq_some (Records.lt_length_fresh hle) hlen

/-- Two calls on new records. -/
theorem encodeVertexAt_bind_constructed (hv : c.vertexSize + 1 < 2 ^ 32) {u v : Nat}
    (hu : u ≤ c.vertexSize) (hle : v ≤ c.vertexSize) {lu lv : List Nat}
    (hlenu : lu.length < 2 ^ 31) (hlenv : lv.length < 2 ^ 31) :
    (encodeVertexAt c u lu (Records.constructed c)).bind (encodeVertexAt c v lv) =
      some (encodeVertex c v lv (encodeVertex c u lu (Records.fresh c))) := by
  have hlt : v < (encodeVertex c u lu (Records.fresh c)).length := by
    rw [encodeVertex, Records.length_update]
    exact Records.lt_length_fresh hle
  rw [encodeVertexAt_constructed hv hu hlenu, Option.bind_some, encodeVertexAt_eq_some hlt hlenv]

/-- A list with a result is short enough, up to the lengths that are not described. -/
theorem length_lt_of_encodeVertexAt (hc : c.Packed) {encodes' : Records}
    (h : encodeVertexAt c vertexId neighbors encodes = some encodes')
    (hlen : neighbors.length < 2 ^ 32) : neighbors.length < 2 ^ 31 := by
  by_contra hlong
  have hslots := hc.maxKCoreSize_lt
  have hmod : neighbors.length % 2 ^ 32 = neighbors.length := Nat.mod_eq_of_lt hlen
  rw [encodeVertexAt, if_pos ⟨by omega, by omega⟩] at h
  cases h

/-- The constructor of `EncodeBitSet` leaves no record when `VERTEX_SIZE + 1` wraps. -/
theorem vertexSize_lt_of_encodeVertexAt {encodes' : Records}
    (h : encodeVertexAt c vertexId neighbors (Records.constructed c) = some encodes') :
    c.vertexSize + 1 < 2 ^ 32 := by
  by_contra hv
  rw [encodeVertexAt, Records.constructed_eq_nil hv] at h
  split at h
  · cases h
  · simp [Records.updateAt] at h

end Defined

/-- The record of the vertex that is encoded first. -/
theorem record_encodeVertex_fresh {c : Config} {vertexId : Nat} (hle : vertexId ≤ c.vertexSize)
    (neighbors : List Nat) :
    (encodeVertex c vertexId neighbors (Records.fresh c)).record vertexId =
      encodeBits c neighbors (ofBitSize c.perEncodeBitSize) := by
  rw [encodeVertex, Records.record_update _ _ (Records.lt_length_fresh hle), if_pos rfl, Records.record_fresh hle]

/-! ## Section 3: One record is exact up to `Uncertain` -/

/-- The vertex can be encoded from the list on cleared records, and what
    `NonNeighborTest` says afterwards is true. -/
def ExactUpToUncertain (c : Config) (v : Nat) (ids : List Nat) : Prop :=
  ∃ encodes, encodeVertexAt c v ids (Records.constructed c) = some encodes ∧
    ∀ w, 1 ≤ w → w ≤ c.vertexSize →
      (nonNeighborTest c false encodes v w = .neighbor → w ∈ ids) ∧
      (nonNeighborTest c false encodes v w = .nonNeighbor → w ∉ ids) ∧
      (ids.length ≤ c.maxKCoreSize → nonNeighborTest c false encodes v w ≠ .uncertain)

/-- A record is exact up to `Uncertain` when there are records and the loop counter
    reaches the end of the list. -/
theorem exactUpToUncertain_iff {c : Config} (hc : c.Packed) {v : Nat} (hle : v ≤ c.vertexSize)
    {ids : List Nat} (hids : IdList c ids) (hsorted : ids.Pairwise (· ≤ ·)) :
    (c.vertexSize + 1 < 2 ^ 32 ∧ ids.length < 2 ^ 31 → ExactUpToUncertain c v ids) ∧
    (ids.length < 2 ^ 32 → ExactUpToUncertain c v ids →
      c.vertexSize + 1 < 2 ^ 32 ∧ ids.length < 2 ^ 31) := by
  constructor
  · intro ⟨hv, hlen⟩
    refine ⟨_, encodeVertexAt_constructed hv hle hlen, fun w hw _ => ?_⟩
    rw [nonNeighborTest, record_encodeVertex_fresh hle]
    have hspeaks := speaks_encodeBits_fresh hc hv hids hsorted (by omega) false hw
    refine ⟨hspeaks.stored_of_neighbor, fun htest hmem => hspeaks.ne_nonNeighbor hmem htest, ?_⟩
    intro hfit
    apply hspeaks.ne_uncertain
    rw [isOne_encodeBits hc hv hids (by omega) (isRecord_ofBitSize c), decide_eq_true hfit]
  · rintro hlen ⟨encodes, henc, -⟩
    exact ⟨vertexSize_lt_of_encodeVertexAt henc, length_lt_of_encodeVertexAt hc henc hlen⟩

/-- Eight neighbours on seven slots. -/
theorem exactUpToUncertain_eight :
    RangeVend.tenConfig.Packed ∧ IdList RangeVend.tenConfig (List.range' 2 8) ∧
    ExactUpToUncertain RangeVend.tenConfig 1 (List.range' 2 8) := by
  have hids : IdList RangeVend.tenConfig (List.range' 2 8) := by
    unfold IdList
    decide
  exact ⟨RangeVend.tenConfig_packed, hids, (exactUpToUncertain_iff RangeVend.tenConfig_packed
    (v := 1) (by decide) hids (by decide)).1 ⟨by decide, by decide⟩⟩

/-- `2^31` copies of one id. -/
def copies : List Nat := List.replicate (2 ^ 31) 1

theorem copies_sorted : IdList RangeVend.tenConfig copies ∧ copies.Pairwise (· ≤ ·) := by
  refine ⟨fun id hid => ?_, List.pairwise_replicate.mpr (Or.inr (Nat.le_refl 1))⟩
  rw [List.eq_of_mem_replicate hid]
  exact ⟨Nat.le_refl 1, by decide⟩

theorem encodeVertexAt_copies (v : Nat) (encodes : Records) :
    encodeVertexAt RangeVend.tenConfig v copies encodes = none := by
  have hlen : copies.length = 2 ^ 31 := List.length_replicate
  rw [encodeVertexAt, if_pos ⟨by rw [hlen]; decide, by omega⟩]

/-- They cannot be encoded. -/
theorem not_exactUpToUncertain_copies :
    RangeVend.tenConfig.Packed ∧ IdList RangeVend.tenConfig copies ∧ copies.Pairwise (· ≤ ·) ∧
    ¬ ExactUpToUncertain RangeVend.tenConfig 2 copies := by
  refine ⟨RangeVend.tenConfig_packed, copies_sorted.1, copies_sorted.2, ?_⟩
  rintro ⟨encodes, henc, -⟩
  rw [encodeVertexAt_copies] at henc
  cases henc

/-! ## Section 4: `Decode` and the record it reads -/

theorem getBlockModelOf_eq (encode : BitSetSIMD) :
    getBlockModelOf encode = getBlockModel encode := by
  have key : ∀ b : Byte, (decide (b &&& 0x40 ≠ 0)) = b.getLsbD 6 ∧
      (decide (b &&& 0x20 ≠ 0)) = b.getLsbD 5 := by decide +kernel
  obtain ⟨hsecond, hthird⟩ := key (encode.byte 0)
  have hbit₁ : encode.isOne 1 = (encode.byte 0).getLsbD 6 := isOne_eq_bit _ _
  have hbit₂ : encode.isOne 2 = (encode.byte 0).getLsbD 5 := isOne_eq_bit _ _
  unfold getBlockModelOf getBlockModel getSecondBit getThridBit
  rw [hsecond, hthird, hbit₁, hbit₂]
  cases (encode.byte 0).getLsbD 6 <;> cases (encode.byte 0).getLsbD 5 <;> rfl

@[simp] theorem decodable_decode (c : Config) (encode : BitSetSIMD) (info : DecodeInfo) :
    (decode c encode info).decodable = encode.isOne 0 := by
  unfold decode
  cases encode.isOne 0 with
  | true => rfl
  | false =>
    rw [if_neg Bool.false_ne_true]
    dsimp only
    split <;> rfl

/-- The one comparison of differences is the test of both bounds. -/
theorem sub32_le_iff {w min max : Nat} (hw : w < 2 ^ 32) (hle : min ≤ max) (hmax : max < 2 ^ 32) :
    sub32 w min ≤ sub32 max min ↔ ¬ (w < min ∨ w > max) := by
  rw [sub32_of_le hle hmax]
  by_cases hlt : w < min
  · -- the difference wraps around, behind every difference inside the range
    have hwrap : sub32 w min = w + 2 ^ 32 - min := by
      unfold sub32
      omega
    omega
  · rw [sub32_of_le (by omega) hw]
    omega

section Decode

variable {c : Config} {encode : BitSetSIMD} (hflag : encode.isOne 0 = false)
include hflag

theorem decode_of_empty (hnum : getBlockNum c encode = 0) (info : DecodeInfo) :
    decode c encode info = ⟨false, 0, c.blockBeginIndex % 2 ^ 16, 0, 0⟩ := by
  rw [decode, if_neg (by simp [hflag])]
  simp only [hnum, if_true]

/-- The bit masks of `Decode` open the range on the side of the model. -/
theorem decode_of_pos (hnum : getBlockNum c encode ≠ 0) (info : DecodeInfo) :
    decode c encode info =
      ⟨false, getBlockNum c encode,
        (c.blockBeginIndex + getBlockNum c encode * c.vertexBitSize) % 2 ^ 16,
        (blockRange c encode).1, (blockRange c encode).2⟩ := by
  rw [decode, if_neg (by simp [hflag])]
  simp only [if_neg hnum, getBlockModelOf_eq, blockRange, Config.blockBeginIndex]
  cases getBlockModel encode <;> simp [BlockType.val]

end Decode

/-- The first id of a sorted block is at most the last one. -/
theorem ends_of_sorted {block : List Nat} {bound : Nat} (hpos : 0 < block.length)
    (hsorted : block.Pairwise (· ≤ ·)) (hle : ∀ id ∈ block, id ≤ bound) :
    block[0] ≤ block[block.length - 1] ∧ block[block.length - 1] ≤ bound := by
  refine ⟨?_, hle _ (List.getElem_mem (by omega))⟩
  rcases Nat.eq_zero_or_pos (block.length - 1) with hone | hmany
  · simp [hone]
  · exact List.pairwise_iff_getElem.mp hsorted 0 _ hpos (by omega) hmany

/-- A cached query answers like the direct one on every record that `EncodeVertex`
    leaves. -/
theorem testInfo_decode {c : Config} (hc : c.Packed) (hv : c.vertexSize + 1 < 2 ^ 32)
    {ids : List Nat} (hids : IdList c ids) (hsorted : ids.Pairwise (· ≤ ·))
    (hlen : ids.length < 2 ^ 32 - 1) {bitset : BitSetSIMD} (hrec : IsRecord c bitset)
    (info : DecodeInfo) {w : Nat} (hw : w ≤ c.vertexSize) :
    testInfo c (encodeBits c ids bitset) (decode c (encodeBits c ids bitset) info) w =
      testBits c false (encodeBits c ids bitset) w := by
  by_cases hfit : ids.length ≤ c.maxKCoreSize
  · have hflag := (fullRecord_encodeBits hc hrec hids hfit).flag
    rw [testInfo, decodable_decode, if_pos hflag, testBits, if_pos hflag]
    rfl
  · obtain ⟨type, before, block, after, rfl, hcand, hblock⟩ :=
      holdsCandidate_encodeBits hc hids hlen hv (by omega) hrec
    generalize encodeBits c (before ++ block ++ after) bitset = encode at hblock ⊢
    have hnum := hblock.num
    have hfits := hc.block_le_of_le hcand.length_le
    have hper := hc.perEncodeBitSize_le
    rw [testBits, if_neg (by simp [hblock.flag])]
    by_cases htype : type = .fullHash
    · -- no block: the range is empty on both sides
      have hempty := hcand.fullHash htype
      have hrange := blockRange_of_empty hblock htype hempty
      subst hempty
      rw [decode_of_empty hblock.flag hnum]
      have hiff : sub32 w 0 ≤ sub32 0 0 ↔ ¬ (w < 0 ∨ w > 0) :=
        sub32_le_iff (by omega) (Nat.le_refl 0) (by omega)
      have hbegin : (3 + c.logK) % 2 ^ 16 = 3 + c.logK := Nat.mod_eq_of_lt (by omega)
      simp only [testInfo, hnum, hrange, hiff, hbegin, Config.blockBeginIndex, Bool.false_eq_true,
        if_false, ite_not, List.length_nil, Nat.zero_mul, Nat.zero_add]
      rfl
    · have hpos := hcand.nonempty htype
      have hrange := blockRange_of_pos hv hblock hpos htype
      rw [List.append_assoc, List.pairwise_append, List.pairwise_append] at hsorted
      have hordered : (blockRange c encode).1 ≤ (blockRange c encode).2 ∧
          (blockRange c encode).2 < 2 ^ 32 := by
        obtain ⟨hends, hlast⟩ := ends_of_sorted hpos hsorted.2.1.1
          fun id hid => (hids id (by simp [hid])).2
        rw [hrange]
        constructor <;> dsimp only <;> split <;> try split
        all_goals omega
      rw [decode_of_pos hblock.flag (by omega)]
      have hiff := sub32_le_iff (w := w) (by omega) hordered.1 hordered.2
      have hbegin : (3 + c.logK + block.length * c.vertexBitSize) % 2 ^ 16 =
          block.length * c.vertexBitSize + 3 + c.logK := by omega
      simp only [testInfo, hnum, hiff, hbegin, Config.blockBeginIndex, Bool.false_eq_true,
        if_false, ite_not]
      rfl

/-! ## Section 5: Cached and direct verdicts on pairs -/

/-- Encode two vertices on cleared records. -/
def encodePair (c : Config) (u v : Nat) (lu lv : List Nat) : Option Records :=
  (encodeVertexAt c u lu (Records.constructed c)).bind (encodeVertexAt c v lv)

/-- The two vertices can be encoded and, unless two undecodable records know
    different things about the pair, the cached verdict is the direct one, whatever
    the two `DecodeInfo` held before `Decode`. -/
def CachedAgrees (c : Config) (u v : Nat) (lu lv : List Nat) : Prop :=
  ∃ encodes, encodePair c u v lu lv = some encodes ∧
    ((isDecodable encodes u = false → isDecodable encodes v = false → (v ∈ lu ↔ u ∈ lv)) →
      ∀ infoU infoV, nePairTestInfo c encodes u (decode c (encodes.record u) infoU) v
        (decode c (encodes.record v) infoV) = nePairTest c false encodes u v)

/-- The short-circuits of the cached verdict on what two records say. -/
theorem nePairTestInfo_eq {c : Config} {encodes : Records} {u v : Nat} {info₁ info₂ : DecodeInfo}
    {s₁ s₂ : Prop}
    (h₁ : Speaks info₁.decodable s₁ (testInfo c (encodes.record u) info₁ v))
    (h₂ : Speaks info₂.decodable s₂ (testInfo c (encodes.record v) info₂ u))
    (hsame : info₁.decodable = false → info₂.decodable = false → (s₁ ↔ s₂)) :
    nePairTestInfo c encodes u info₁ v info₂ =
      combine info₁.decodable info₂.decodable (testInfo c (encodes.record u) info₁ v)
        (testInfo c (encodes.record v) info₂ u) := by
  unfold nePairTestInfo
  generalize testInfo c (encodes.record u) info₁ v = t₁ at h₁ ⊢
  generalize testInfo c (encodes.record v) info₂ u = t₂ at h₂ ⊢
  generalize info₁.decodable = d₁ at h₁ hsame ⊢
  generalize info₂.decodable = d₂ at h₂ hsame ⊢
  have hne₁ : d₁ = true → t₁ ≠ .uncertain := h₁.ne_uncertain
  have hne₂ : d₂ = true → t₂ ≠ .uncertain := h₂.ne_uncertain
  -- two undecodable records: the first verdict may not overrule the second
  have hconflict : d₁ = false → d₂ = false → t₁ = .nonNeighbor → t₂ ≠ .neighbor := by
    intro hd₁ hd₂ ht₁ ht₂
    exact h₁.ne_nonNeighbor ((hsame hd₁ hd₂).mpr (h₂.stored_of_neighbor ht₂)) ht₁
  cases d₁ <;> cases d₂ <;> cases t₁ <;> cases t₂ <;>
    simp_all [combine, PairType.min, PairType.val]

theorem cachedAgrees_iff {c : Config} (hc : c.Packed) {u v : Nat} (hpair : IsPair c u v)
    {lu lv : List Nat} (hlu : IdList c lu) (hlv : IdList c lv) (hsu : lu.Pairwise (· ≤ ·))
    (hsv : lv.Pairwise (· ≤ ·)) :
    (c.vertexSize + 1 < 2 ^ 32 ∧ lu.length < 2 ^ 31 ∧ lv.length < 2 ^ 31 →
      CachedAgrees c u v lu lv) ∧
    (lu.length < 2 ^ 32 → lv.length < 2 ^ 32 → CachedAgrees c u v lu lv →
      c.vertexSize + 1 < 2 ^ 32 ∧ lu.length < 2 ^ 31 ∧ lv.length < 2 ^ 31) := by
  obtain ⟨hu, hu', hv, hv', hne⟩ := hpair
  constructor
  · intro ⟨hsize, hlenu, hlenv⟩
    have hltu := Records.lt_length_fresh hu'
    have hltv : v < (encodeVertex c u lu (Records.fresh c)).length := by
      rw [encodeVertex, Records.length_update]
      exact Records.lt_length_fresh hv'
    refine ⟨_, encodeVertexAt_bind_constructed hsize hu' hv' hlenu hlenv, ?_⟩
    generalize hencodes : encodeVertex c v lv (encodeVertex c u lu (Records.fresh c)) = encodes
    -- the two records, each written on cleared bits
    have hrecu : encodes.record u = encodeBits c lu (ofBitSize c.perEncodeBitSize) := by
      rw [← hencodes, encodeVertex, Records.record_update _ _ hltv, if_neg hne,
        record_encodeVertex_fresh hu']
    have hrecv : encodes.record v = encodeBits c lv (ofBitSize c.perEncodeBitSize) := by
      rw [← hencodes, encodeVertex, Records.record_update _ _ hltv, if_pos rfl, encodeVertex,
        Records.record_update _ _ hltu, if_neg (Ne.symm hne), Records.record_fresh hv']
    intro hsame infoU infoV
    have hfresh := isRecord_ofBitSize c
    have htestu := testInfo_decode hc hsize hlu hsu (by omega) hfresh infoU hv'
    have htestv := testInfo_decode hc hsize hlv hsv (by omega) hfresh infoV hu'
    have hspeaku := speaks_encodeBits_fresh hc hsize hlu hsu (by omega) false hv
    have hspeakv := speaks_encodeBits_fresh hc hsize hlv hsv (by omega) false hu
    rw [← hrecu] at htestu hspeaku
    rw [← hrecv] at htestv hspeakv
    -- the cached verdicts are the direct ones, with the flag of the record
    have hinfou : Speaks (decode c (encodes.record u) infoU).decodable (v ∈ lu)
        (testInfo c (encodes.record u) (decode c (encodes.record u) infoU) v) := by
      rw [htestu, decodable_decode]
      exact hspeaku
    have hinfov : Speaks (decode c (encodes.record v) infoV).decodable (u ∈ lv)
        (testInfo c (encodes.record v) (decode c (encodes.record v) infoV) u) := by
      rw [htestv, decodable_decode]
      exact hspeakv
    rw [nePairTestInfo_eq hinfou hinfov, nePairTest_eq_combine, htestu, htestv, decodable_decode,
      decodable_decode]
    · rfl
    · rw [decodable_decode, decodable_decode]
      exact hsame
  · rintro hlenu hlenv ⟨encodes, henc, -⟩
    -- both calls return
    obtain ⟨first, hfirst, hsecond⟩ := Option.bind_eq_some_iff.mp henc
    exact ⟨vertexSize_lt_of_encodeVertexAt hfirst, length_lt_of_encodeVertexAt hc hfirst hlenu,
      length_lt_of_encodeVertexAt hc hsecond hlenv⟩

/-- Two undecodable records of neighbours. -/
theorem cachedAgrees_nine :
    RangeVend.tenConfig.maxKCoreSize < 8 ∧
    CachedAgrees RangeVend.tenConfig 1 2 (List.range' 2 8) (1 :: List.range' 3 7) := by
  have hlu : IdList RangeVend.tenConfig (List.range' 2 8) := by
    unfold IdList
    decide
  have hlv : IdList RangeVend.tenConfig (1 :: List.range' 3 7) := by
    unfold IdList
    decide
  exact ⟨by decide, (cachedAgrees_iff RangeVend.tenConfig_packed (by decide) hlu hlv (by decide)
    (by decide)).1 ⟨by decide, by decide, by decide⟩⟩

/-- With `2^31` copies of one id there is nothing to compare. -/
theorem not_cachedAgrees_copies :
    RangeVend.tenConfig.Packed ∧ IsPair RangeVend.tenConfig 2 3 ∧
    IdList RangeVend.tenConfig copies ∧ copies.Pairwise (· ≤ ·) ∧
    ¬ CachedAgrees RangeVend.tenConfig 2 3 copies [] := by
  refine ⟨RangeVend.tenConfig_packed, by decide, copies_sorted.1, copies_sorted.2, ?_⟩
  rintro ⟨encodes, henc, -⟩
  rw [encodePair, encodeVertexAt_copies] at henc
  cases henc

end HybridEncode

end Vend
