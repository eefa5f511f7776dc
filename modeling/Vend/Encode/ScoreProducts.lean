import Vend.Encode.ScoreCount

/-! # Products in the scores of `DynamicChoose`

    `FullHashScoreCount` multiplies `VERTEX_SIZE` by the hash bits that stay free, and
    `ScoreCount` multiplies two differences of ids by hash bits, all in 32 bits. The records
    have at most a few hundred bits, but `VERTEX_SIZE` has no bound besides its type.

    The largest product is that of the full hash when all neighbours share one bit. When it
    fits, every product of the search does (`noOverflow_of_small`), and the scores are the exact
    floors. When it does not, there is a list whose ids share one bit (`multiples`).
-/

namespace Vend

open SlotCount DeltaSIMDCodec

namespace DeltaSIMDEncode

/-! ## Section 1: Exact scores -/

/-- `FullHashScoreCount` from the score 0 computes the share of the free bits exactly. -/
structure FullHashExact (c : Config) (ids : List Nat) (hashBits : Nat) : Prop where
  product : c.vertexSize * sub32 hashBits (used (ids.map (· % hashBits))) % 2 ^ 32 =
    c.vertexSize * (hashBits - used (ids.map (· % hashBits)))
  score : fullHashScoreCount c ids hashBits 0 =
    c.vertexSize * (hashBits - used (ids.map (· % hashBits))) / hashBits

/-- `ScoreCount` computes the products that it gets to exactly: the one of the limit, for a
    block that covers less than `score` ids, and the one of the new score, for a block that is
    accepted. -/
structure ScoreExact (c : Config) (block : BlockInfo) (ids : List Nat) (hashBits score : Nat) :
    Prop where
  limit : hashBits ≠ 0 → currentScore c block ids < score →
    sub32 score (currentScore c block ids) * hashBits % 2 ^ 32 =
      (score - currentScore c block ids) * hashBits
  share : hashBits ≠ 0 → ∀ new, scoreCount c block ids hashBits score = some new →
    sub32 c.vertexSize (currentScore c block ids) *
        sub32 hashBits (occupied block ids hashBits) % 2 ^ 32 =
      (c.vertexSize - currentScore c block ids) * (hashBits - occupied block ids hashBits) ∧
    new = currentScore c block ids + (c.vertexSize - currentScore c block ids) *
      (hashBits - occupied block ids hashBits) / hashBits

/-- All products of `DynamicChoose` are exact. -/
structure ProductsExact (c : Config) (ver : Version) (ids : List Nat) : Prop where
  fullHash : FullHashExact c ids (maxBytesLen c * 8)
  step : EveryStep c ver ids fun score cand => ScoreExact c cand.block ids cand.hashBits score

/-! ## Section 2: One call -/

theorem mod_eq_self_iff (n : Nat) : n % 2 ^ 32 = n ↔ n < 2 ^ 32 := by
  constructor
  · intro h
    rw [← h]
    exact Nat.mod_lt _ (by decide)
  · exact Nat.mod_eq_of_lt

/-- Only bits of the hash area are set. -/
theorem used_mod_le (ids : List Nat) {hashBits : Nat} (hpos : 0 < hashBits) :
    used (ids.map (· % hashBits)) ≤ hashBits := by
  apply used_le
  intro i hi
  obtain ⟨id, -, rfl⟩ := List.mem_map.mp hi
  exact Nat.mod_lt id hpos

/-- A neighbour sets a bit. -/
theorem used_pos {ids : List Nat} (hne : ids ≠ []) (hashBits : Nat) :
    1 ≤ used (ids.map (· % hashBits)) := by
  obtain ⟨id, rest, rfl⟩ := List.exists_cons_of_ne_nil hne
  rw [List.map_cons, used_cons]
  split
  next hmem => exact Finset.card_pos.mpr ⟨_, List.mem_toFinset.mpr hmem⟩
  next => exact Nat.le_add_left _ _

/-- The score of the full hash by the bits that the neighbours set. -/
theorem fullHashScoreCount_eq (c : Config) (ids : List Nat) {hashBits : Nat} (hpos : 0 < hashBits)
    (hlt : hashBits < 2 ^ 32) :
    fullHashScoreCount c ids hashBits 0 =
      c.vertexSize * (hashBits - used (ids.map (· % hashBits))) % 2 ^ 32 / hashBits := by
  have hle := used_mod_le ids hpos
  -- with the score 0 the limit is the whole hash area
  have hlimit : sub32 hashBits (0 * hashBits % 2 ^ 32 / c.vertexSize) = hashBits := by
    rw [Nat.zero_mul, Nat.zero_mod, Nat.zero_div, sub32_of_le (Nat.zero_le _) hlt, Nat.sub_zero]
  have hcount := @countHash_spec hashBits hashBits hpos ids [] _ (marks_replicate hashBits)
  rw [List.append_nil] at hcount
  rcases hcount with ⟨-, hcount⟩ | ⟨hmore, -⟩
  · rw [show used [] = 0 from rfl] at hcount
    unfold fullHashScoreCount
    simp only [hlimit, hcount]
    rw [if_pos hle, sub32_of_le hle hlt]
  · omega

theorem fullHashExact_iff (c : Config) (ids : List Nat) {hashBits : Nat} (hpos : 0 < hashBits)
    (hlt : hashBits < 2 ^ 32) :
    FullHashExact c ids hashBits ↔
      c.vertexSize * (hashBits - used (ids.map (· % hashBits))) < 2 ^ 32 := by
  have hle := used_mod_le ids hpos
  constructor
  · intro h
    have hproduct := h.product
    rwa [sub32_of_le hle hlt, mod_eq_self_iff] at hproduct
  · intro h
    refine ⟨by rwa [sub32_of_le hle hlt, mod_eq_self_iff], ?_⟩
    rw [fullHashScoreCount_eq c ids hpos hlt, Nat.mod_eq_of_lt h]

section Call

variable {c : Config} {block : BlockInfo} {ids : List Nat} {hashBits score : Nat}
  (hcur : currentScore c block ids ≤ c.vertexSize) (hbits : hashBits < 2 ^ 32)
include hcur hbits

/-- The products of a call are exact when they fit. -/
theorem scoreExact_iff (hscore : score < 2 ^ 32) :
    ScoreExact c block ids hashBits score ↔ NoOverflow c block ids hashBits score := by
  have hV := c.vertexSize_lt
  have hrest := sub32_of_le hcur hV
  rcases Nat.eq_zero_or_pos hashBits with rfl | hpos
  · refine iff_of_true ⟨fun h => absurd rfl h, fun h => absurd rfl h⟩ ⟨fun _ => ?_, fun _ => ?_⟩
    · -- without hash bits no product is computed
      rw [Nat.mul_zero]
      exact Nat.two_pow_pos _
    · rw [Nat.zero_sub, Nat.mul_zero]
      exact Nat.two_pow_pos _
  · have hne : hashBits ≠ 0 := Nat.ne_of_gt hpos
    have hocc := occupied_le hpos block ids
    constructor
    · intro h
      refine ⟨fun hless => ?_, fun hsome => ?_⟩
      · have hlimit := h.limit hne hless
        rwa [sub32_of_le (Nat.le_of_lt hless) hscore, mod_eq_self_iff] at hlimit
      · -- the block is accepted, so the second product is computed
        obtain ⟨new, hnew⟩ := Option.isSome_iff_exists.mp hsome
        have hshare := (h.share hne new hnew).1
        rwa [hrest, sub32_of_le hocc hbits, mod_eq_self_iff, ← hrest] at hshare
    · intro h
      refine ⟨fun _ hless => ?_, fun _ new hnew => ?_⟩
      · rw [sub32_of_le (Nat.le_of_lt hless) hscore, mod_eq_self_iff]
        exact h.limit hless
      · have hshare := h.share (by rw [hnew]; rfl)
        rw [hrest] at hshare
        have heq := ((scoreCount_eq_some_iff hpos hbits).mp hnew).2.2
        rw [hrest, Nat.mod_eq_of_lt hshare] at heq
        -- the share of the rest is at most the rest, so the sum fits as well
        have hle := @share_le (c.vertexSize - currentScore c block ids) hashBits
          (hashBits - occupied block ids hashBits) hpos (Nat.sub_le _ _)
        rw [hrest, sub32_of_le hocc hbits, mod_eq_self_iff, ← heq]
        exact ⟨hshare, Nat.mod_eq_of_lt (by omega)⟩

omit hbits in
/-- An exact score is at most the number of vertices. -/
theorem ScoreExact.le (h : ScoreExact c block ids hashBits score) {new : Nat}
    (hnew : scoreCount c block ids hashBits score = some new) : new ≤ c.vertexSize := by
  rcases Nat.eq_zero_or_pos hashBits with rfl | hpos
  · rw [scoreCount_zero] at hnew
    split at hnew
    · cases hnew
      exact hcur
    · cases hnew
  · rw [(h.share (Nat.ne_of_gt hpos) new hnew).2]
    have hle := @share_le (c.vertexSize - currentScore c block ids) hashBits
      (hashBits - occupied block ids hashBits) hpos (Nat.sub_le _ _)
    omega

omit hbits in
/-- With a bound on the bits and the score, the products fit. -/
theorem noOverflow_of_small {most : Nat} (hmost : hashBits ≤ most)
    (hsmall : c.vertexSize * most < 2 ^ 32) (hscore : score ≤ c.vertexSize) :
    NoOverflow c block ids hashBits score := by
  refine ⟨fun _ => ?_, fun _ => ?_⟩
  · exact Nat.lt_of_le_of_lt (Nat.mul_le_mul (by omega) hmost) hsmall
  · rw [sub32_of_le hcur c.vertexSize_lt]
    exact Nat.lt_of_le_of_lt (Nat.mul_le_mul (by omega) (by omega)) hsmall

end Call

/-! ## Section 3: The whole search -/

section Search

variable {c : Config} {ids : List Nat} (hids : IdList c ids) (hsorted : ids.Pairwise (· ≤ ·))
include hids hsorted

/-- A candidate covers no more ids than there are. -/
theorem currentScore_blockAt_le {i size : Nat} (hpos : 1 ≤ size) (hbound : i + size ≤ ids.length) :
    currentScore c (blockAt ids i size) ids ≤ c.vertexSize := by
  have hV := c.vertexSize_lt
  have hfirst := hids ids[i] (List.getElem_mem _)
  have hlast := hids ids[i + size - 1] (List.getElem_mem _)
  -- the ends of the block are ordered as their places are
  have hle : ids[i] ≤ ids[i + size - 1] := by
    rcases Nat.eq_or_lt_of_le hpos with rfl | hlt
    · exact Nat.le_refl _
    · exact List.pairwise_iff_getElem.mp hsorted _ _ _ _ (by omega)
  have hgetFirst : ids.getD i 0 = ids[i] := List.getD_eq_getElem _ _ (by omega)
  have hgetLast : ids.getD (i + size - 1) 0 = ids[i + size - 1] :=
    List.getD_eq_getElem _ _ (by omega)
  unfold blockAt currentScore
  dsimp only
  rw [hgetFirst, hgetLast]
  split
  next => rw [sub32_of_le hfirst.2 hV]; omega
  next => exact hlast.2
  next => rw [sub32_of_le hle (by omega)]; omega

/-- What the search scores: at most `VERTEX_SIZE` ids, and fewer bits than the full hash has. -/
theorem examined_spec {ver : Version} {cand : Candidate} (hcand : cand ∈ examined c ver ids) :
    currentScore c cand.block ids ≤ c.vertexSize ∧ cand.hashBits ≤ maxBytesLen c * 8 - 1 := by
  have hlt : ∀ id ∈ ids, id < 2 ^ 32 := fun id hid =>
    Nat.lt_of_le_of_lt (hids id hid).2 c.vertexSize_lt
  obtain ⟨i, size, hex, rfl⟩ := (mem_examined_iff hlt).mp hcand
  have hpos := Nat.le_trans (firstSize_pos ids i) hex.first_le
  refine ⟨currentScore_blockAt_le hids hsorted hpos hex.bound, ?_⟩
  have hbytes := length_le_getRequiredBytes ver ((ids.drop i).take size)
  have hbound := hex.bound
  rw [List.length_take, List.length_drop, Nat.min_eq_left (by omega)] at hbytes
  change (maxBytesLen c - getRequiredBytes ver ((ids.drop i).take size)) * 8 ≤ _
  omega

variable {ver : Version} (hper : c.perEncodeBitSize < 2 ^ 31)
include hper

/-- An exact call keeps the score below `VERTEX_SIZE`, and then the next call is exact. -/
theorem everyStep_of_step (hstep : ∀ before cand after,
      examined c ver ids = before ++ cand :: after → scoreAfter c ids before ≤ c.vertexSize →
      ScoreExact c cand.block ids cand.hashBits (scoreAfter c ids before)) :
    EveryStep c ver ids (fun score cand => ScoreExact c cand.block ids cand.hashBits score) ∧
    ∀ before after, examined c ver ids = before ++ after →
      scoreAfter c ids before ≤ c.vertexSize := by
  have hscore : ∀ before after, examined c ver ids = before ++ after →
      scoreAfter c ids before ≤ c.vertexSize := by
    refine scoreAfter_le_of_step hper fun before cand after hsplit hle => ?_
    have hexact := hstep before cand after hsplit hle
    have hmem : cand ∈ examined c ver ids := by simp [hsplit]
    obtain ⟨hcur, hbits⟩ := examined_spec hids hsorted hmem
    rw [scoreAfter_snoc]
    -- the score stays or is replaced by the exact one
    cases hnew : scoreCount c cand.block ids cand.hashBits (scoreAfter c ids before) with
    | none => exact hle
    | some new => exact hexact.le hcur hnew
  exact ⟨fun before cand after hsplit => hstep before cand after hsplit (hscore before _ hsplit),
    hscore⟩

/-- The products of a search are exact when they fit. -/
theorem productsExact_iff_noOverflow : ProductsExact c ver ids ↔
    c.vertexSize * (maxBytesLen c * 8 - used (ids.map (· % (maxBytesLen c * 8)))) < 2 ^ 32 ∧
    EveryStep c ver ids fun score cand =>
      NoOverflow c cand.block ids cand.hashBits score := by
  have hV := c.vertexSize_lt
  have hge := perEncodeBitSize_eq c
  have hge' := c.perEncodeBitSize_ge
  have hfull := @fullHashExact_iff c ids (maxBytesLen c * 8) (by omega) (by omega)
  have hcall : ∀ before cand after, examined c ver ids = before ++ cand :: after →
      scoreAfter c ids before ≤ c.vertexSize →
      (ScoreExact c cand.block ids cand.hashBits (scoreAfter c ids before) ↔
        NoOverflow c cand.block ids cand.hashBits (scoreAfter c ids before)) := by
    intro before cand after hsplit hscore
    have hmem : cand ∈ examined c ver ids := by simp [hsplit]
    obtain ⟨hcur, hbits⟩ := examined_spec hids hsorted hmem
    exact scoreExact_iff hcur (by omega) (by omega)
  constructor
  · intro h
    have hscore := (everyStep_of_step hids hsorted hper
      fun before cand after hsplit _ => h.step before cand after hsplit).2
    refine ⟨hfull.mp h.fullHash, fun before cand after hsplit => ?_⟩
    exact (hcall before cand after hsplit (hscore before _ hsplit)).mp
      (h.step before cand after hsplit)
  · intro h
    refine ⟨hfull.mpr h.1, (everyStep_of_step hids hsorted hper ?_).1⟩
    exact fun before cand after hsplit hscore =>
      (hcall before cand after hsplit hscore).mpr (h.2 before cand after hsplit)

/-- All products are exact when the one of a full hash with a single bit fits. -/
theorem productsExact_of_small (hne : ids ≠ [])
    (hsmall : c.vertexSize * (maxBytesLen c * 8 - 1) < 2 ^ 32) : ProductsExact c ver ids := by
  have hge := perEncodeBitSize_eq c
  have hge' := c.perEncodeBitSize_ge
  refine ⟨?_, (everyStep_of_step hids hsorted hper ?_).1⟩
  · refine (fullHashExact_iff c ids (by omega) (by omega)).mpr (Nat.lt_of_le_of_lt ?_ hsmall)
    have hused := used_pos hne (maxBytesLen c * 8)
    exact Nat.mul_le_mul_left _ (by omega)
  · intro before cand after hsplit hscore
    have hV := c.vertexSize_lt
    have hmem : cand ∈ examined c ver ids := by simp [hsplit]
    obtain ⟨hcur, hbits⟩ := examined_spec hids hsorted hmem
    exact (scoreExact_iff hcur (by omega) (by omega)).mpr
      (noOverflow_of_small hcur hbits hsmall hscore)

end Search

/-! ## Section 4: A list on one bit -/

/-- As many ids as there are bytes, all on hash bit 0. -/
def multiples (c : Config) : List Nat :=
  (List.range' 1 (maxBytesLen c)).map fun i => i * (maxBytesLen c * 8)

section

variable {c : Config} (hk : c.kSize ≤ 10)
include hk

theorem maxBytesLen_bounds : 3 ≤ maxBytesLen c ∧ maxBytesLen c ≤ 39 := by
  have hge := perEncodeBitSize_eq c
  have hge' := c.perEncodeBitSize_ge
  have hper : c.perEncodeBitSize = c.kSize * 32 := rfl
  omega

/-- The ids are there when the product with one bit does not fit. -/
theorem multiples_spec (hlarge : 2 ^ 32 ≤ c.vertexSize * (maxBytesLen c * 8 - 1)) :
    IdList c (multiples c) ∧ (multiples c).Pairwise (· < ·) := by
  obtain ⟨hlow, hhigh⟩ := maxBytesLen_bounds hk
  -- a product above 2^32 needs more vertices than the list has ids
  have hmany : 39 * (39 * 8) ≤ c.vertexSize := by
    by_contra hfew
    have hmul : c.vertexSize * (maxBytesLen c * 8 - 1) ≤ (39 * (39 * 8)) * (39 * 8) :=
      Nat.mul_le_mul (by omega) (by omega)
    omega
  constructor
  · intro id hid
    obtain ⟨i, hi, rfl⟩ := List.mem_map.mp hid
    obtain ⟨hi₁, hi₂⟩ := List.mem_range'_1.mp hi
    have hle : i * (maxBytesLen c * 8) ≤ 39 * (39 * 8) := Nat.mul_le_mul (by omega) (by omega)
    exact ⟨Nat.mul_pos hi₁ (by omega), Nat.le_trans hle hmany⟩
  · rw [multiples, List.pairwise_map]
    exact (List.pairwise_lt_range' 1).imp fun hlt => Nat.mul_lt_mul_of_pos_right hlt (by omega)

/-- Each takes a byte, and there is a control byte besides. -/
theorem multiples_long (ver : Version) : maxBytesLen c < getRequiredBytes ver (multiples c) := by
  have hbounds := maxBytesLen_bounds hk
  have hle := length_le_getRequiredBytes ver (multiples c)
  unfold GroupVarint.groups at hle
  rw [multiples, List.length_map, List.length_range'] at hle
  unfold multiples
  omega

theorem used_multiples :
    used ((multiples c).map (· % (maxBytesLen c * 8))) = 1 := by
  have hbounds := maxBytesLen_bounds hk
  -- multiples of the number of bits leave no remainder
  have hmem : ∀ i, i ∈ (multiples c).map (· % (maxBytesLen c * 8)) ↔ i ∈ [0] := by
    intro i
    rw [multiples, List.map_map, List.mem_singleton, List.mem_map]
    constructor
    · rintro ⟨k, -, rfl⟩
      exact Nat.mul_mod_left _ _
    · rintro rfl
      exact ⟨1, List.mem_range'_1.mpr (by omega), Nat.mul_mod_left _ _⟩
  rw [used_congr hmem]
  rfl

end

/-- For which configurations the products are exact whatever the list, and for which lists
    they are. The lists have fewer elements than an `int` can count. -/
theorem productsExact_iff {c : Config} (hk : c.kSize ≤ 10) :
    ((∀ ids, IdList c ids → ids.Pairwise (· ≤ ·) → ids.length < 2 ^ 31 →
      (∀ ver, maxBytesLen c < getRequiredBytes ver ids → ProductsExact c ver ids) ∧
      (maxBytesLen c < DeltaSIMDCodecV3.getRequiredBytes ids →
        FullHashExact c ids (maxBytesLen c * 8))) ↔
      c.vertexSize * (c.perEncodeBitSize - 9) < 2 ^ 32) ∧
    ∀ ids, IdList c ids → ids.Pairwise (· ≤ ·) → ids.length < 2 ^ 31 → ∀ ver,
      (ProductsExact c ver ids ↔
        c.vertexSize * (maxBytesLen c * 8 - used (ids.map (· % (maxBytesLen c * 8)))) < 2 ^ 32 ∧
        EveryStep c ver ids fun score cand =>
          NoOverflow c cand.block ids cand.hashBits score) := by
  have hbounds := maxBytesLen_bounds hk
  have hper := perEncodeBitSize_eq c
  have hbits : c.perEncodeBitSize - 9 = maxBytesLen c * 8 - 1 := by omega
  rw [hbits]
  refine ⟨⟨fun hall => ?_, fun hsmall ids hids hsorted _ => ⟨fun ver hlong => ?_, fun hlong => ?_⟩⟩,
    fun ids hids hsorted _ ver => productsExact_iff_noOverflow hids hsorted (by omega)⟩
  · by_contra hnot
    obtain ⟨hids, hsorted⟩ := multiples_spec hk (Nat.not_lt.mp hnot)
    have hlength : (multiples c).length < 2 ^ 31 := by
      rw [multiples, List.length_map, List.length_range']
      omega
    have hexact := (hall (multiples c) hids (hsorted.imp Nat.le_of_lt) hlength).1 .v0
      (multiples_long hk .v0)
    have hproduct := (fullHashExact_iff c _ (by omega) (by omega)).mp hexact.fullHash
    rw [used_multiples hk] at hproduct
    exact hnot hproduct
  · refine productsExact_of_small hids hsorted (by omega) (fun hnil => ?_) hsmall
    rw [hnil] at hlong
    exact absurd hlong (by cases ver <;> exact Nat.not_lt.mpr (Nat.zero_le _))
  · have hne : ids ≠ [] := fun hnil => by
      rw [hnil] at hlong
      exact absurd hlong (Nat.not_lt.mpr (Nat.zero_le _))
    have hused := used_pos hne (maxBytesLen c * 8)
    exact (fullHashExact_iff c ids (by omega) (by omega)).mpr
      (Nat.lt_of_le_of_lt (Nat.mul_le_mul_left _ (by omega)) hsmall)

/-- Records of four words over as many vertices as a graph of the configuration has. -/
def manyVertices : Config := Config.ofSizes 4 39454463 40 (by decide)

/-- Few vertices: the products fit. -/
theorem productsExact_iff_four : sixVertices.vertexSize * (sixVertices.perEncodeBitSize - 9) <
    2 ^ 32 ∧ ProductsExact sixVertices .v0 [3, 4, 5, 6] := by
  have hids : IdList sixVertices [3, 4, 5, 6] := by
    unfold IdList
    decide
  have hsmall : sixVertices.vertexSize * (sixVertices.perEncodeBitSize - 9) < 2 ^ 32 := by decide
  exact ⟨hsmall, ((@productsExact_iff sixVertices (by decide)).1.mpr hsmall _ hids
    (by decide) (by decide)).1 .v0 (by decide)⟩

/-- Fifteen ids on bit 0 of the hash area: 119 of its 120 bits are free, and 39454463 * 119
    is above `2^32`. -/
theorem not_productsExact_fifteen :
    IdList manyVertices (multiples manyVertices) ∧ (multiples manyVertices).Pairwise (· ≤ ·) ∧
    maxBytesLen manyVertices < getRequiredBytes .v0 (multiples manyVertices) ∧
    fullHashScoreCount manyVertices (multiples manyVertices) (maxBytesLen manyVertices * 8) 0 =
      3334281 ∧
    ¬ ProductsExact manyVertices .v0 (multiples manyVertices) := by
  have hk : manyVertices.kSize ≤ 10 := by decide
  obtain ⟨hids, hsorted⟩ := multiples_spec hk (by decide)
  refine ⟨hids, hsorted.imp Nat.le_of_lt, multiples_long hk .v0, ?_, fun hexact => ?_⟩
  · rw [fullHashScoreCount_eq _ _ (by decide) (by decide), used_multiples hk]
    decide
  · have hproduct := (fullHashExact_iff _ _ (by decide) (by decide)).mp hexact.fullHash
    rw [used_multiples hk] at hproduct
    exact absurd hproduct (by decide)

end DeltaSIMDEncode

end Vend
