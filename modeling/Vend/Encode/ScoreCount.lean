import Vend.Encode.BlockSearch
import Vend.Lib.SlotCount

/-! # Whether the score of `DynamicChoose` falls

    `ScoreCount` turns the best score so far into a limit on the hash bits that are set,
    and accepts a block whose other neighbours stay within it. The limit takes one integer
    division and the new score another one, and both round down.

    A block is exactly as good as the ids it covers and its share of the ids outside. When
    the best score falls between its worth and its worth with one more free bit, the limit
    lets it in and the new score is below the old one (`JustShort`). On all other calls the
    score does not fall (`keepsScore_iff`).
-/

namespace Vend

open SlotCount DeltaSIMDCodec

namespace DeltaSIMDEncode

/-! ## Section 1: The hash bits that are set -/

/-- The hash bits that the neighbours outside the block set. -/
def occupied (block : BlockInfo) (neighbors : List Nat) (hashBits : Nat) : Nat :=
  used ((block.outside neighbors).map (· % hashBits))

/-- The flags tell the bits that are set. -/
structure Marks (flags : List Bool) (hashBits : Nat) (seen : List Nat) : Prop where
  size_le : hashBits ≤ flags.length
  getD_eq : ∀ i < hashBits, flags.getD i false = decide (i ∈ seen)

theorem marks_replicate (hashBits : Nat) : Marks (List.replicate hashBits false) hashBits [] := by
  refine ⟨by rw [List.length_replicate], fun i hi => ?_⟩
  rw [List.getD_eq_getElem _ _ (by rwa [List.length_replicate]), List.getElem_replicate]
  rfl

theorem Marks.set {flags : List Bool} {hashBits : Nat} {seen : List Nat}
    (h : Marks flags hashBits seen) (v : Nat) :
    Marks (flags.set v true) hashBits (v :: seen) := by
  have hle := h.size_le
  refine ⟨by rw [List.length_set]; exact hle, fun i hi => ?_⟩
  rw [List.getD_eq_getElem _ _ (by rw [List.length_set]; omega), List.getElem_set]
  by_cases hiv : v = i
  · subst hiv
    simp
  · have hget := h.getD_eq i hi
    rw [List.getD_eq_getElem _ _ (by omega)] at hget
    have hne : i ≠ v := fun heq => hiv heq.symm
    rw [if_neg hiv, hget]
    simp [hne]

/-- The loop counts the bits up to the limit. Beyond the limit it may stop early. -/
theorem countHash_spec {hashBits limit : Nat} (hpos : 0 < hashBits) {ids seen : List Nat}
    {flags : List Bool} (hmarks : Marks flags hashBits seen) :
    used (ids.map (· % hashBits) ++ seen) ≤ limit ∧
        countHash hashBits limit ids flags (used seen) =
          used (ids.map (· % hashBits) ++ seen) ∨
      limit < used (ids.map (· % hashBits) ++ seen) ∧
        limit < countHash hashBits limit ids flags (used seen) := by
  induction ids generalizing seen flags with
  | nil =>
    rw [List.map_nil, List.nil_append, countHash]
    omega
  | cons id ids ih =>
    have hv := Nat.mod_lt id hpos
    have hmem := hmarks.getD_eq _ hv
    rw [countHash, List.map_cons, List.cons_append]
    by_cases hlimit : used seen ≤ limit
    · rw [if_pos hlimit]
      simp only [hmem, decide_eq_true_eq]
      by_cases hseen : id % hashBits ∈ seen
      · -- the bit is set already
        have hsame : used (id % hashBits :: (ids.map (· % hashBits) ++ seen)) =
            used (ids.map (· % hashBits) ++ seen) := by
          rw [used_cons, if_pos (List.mem_append_right _ hseen)]
        rw [if_pos hseen, hsame]
        exact ih hmarks
      · have hnext := ih (hmarks.set (id % hashBits))
        have hcount : used (id % hashBits :: seen) = used seen + 1 := by
          rw [used_cons, if_neg hseen]
        have hperm : used (ids.map (· % hashBits) ++ id % hashBits :: seen) =
            used (id % hashBits :: (ids.map (· % hashBits) ++ seen)) :=
          used_congr fun i => List.perm_middle.mem_iff
        rw [hcount, hperm] at hnext
        rw [if_neg hseen]
        exact hnext
    · -- the loop stops, and no bit is cleared again
      rw [if_neg hlimit]
      have hle := @used_le_used seen (id % hashBits :: (ids.map (· % hashBits) ++ seen))
        fun i hi => by simp [hi]
      exact Or.inr ⟨by omega, by omega⟩

theorem countHash_outside {hashBits : Nat} (hpos : 0 < hashBits) (limit : Nat) (block : BlockInfo)
    (ids : List Nat) :
    occupied block ids hashBits ≤ limit ∧
        countHash hashBits limit (block.outside ids) (List.replicate hashBits false) 0 =
          occupied block ids hashBits ∨
      limit < occupied block ids hashBits ∧
        limit < countHash hashBits limit (block.outside ids) (List.replicate hashBits false) 0 := by
  have h := @countHash_spec hashBits limit hpos (block.outside ids) [] _ (marks_replicate hashBits)
  rw [List.append_nil] at h
  exact h

theorem occupied_le {hashBits : Nat} (hpos : 0 < hashBits) (block : BlockInfo) (ids : List Nat) :
    occupied block ids hashBits ≤ hashBits := by
  apply used_le
  intro i hi
  obtain ⟨id, -, rfl⟩ := List.mem_map.mp hi
  exact Nat.mod_lt id hpos

/-! ## Section 2: When a block is accepted -/

/-- `max_hash_count`. -/
def maxHashCount (c : Config) (block : BlockInfo) (neighbors : List Nat) (hashBits score : Nat) :
    Nat :=
  let current := currentScore c block neighbors
  if score ≤ current then hashBits
  else sub32 hashBits (sub32 score current * hashBits % 2 ^ 32 / sub32 c.vertexSize current)

theorem scoreCount_zero (c : Config) (block : BlockInfo) (ids : List Nat) (score : Nat) :
    scoreCount c block ids 0 score =
      if score < currentScore c block ids then some (currentScore c block ids) else none := rfl

theorem scoreCount_eq_some_iff {c : Config} {block : BlockInfo} {ids : List Nat}
    {hashBits score new : Nat} (hpos : 0 < hashBits) (hlt : hashBits < 2 ^ 32) :
    scoreCount c block ids hashBits score = some new ↔
      7 * (ids.length - block.blockSize) ≤ 20 * maxHashCount c block ids hashBits score ∧
      occupied block ids hashBits ≤ maxHashCount c block ids hashBits score ∧
      (currentScore c block ids + sub32 c.vertexSize (currentScore c block ids) *
        (hashBits - occupied block ids hashBits) % 2 ^ 32 / hashBits) % 2 ^ 32 = new := by
  have hcount := countHash_outside hpos (maxHashCount c block ids hashBits score) block ids
  have hle := occupied_le hpos block ids
  have hzero : ¬ hashBits = 0 := by omega
  have hunfold : scoreCount c block ids hashBits score =
      if 20 * maxHashCount c block ids hashBits score < 7 * (ids.length - block.blockSize) then none
      else if countHash hashBits (maxHashCount c block ids hashBits score) (block.outside ids)
          (List.replicate hashBits false) 0 ≤ maxHashCount c block ids hashBits score then
        some ((currentScore c block ids + sub32 c.vertexSize (currentScore c block ids) *
          sub32 hashBits (countHash hashBits (maxHashCount c block ids hashBits score)
            (block.outside ids) (List.replicate hashBits false) 0) % 2 ^ 32 / hashBits) % 2 ^ 32)
      else none := by
    rw [scoreCount, if_neg hzero]
    rfl
  rw [hunfold]
  by_cases hfew : 20 * maxHashCount c block ids hashBits score < 7 * (ids.length - block.blockSize)
  · rw [if_pos hfew]
    exact iff_of_false (by simp) fun h => absurd h.1 (Nat.not_le.mpr hfew)
  · rw [if_neg hfew]
    rcases hcount with ⟨hfit, hsame⟩ | ⟨hmore, hcut⟩
    · rw [hsame, if_pos hfit, sub32_of_le hle hlt, Option.some.injEq]
      exact ⟨fun h => ⟨by omega, hfit, h⟩, fun h => h.2.2⟩
    · rw [if_neg (by omega)]
      exact iff_of_false (by simp) fun h => absurd h.2.1 (Nat.not_le.mpr hmore)

/-! ## Section 3: One call -/

/-- The `int` values of a call. The end of the block is one, and so is the index of the loop
    over the neighbours, where a call gets that far: on a longer list more bits than the limit
    have to be set by the neighbours below the largest index. -/
structure IntsFit (c : Config) (block : BlockInfo) (ids : List Nat) (hashBits score : Nat) :
    Prop where
  block_lt : block.start + block.blockSize < 2 ^ 31
  index_lt : hashBits ≠ 0 →
    7 * (ids.length - block.blockSize) ≤ 20 * maxHashCount c block ids hashBits score →
    ids.length < 2 ^ 31 ∨
      maxHashCount c block ids hashBits score < occupied block (ids.take (2 ^ 31 - 1)) hashBits

theorem IntsFit.of_length_lt {c : Config} {block : BlockInfo} {ids : List Nat}
    (hle : block.start + block.blockSize ≤ ids.length) (hlen : ids.length < 2 ^ 31)
    (hashBits score : Nat) : IntsFit c block ids hashBits score :=
  ⟨Nat.lt_of_le_of_lt hle hlen, fun _ _ => Or.inl hlen⟩

/-- A call that keeps the score: no `int` overflow, no division by zero, and a block that is
    accepted gets a score from the best one so far up to the number of vertices. -/
structure KeepsScore (c : Config) (block : BlockInfo) (ids : List Nat) (hashBits score : Nat) :
    Prop where
  ints : IntsFit c block ids hashBits score
  divisor_ne : hashBits ≠ 0 → currentScore c block ids < score →
    sub32 c.vertexSize (currentScore c block ids) ≠ 0
  accepted : ∀ new, scoreCount c block ids hashBits score = some new →
    score ≤ new ∧ new ≤ c.vertexSize

/-- The products of a call fit 32 bits: the one of the limit, which a block that covers
    `score` ids does without, and the one of the score of a block that is accepted. -/
structure NoOverflow (c : Config) (block : BlockInfo) (ids : List Nat) (hashBits score : Nat) :
    Prop where
  limit : currentScore c block ids < score →
    (score - currentScore c block ids) * hashBits < 2 ^ 32
  share : (scoreCount c block ids hashBits score).isSome →
    sub32 c.vertexSize (currentScore c block ids) *
      (hashBits - occupied block ids hashBits) < 2 ^ 32

/-- The score is above the worth of the block and below its worth with one more free bit,
    both multiplied by `hashBits`, and enough bits are set for 0.35 times the neighbours
    outside. -/
def JustShort (c : Config) (block : BlockInfo) (ids : List Nat) (hashBits score : Nat) : Prop :=
  let current := currentScore c block ids
  let unset := hashBits - occupied block ids hashBits
  current < score ∧
  (c.vertexSize - current) * unset < (score - current) * hashBits ∧
  (score - current) * hashBits < (c.vertexSize - current) * (unset + 1) ∧
  7 * (ids.length - block.blockSize) ≤ 20 * occupied block ids hashBits

/-- The block ends below the id it begins with, so that it seems to cover more ids than
    there are. -/
def Overshoots (c : Config) (block : BlockInfo) (ids : List Nat) (hashBits score : Nat) : Prop :=
  let current := currentScore c block ids
  let rest := sub32 c.vertexSize current
  c.vertexSize < current ∧
  (hashBits = 0 ∨
    7 * (ids.length - block.blockSize) ≤ 20 * hashBits ∧
    c.vertexSize + rest * (hashBits - occupied block ids hashBits) / hashBits < rest + score)

instance (c : Config) (block : BlockInfo) (ids : List Nat) (hashBits score : Nat) :
    Decidable (JustShort c block ids hashBits score) :=
  inferInstanceAs (Decidable (_ ∧ _ ∧ _ ∧ _))

instance (c : Config) (block : BlockInfo) (ids : List Nat) (hashBits score : Nat) :
    Decidable (Overshoots c block ids hashBits score) :=
  inferInstanceAs (Decidable (_ ∧ (_ ∨ _ ∧ _)))

/-- The limit `h - q` for `q = a * h / d`, and the score `d * f / h` of `f` free bits: when
    `f` reaches `q` without reaching `a * h / d` itself, the score is below `a`. -/
theorem limit_cases {a d f h : Nat} (hd : 0 < d) (hh : 0 < h) :
    (a * h / d ≤ f ↔ a * h < d * (f + 1)) ∧ (a ≤ d * f / h ↔ a * h ≤ d * f) := by
  constructor
  · rw [← Nat.lt_succ_iff, Nat.div_lt_iff_lt_mul hd, Nat.succ_eq_add_one, Nat.mul_comm (f + 1)]
  · exact Nat.le_div_iff_mul_le hh

theorem currentScore_lt {c : Config} {ids : List Nat} (hlt : ∀ id ∈ ids, id < 2 ^ 32)
    (block : BlockInfo) : currentScore c block ids < 2 ^ 32 := by
  obtain ⟨start, blockSize, blockType⟩ := block
  have hmod : ∀ n, n % 2 ^ 32 < 2 ^ 32 := fun n => Nat.mod_lt n (by decide)
  cases blockType with
  | fullHash => exact hmod _
  | leftMost => exact getD_lt_of_forall (by decide) hlt (start + blockSize - 1)
  | rightMost => exact hmod _
  | middle => exact hmod _

/-- The ids outside are shared out over the bits: a share of them is at most all. -/
theorem share_le {ids bits free : Nat} (hpos : 0 < bits) (hfree : free ≤ bits) :
    ids * free / bits ≤ ids :=
  calc ids * free / bits ≤ ids * bits / bits :=
        Nat.div_le_div_right (Nat.mul_le_mul_left _ hfree)
    _ = ids := Nat.mul_div_cancel _ hpos

section Call

variable {c : Config} {block : BlockInfo} {ids : List Nat} {hashBits score : Nat}

/-- A block that covers more ids than there are. -/
theorem accepted_of_gt (hcur : c.vertexSize < currentScore c block ids)
    (hlt : currentScore c block ids < 2 ^ 32) (hbits : hashBits < 2 ^ 32)
    (hscore : score ≤ c.vertexSize) (hover : NoOverflow c block ids hashBits score) :
    (∀ new, scoreCount c block ids hashBits score = some new →
      score ≤ new ∧ new ≤ c.vertexSize) ↔ ¬ Overshoots c block ids hashBits score := by
  have hV := c.vertexSize_lt
  have hshare := hover.share
  rcases Nat.eq_zero_or_pos hashBits with rfl | hpos
  · refine iff_of_false (fun h => ?_) (fun h => h ⟨hcur, Or.inl rfl⟩)
    have hnew := h (currentScore c block ids)
      (by rw [scoreCount_zero, if_pos (by omega)])
    omega
  · have hle := occupied_le hpos block ids
    have hmax : maxHashCount c block ids hashBits score = hashBits := by
      unfold maxHashCount
      rw [if_pos (by omega)]
    have hrest : sub32 c.vertexSize (currentScore c block ids) =
        c.vertexSize + 2 ^ 32 - currentScore c block ids := by
      unfold sub32
      omega
    have hpart : sub32 c.vertexSize (currentScore c block ids) *
        (hashBits - occupied block ids hashBits) / hashBits ≤
        sub32 c.vertexSize (currentScore c block ids) := share_le hpos (Nat.sub_le _ _)
    have hiff : ∀ new, scoreCount c block ids hashBits score = some new ↔ _ := fun new =>
      scoreCount_eq_some_iff hpos hbits
    simp only [hmax] at hiff
    unfold Overshoots
    simp only [show ¬ hashBits = 0 by omega, false_or, hcur, true_and]
    by_cases hfew : 7 * (ids.length - block.blockSize) ≤ 20 * hashBits
    · have hsome := (hiff _).mpr ⟨hfew, hle, rfl⟩
      rw [hsome] at hshare
      rw [Nat.mod_eq_of_lt (hshare rfl)] at hsome
      simp only [hsome, Option.some.injEq, forall_eq', hfew, true_and]
      rw [hrest] at hpart ⊢
      generalize (c.vertexSize + 2 ^ 32 - currentScore c block ids) *
        (hashBits - occupied block ids hashBits) / hashBits = part at hpart ⊢
      -- the sum wraps around unless it is more than the number of vertices
      rcases Nat.lt_or_ge (currentScore c block ids + part) (2 ^ 32) with hwrap | hwrap
      · rw [Nat.mod_eq_of_lt hwrap]
        omega
      · rw [Nat.mod_eq_sub_mod hwrap, Nat.mod_eq_of_lt (by omega)]
        omega
    · refine iff_of_true (fun new hnew => ?_) (fun h => hfew h.1)
      exact absurd ((hiff new).mp hnew).1 hfew

/-- A block that covers at least `score` ids. -/
theorem accepted_of_ge (hcur : currentScore c block ids ≤ c.vertexSize)
    (hge : score ≤ currentScore c block ids) (hbits : hashBits < 2 ^ 32) (new : Nat)
    (hnew : scoreCount c block ids hashBits score = some new) :
    score ≤ new ∧ new ≤ c.vertexSize := by
  have hV := c.vertexSize_lt
  rcases Nat.eq_zero_or_pos hashBits with rfl | hpos
  · rw [scoreCount_zero] at hnew
    split at hnew
    · cases hnew
      exact ⟨hge, hcur⟩
    · cases hnew
  · obtain ⟨-, -, rfl⟩ := (scoreCount_eq_some_iff hpos hbits).mp hnew
    rw [sub32_of_le hcur hV]
    -- a product that wraps around only makes the share smaller
    have hpart : (c.vertexSize - currentScore c block ids) *
        (hashBits - occupied block ids hashBits) % 2 ^ 32 / hashBits ≤
        c.vertexSize - currentScore c block ids :=
      (Nat.div_le_div_right (Nat.mod_le _ _)).trans (share_le hpos (Nat.sub_le _ _))
    generalize (c.vertexSize - currentScore c block ids) *
      (hashBits - occupied block ids hashBits) % 2 ^ 32 / hashBits = part at hpart ⊢
    rw [Nat.mod_eq_of_lt (by omega)]
    omega

/-- A block that covers fewer than `score` ids: the two divisions decide. -/
theorem accepted_of_lt (hcur : currentScore c block ids < score) (hbits : hashBits < 2 ^ 32)
    (hscore : score ≤ c.vertexSize) (hover : NoOverflow c block ids hashBits score) :
    (∀ new, scoreCount c block ids hashBits score = some new →
      score ≤ new ∧ new ≤ c.vertexSize) ↔ ¬ JustShort c block ids hashBits score := by
  have hV := c.vertexSize_lt
  have hlimit := hover.limit hcur
  have hshare := hover.share
  have hrest : sub32 c.vertexSize (currentScore c block ids) =
      c.vertexSize - currentScore c block ids := sub32_of_le (by omega) hV
  rcases Nat.eq_zero_or_pos hashBits with rfl | hpos
  · refine iff_of_true (fun new hnew => ?_) (fun h => absurd h.2.1 (Nat.not_lt_zero _))
    rw [scoreCount_zero, if_neg (by omega)] at hnew
    cases hnew
  · have hle := occupied_le hpos block ids
    have hq : (score - currentScore c block ids) * hashBits /
        (c.vertexSize - currentScore c block ids) ≤ hashBits :=
      (Nat.div_le_div_right (Nat.mul_le_mul_right _ (by omega))).trans
        (Nat.mul_div_cancel_left _ (by omega)).le
    have hmax : maxHashCount c block ids hashBits score =
        hashBits - (score - currentScore c block ids) * hashBits /
          (c.vertexSize - currentScore c block ids) := by
      have hsub : sub32 score (currentScore c block ids) = score - currentScore c block ids :=
        sub32_of_le (by omega) (by omega)
      unfold maxHashCount
      simp only
      rw [if_neg (by omega), hsub, hrest, Nat.mod_eq_of_lt hlimit, sub32_of_le hq hbits]
    have hiff : ∀ new, scoreCount c block ids hashBits score = some new ↔ _ := fun new =>
      scoreCount_eq_some_iff hpos hbits
    simp only [hmax, hrest] at hiff
    rw [hrest] at hshare
    -- the limit and the score, each as an inequality of products
    have hdiv := @limit_cases (score - currentScore c block ids)
      (c.vertexSize - currentScore c block ids) (hashBits - occupied block ids hashBits) hashBits
      (by omega) hpos
    have hpart : (c.vertexSize - currentScore c block ids) *
        (hashBits - occupied block ids hashBits) / hashBits ≤
        c.vertexSize - currentScore c block ids := share_le hpos (Nat.sub_le _ _)
    unfold JustShort
    simp only [hcur, true_and]
    -- `a` ids are missing, of `d` ids outside, and `f` bits are free
    have ha : score - currentScore c block ids + currentScore c block ids = score := by omega
    have hd : c.vertexSize - currentScore c block ids + currentScore c block ids =
      c.vertexSize := by omega
    have hf : hashBits - occupied block ids hashBits + occupied block ids hashBits = hashBits := by
      omega
    have hdpos : 0 < c.vertexSize - currentScore c block ids := by omega
    generalize score - currentScore c block ids = a at *
    generalize c.vertexSize - currentScore c block ids = d at *
    generalize hashBits - occupied block ids hashBits = f at *
    have hexact : d * f < a * hashBits → a * hashBits < d * (f + 1) → a * hashBits / d = f := by
      intro hlow hhigh
      refine Nat.le_antisymm (hdiv.1.mpr hhigh) ((Nat.le_div_iff_mul_le hdpos).mpr ?_)
      rw [Nat.mul_comm]
      exact hlow.le
    by_cases hacc : 7 * (ids.length - block.blockSize) ≤ 20 * (hashBits - a * hashBits / d) ∧
        occupied block ids hashBits ≤ hashBits - a * hashBits / d
    · have hsome := (hiff _).mpr ⟨hacc.1, hacc.2, rfl⟩
      rw [hsome] at hshare
      rw [Nat.mod_eq_of_lt (hshare rfl), Nat.mod_eq_of_lt (by omega)] at hsome
      simp only [hsome, Option.some.injEq, forall_eq']
      have hhigh : a * hashBits < d * (f + 1) := hdiv.1.mp (by omega)
      constructor
      · intro h hshort
        have hworth : a * hashBits ≤ d * f := hdiv.2.mp (by omega)
        omega
      · intro h
        -- otherwise `f` is the quotient of the limit, and the block just short
        have hworth : a * hashBits ≤ d * f := by
          by_contra hlow
          have hfree := hexact (Nat.lt_of_not_le hlow) hhigh
          rw [hfree] at hacc
          exact h ⟨Nat.lt_of_not_le hlow, hhigh, by omega⟩
        have := hdiv.2.mpr hworth
        omega
    · refine iff_of_true (fun new hnew => ?_) (fun h => ?_)
      · have := (hiff new).mp hnew
        exact absurd ⟨this.1, this.2.1⟩ hacc
      · obtain ⟨hlow, hhigh, hfew⟩ := h
        rw [hexact hlow hhigh] at hacc
        omega

/-- Exactly which calls keep the score. -/
theorem keeps_iff (hlt : ∀ id ∈ ids, id < 2 ^ 32) (hbits : hashBits < 2 ^ 32)
    (hscore : score ≤ c.vertexSize) (hover : NoOverflow c block ids hashBits score) :
    KeepsScore c block ids hashBits score ↔
      IntsFit c block ids hashBits score ∧ ¬ JustShort c block ids hashBits score ∧
      ¬ Overshoots c block ids hashBits score := by
  have hV := c.vertexSize_lt
  have hdiv : hashBits ≠ 0 → currentScore c block ids < score →
      sub32 c.vertexSize (currentScore c block ids) ≠ 0 := by
    intro _ hcur
    rw [sub32_of_le (by omega) hV]
    omega
  have hkeeps : KeepsScore c block ids hashBits score ↔ IntsFit c block ids hashBits score ∧
      ∀ new, scoreCount c block ids hashBits score = some new →
        score ≤ new ∧ new ≤ c.vertexSize :=
    ⟨fun h => ⟨h.ints, h.accepted⟩, fun h => ⟨h.1, hdiv, h.2⟩⟩
  rw [hkeeps]
  apply and_congr_right
  intro _
  rcases Nat.lt_or_ge c.vertexSize (currentScore c block ids) with hgt | hle
  · have hshort : ¬ JustShort c block ids hashBits score := fun h => absurd h.1 (by omega)
    rw [accepted_of_gt hgt (currentScore_lt hlt block) hbits hscore hover]
    exact ⟨fun h => ⟨hshort, h⟩, fun h => h.2⟩
  · have hfits : ¬ Overshoots c block ids hashBits score := fun h => absurd h.1 (by omega)
    rcases Nat.lt_or_ge (currentScore c block ids) score with hcur | hcur
    · rw [accepted_of_lt hcur hbits hscore hover]
      exact ⟨fun h => ⟨h, hfits⟩, fun h => h.1⟩
    · refine iff_of_true (accepted_of_ge hle hcur hbits) ⟨fun h => ?_, hfits⟩
      exact absurd h.1 (by omega)

end Call

/-! ## Section 4: The whole search -/

/-- The best score after these candidates. -/
def scoreAfter (c : Config) (ids : List Nat) (cands : List Candidate) : Nat :=
  (cands.foldl (consider c ids)
    (fullHashScoreCount c ids (maxBytesLen c * 8) 0, ⟨0, 0, .fullHash⟩)).1

theorem consider_fst (c : Config) (ids : List Nat) (best : Nat × BlockInfo) (cand : Candidate) :
    (consider c ids best cand).1 =
      (scoreCount c cand.block ids cand.hashBits best.1).getD best.1 := by
  unfold consider
  cases scoreCount c cand.block ids cand.hashBits best.1 with
  | none => rfl
  | some new => rfl

theorem scoreAfter_snoc (c : Config) (ids : List Nat) (before : List Candidate)
    (cand : Candidate) :
    scoreAfter c ids (before ++ [cand]) =
      (scoreCount c cand.block ids cand.hashBits (scoreAfter c ids before)).getD
        (scoreAfter c ids before) := by
  rw [scoreAfter, List.foldl_append, List.foldl_cons, List.foldl_nil, consider_fst, scoreAfter]

/-- What holds of every candidate of the search, at the best score so far. -/
def EveryStep (c : Config) (ver : Version) (ids : List Nat) (P : Nat → Candidate → Prop) : Prop :=
  ∀ before cand after, examined c ver ids = before ++ cand :: after →
    P (scoreAfter c ids before) cand

/-- The score does not fall during the search and is at most the number of vertices. -/
structure NeverFalls (c : Config) (ver : Version) (ids : List Nat) : Prop where
  length_lt : ids.length < 2 ^ 31
  start_le : scoreAfter c ids [] ≤ c.vertexSize
  step : ∀ before cand after, examined c ver ids = before ++ cand :: after →
    scoreAfter c ids before ≤ scoreAfter c ids (before ++ [cand]) ∧
    scoreAfter c ids (before ++ [cand]) ≤ c.vertexSize

/-- The full hash scores at most the number of vertices. -/
theorem fullHashScoreCount_le (c : Config) (ids : List Nat) (hper : c.perEncodeBitSize < 2 ^ 31) :
    fullHashScoreCount c ids (maxBytesLen c * 8) 0 ≤ c.vertexSize := by
  have hlt : maxBytesLen c * 8 < 2 ^ 32 := by
    unfold maxBytesLen
    omega
  have hpos : 0 < maxBytesLen c * 8 := by
    have := perEncodeBitSize_eq c
    have := c.perEncodeBitSize_ge
    omega
  unfold fullHashScoreCount
  simp only
  generalize maxBytesLen c * 8 = hashBits at *
  split
  · rename_i hcount
    rw [Nat.zero_mul, Nat.zero_mod, Nat.zero_div, sub32_of_le (Nat.zero_le _) hlt,
      Nat.sub_zero] at hcount ⊢
    rw [sub32_of_le hcount hlt]
    exact (Nat.div_le_div_right (Nat.mod_le _ _)).trans (share_le hpos (Nat.sub_le _ _))
  · exact Nat.zero_le _

section Search

variable {c : Config} {ver : Version} {ids : List Nat}

/-- One candidate: the call keeps the score exactly when the score does not fall. -/
theorem step_iff {before : List Candidate} {cand : Candidate}
    (hscore : scoreAfter c ids before ≤ c.vertexSize) :
    (∀ new, scoreCount c cand.block ids cand.hashBits (scoreAfter c ids before) = some new →
      scoreAfter c ids before ≤ new ∧ new ≤ c.vertexSize) ↔
      scoreAfter c ids before ≤ scoreAfter c ids (before ++ [cand]) ∧
      scoreAfter c ids (before ++ [cand]) ≤ c.vertexSize := by
  rw [scoreAfter_snoc]
  cases scoreCount c cand.block ids cand.hashBits (scoreAfter c ids before) with
  | none => exact iff_of_true (by simp) ⟨Nat.le_refl _, hscore⟩
  | some new => simp

/-- A candidate is a block of the list. -/
theorem block_le (hlt : ∀ id ∈ ids, id < 2 ^ 32) {cand : Candidate}
    (hcand : cand ∈ examined c ver ids) :
    cand.block.start + cand.block.blockSize ≤ ids.length := by
  obtain ⟨i, size, hex, rfl⟩ := (mem_examined_iff hlt).mp hcand
  exact hex.bound

theorem hashBits_lt (hper : c.perEncodeBitSize < 2 ^ 31) (hlt : ∀ id ∈ ids, id < 2 ^ 32)
    {cand : Candidate} (hcand : cand ∈ examined c ver ids) : cand.hashBits < 2 ^ 32 := by
  obtain ⟨i, size, -, rfl⟩ := (mem_examined_iff hlt).mp hcand
  have hbits : (candidateAt c (blockBytes ver ids) ids i size).hashBits =
    (maxBytesLen c - blockBytes ver ids i size) * 8 := rfl
  have hmax : maxBytesLen c = c.perEncodeBitSize / 8 - 1 := rfl
  omega

/-- By induction on the candidates so far: a score that no call takes above `VERTEX_SIZE` stays
    below it. -/
theorem scoreAfter_le_of_step (hper : c.perEncodeBitSize < 2 ^ 31)
    (hstep : ∀ before cand after, examined c ver ids = before ++ cand :: after →
      scoreAfter c ids before ≤ c.vertexSize →
      scoreAfter c ids (before ++ [cand]) ≤ c.vertexSize)
    (before : List Candidate) :
    ∀ after, examined c ver ids = before ++ after → scoreAfter c ids before ≤ c.vertexSize := by
  induction before using List.reverseRecOn with
  | nil => exact fun _ _ => fullHashScoreCount_le c ids hper
  | append_singleton before cand ih =>
    intro after hsplit
    rw [List.append_assoc] at hsplit
    exact hstep before cand after hsplit (ih _ hsplit)

/-- The search does not lower the score exactly when no candidate is just short of it. -/
theorem search_iff (hper : c.perEncodeBitSize < 2 ^ 31) (hlt : ∀ id ∈ ids, id < 2 ^ 32)
    (hover : EveryStep c ver ids fun score cand => NoOverflow c cand.block ids cand.hashBits score) :
    NeverFalls c ver ids ↔
      ids.length < 2 ^ 31 ∧
      EveryStep c ver ids fun score cand =>
        ¬ JustShort c cand.block ids cand.hashBits score ∧
        ¬ Overshoots c cand.block ids cand.hashBits score := by
  have hcall : ∀ before cand after, examined c ver ids = before ++ cand :: after →
      scoreAfter c ids before ≤ c.vertexSize →
      (KeepsScore c cand.block ids cand.hashBits (scoreAfter c ids before) ↔ _) :=
    fun before cand after hsplit hscore =>
      keeps_iff hlt (hashBits_lt hper hlt (by rw [hsplit]; simp)) hscore
        (hover before cand after hsplit)
  -- on a list of this length every index is an `int`
  have hints : ids.length < 2 ^ 31 → ∀ before cand after,
      examined c ver ids = before ++ cand :: after →
      IntsFit c cand.block ids cand.hashBits (scoreAfter c ids before) :=
    fun hlen before cand after hsplit =>
      IntsFit.of_length_lt (block_le hlt (show cand ∈ examined c ver ids by rw [hsplit]; simp))
        hlen _ _
  constructor
  · intro h
    refine ⟨h.length_lt, fun before cand after hsplit => ?_⟩
    have hscore : scoreAfter c ids before ≤ c.vertexSize := by
      rcases before.eq_nil_or_concat' with rfl | ⟨front, last, rfl⟩
      · exact h.start_le
      · exact (h.step front last (cand :: after) (by rw [hsplit, List.append_assoc]; rfl)).2
    have hstep := (step_iff hscore).mpr (h.step before cand after hsplit)
    refine ((hcall before cand after hsplit hscore).mp
      ⟨hints h.length_lt before cand after hsplit, fun _ hcur => ?_, hstep⟩).2
    have hV := c.vertexSize_lt
    rw [sub32_of_le (by omega) hV]
    omega
  · intro h
    obtain ⟨hlength, hall⟩ := h
    have hkeep : ∀ before cand after, examined c ver ids = before ++ cand :: after →
        scoreAfter c ids before ≤ c.vertexSize →
        scoreAfter c ids before ≤ scoreAfter c ids (before ++ [cand]) ∧
        scoreAfter c ids (before ++ [cand]) ≤ c.vertexSize := by
      intro before cand after hsplit hscore
      have hkeeps := (hcall before cand after hsplit hscore).mpr
        ⟨hints hlength before cand after hsplit, hall before cand after hsplit⟩
      exact (step_iff hscore).mp hkeeps.accepted
    have hscore := scoreAfter_le_of_step hper fun before cand after hsplit hscore =>
      (hkeep before cand after hsplit hscore).2
    exact ⟨hlength, fullHashScoreCount_le c ids hper, fun before cand after hsplit =>
      hkeep before cand after hsplit (hscore before _ hsplit)⟩

/-- Which calls of `ScoreCount` keep the score, and in which runs of `DynamicChoose` it
    does not fall. -/
theorem keepsScore_iff (hlt : ∀ id ∈ ids, id < 2 ^ 32) :
    (∀ block hashBits score, hashBits < 2 ^ 32 → score ≤ c.vertexSize →
      NoOverflow c block ids hashBits score →
      (KeepsScore c block ids hashBits score ↔
        IntsFit c block ids hashBits score ∧ ¬ JustShort c block ids hashBits score ∧
        ¬ Overshoots c block ids hashBits score)) ∧
    (c.perEncodeBitSize < 2 ^ 31 → ∀ ver,
      (EveryStep c ver ids fun score cand =>
        NoOverflow c cand.block ids cand.hashBits score) →
      (NeverFalls c ver ids ↔
        ids.length < 2 ^ 31 ∧
        EveryStep c ver ids fun score cand =>
          ¬ JustShort c cand.block ids cand.hashBits score ∧
          ¬ Overshoots c cand.block ids cand.hashBits score)) :=
  ⟨fun _ _ _ hbits hscore hover => keeps_iff hlt hbits hscore hover,
    fun hper _ hover => search_iff hper hlt hover⟩

end Search

/-- Records of one word over six hundred vertices. -/
def sixHundred : Config := Config.ofSizes 1 600 2 (by decide)

theorem keepsScore_iff_pair :
    KeepsScore sixHundred ⟨0, 1, .leftMost⟩ [300, 600] 0 550 ∧
      NeverFalls sixHundred .v0 [300, 600] := by
  have h := @keepsScore_iff sixHundred [300, 600] (by decide)
  -- either id takes two of the three bytes, and one holds the length
  have hcands : examined sixHundred .v0 [300, 600] =
      [⟨⟨0, 1, .leftMost⟩, 0⟩, ⟨⟨1, 1, .rightMost⟩, 0⟩] := by decide
  have hfirst : scoreAfter sixHundred [300, 600] [] = 550 := by decide
  have hsecond : scoreAfter sixHundred [300, 600] [⟨⟨0, 1, .leftMost⟩, 0⟩] = 550 := by decide
  have hsteps : ∀ P : Nat → Candidate → Prop,
      P 550 ⟨⟨0, 1, .leftMost⟩, 0⟩ → P 550 ⟨⟨1, 1, .rightMost⟩, 0⟩ →
      EveryStep sixHundred .v0 [300, 600] P := by
    intro P hleft hright before cand after hsplit
    rw [hcands] at hsplit
    rcases before with _ | ⟨x, _ | ⟨y, rest⟩⟩
    · obtain ⟨rfl, -⟩ := List.cons.inj hsplit
      rw [hfirst]
      exact hleft
    · simp only [List.cons_append, List.nil_append, List.cons.injEq] at hsplit
      obtain ⟨rfl, rfl, -⟩ := hsplit
      rw [hsecond]
      exact hright
    · simp at hsplit
  have hints : IntsFit sixHundred ⟨0, 1, .leftMost⟩ [300, 600] 0 550 :=
    IntsFit.of_length_lt (by decide) (by decide) 0 550
  exact ⟨(h.1 _ 0 550 (by decide) (by decide) ⟨by decide, by decide⟩).mpr
      ⟨hints, by decide, by decide⟩,
    (h.2 (by decide) .v0 (hsteps _ ⟨by decide, by decide⟩ ⟨by decide, by decide⟩)).mpr
      ⟨by decide, hsteps _ (by decide) (by decide)⟩⟩

/-- Records of one word over six vertices. -/
def sixVertices : Config := Config.ofSizes 1 6 4 (by decide)

/-- Neighbours 3 to 6: the full hash scores 5. The block of the first neighbour covers 3
    ids, and 3 of its 8 hash bits are set, which is within the limit of 8 - 2 * 8 / 3. Its
    score is 3 + 3 * 5 / 8 = 4. -/
theorem score_of_five_drops :
    scoreAfter sixVertices [3, 4, 5, 6] [] = 5 ∧
    (examined sixVertices .v0 [3, 4, 5, 6]).head? = some ⟨⟨0, 1, .leftMost⟩, 8⟩ ∧
    NoOverflow sixVertices ⟨0, 1, .leftMost⟩ [3, 4, 5, 6] 8 5 ∧
    scoreCount sixVertices ⟨0, 1, .leftMost⟩ [3, 4, 5, 6] 8 5 = some 4 ∧
    ¬ KeepsScore sixVertices ⟨0, 1, .leftMost⟩ [3, 4, 5, 6] 8 5 ∧
    ¬ NeverFalls sixVertices .v0 [3, 4, 5, 6] := by
  have hhead : (examined sixVertices .v0 [3, 4, 5, 6]).head? = some ⟨⟨0, 1, .leftMost⟩, 8⟩ := by
    decide
  have hnew : scoreCount sixVertices ⟨0, 1, .leftMost⟩ [3, 4, 5, 6] 8 5 = some 4 := by decide
  refine ⟨by decide, hhead, ⟨by decide, by decide⟩, hnew, fun h => ?_, fun h => ?_⟩
  · exact absurd (h.accepted 4 hnew).1 (by decide)
  · obtain ⟨after, hsplit⟩ := List.head?_eq_some_iff.mp hhead
    exact absurd (h.step [] _ after hsplit).1 (by decide)

end DeltaSIMDEncode

end Vend
