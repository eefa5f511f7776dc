import Mathlib.Data.Finset.Card
import Mathlib.Data.Finset.Range
import Mathlib.Logic.Function.Basic

/-! # Bucket orders

    Items `0 .. n - 1` stand in an array `vert` ordered by a key, `pos` is the
    inverse of `vert`, and `bin d` is the position where the items of key `d`
    begin. `decrease` lowers one key by one: the item changes places with the
    first item of its bucket, whose start then moves past it.

    A bucket start that is not too far behind stays inside the array (`Bounded`). The
    bucket starts may be wrong from some position `bound` on (`Ordered`
    says nothing about the order there) and for keys below `lo`; `Ordered.decrease`
    shows that such an order is kept, and `vert_decrease_of_le` that the items in
    front of a smaller key stay where they are.
-/

namespace BucketOrder

/-- The four arrays. -/
structure Buckets where
  key : Nat → Nat
  pos : Nat → Nat
  vert : Nat → Nat
  bin : Nat → Nat

namespace Buckets

/-- The number of items with a key below `d`. -/
def below (b : Buckets) (n d : Nat) : Nat := ((Finset.range n).filter fun v => b.key v < d).card

/-- Lower the key of item `v` by one. -/
def decrease (b : Buckets) (v : Nat) : Buckets :=
  let d := b.key v
  let p := b.pos v
  let q := b.bin d
  let f := b.vert q
  { key := Function.update b.key v (d - 1)
    pos := Function.update (Function.update b.pos v q) f p
    vert := Function.update (Function.update b.vert p f) q v
    bin := Function.update b.bin d (q + 1) }

end Buckets

open Buckets

/-- `pos` and `vert` are inverse to each other on `0 .. n - 1`. -/
structure Arranged (b : Buckets) (n : Nat) : Prop where
  pos_lt : ∀ v, v < n → b.pos v < n
  vert_lt : ∀ i, i < n → b.vert i < n
  vert_pos : ∀ v, v < n → b.vert (b.pos v) = v
  pos_vert : ∀ i, i < n → b.pos (b.vert i) = i

/-- Keys up to `top`, and no bucket start behind the items of smaller keys. Nothing is said
    about the order. -/
structure Bounded (b : Buckets) (n top : Nat) : Prop extends Arranged b n where
  key_le : ∀ v, v < n → b.key v ≤ top
  bin_le : ∀ d, d ≤ top → b.bin d ≤ b.below n d

/-- The bucket starts are right in front of `bound`, for keys `lo .. top`. -/
structure Ordered (b : Buckets) (n lo top bound : Nat) : Prop extends Arranged b n where
  key_le : ∀ v, v < n → b.key v ≤ top
  bin_le : ∀ d, d ≤ top → b.bin d ≤ b.below n d
  lt_of_lt_bin : ∀ d, d ≤ top → ∀ i, i < n → i < bound → i < b.bin d → b.key (b.vert i) < d
  le_of_bin_le : ∀ d, lo ≤ d → d ≤ top → b.bin d < bound → ∀ i, i < n → b.bin d ≤ i →
    d ≤ b.key (b.vert i)

section

variable {b : Buckets} {n lo top bound v : Nat}

theorem Arranged.vert_injective (h : Arranged b n) {i j : Nat} (hi : i < n) (hj : j < n)
    (heq : b.vert i = b.vert j) : i = j := by
  rw [← h.pos_vert i hi, heq, h.pos_vert j hj]

theorem Arranged.vert_ne (h : Arranged b n) {i : Nat} (hi : i < n) (hne : i ≠ b.pos v) :
    b.vert i ≠ v := by
  intro heq
  exact hne (by rw [← heq, h.pos_vert i hi])

theorem Ordered.bounded (h : Ordered b n lo top bound) : Bounded b n top :=
  ⟨h.toArranged, h.key_le, h.bin_le⟩

theorem below_le (d : Nat) : b.below n d ≤ n := by
  have hle := Finset.card_filter_le (Finset.range n) fun v => b.key v < d
  rwa [Finset.card_range] at hle

/-- A key that occurs has its bucket start inside the array. -/
theorem Bounded.bin_lt (h : Bounded b n top) (hv : v < n) : b.bin (b.key v) < n := by
  have hle := h.bin_le (b.key v) (h.key_le v hv)
  have hsub : ((Finset.range n).filter fun w => b.key w < b.key v) ⊂ Finset.range n := by
    apply Finset.filter_ssubset.mpr
    exact ⟨v, by simpa using hv, Nat.lt_irrefl _⟩
  have hlt := Finset.card_lt_card hsub
  rw [Finset.card_range] at hlt
  exact Nat.lt_of_le_of_lt hle hlt

theorem Ordered.bin_lt (h : Ordered b n lo top bound) (hv : v < n) : b.bin (b.key v) < n :=
  h.bounded.bin_lt hv

/-- The bucket start is not behind the item, in front of the bound. -/
theorem Ordered.bin_le_pos (h : Ordered b n lo top bound) (hv : v < n) :
    b.bin (b.key v) ≤ b.pos v ∨ (bound ≤ b.bin (b.key v) ∧ bound ≤ b.pos v) := by
  by_contra hnot
  have hlt : b.pos v < b.bin (b.key v) := by omega
  have hbound : b.pos v < bound := by omega
  have hkey := h.lt_of_lt_bin _ (h.key_le v hv) (b.pos v) (h.pos_lt v hv) hbound hlt
  rw [h.vert_pos v hv] at hkey
  exact Nat.lt_irrefl _ hkey

/-- An item with a smaller key in front of the bound stands before the bucket. -/
theorem Ordered.lt_bin_of_key_lt (h : Ordered b n lo top bound) (hv : v < n)
    (hlo : lo ≤ b.key v) {i : Nat} (hi : i < n) (hbound : i < bound)
    (hkey : b.key (b.vert i) < b.key v) : i < b.bin (b.key v) ∧ i < b.pos v := by
  have hbin : i < b.bin (b.key v) := by
    by_contra hle
    have hge := h.le_of_bin_le _ hlo (h.key_le v hv) (by omega) i hi (by omega)
    omega
  rcases h.bin_le_pos hv with hle | ⟨-, hle⟩
  · exact ⟨hbin, by omega⟩
  · exact ⟨hbin, by omega⟩

theorem vert_decrease_of_ne {i : Nat} (hbin : i ≠ b.bin (b.key v)) (hpos : i ≠ b.pos v) :
    (b.decrease v).vert i = b.vert i := by
  simp only [decrease]
  rw [Function.update_of_ne hbin, Function.update_of_ne hpos]

/-- Everything up to an item with a smaller key stays in place. -/
theorem Ordered.vert_decrease_of_le (h : Ordered b n lo top bound) (hv : v < n)
    (hlo : lo ≤ b.key v) {i : Nat} (hi : i < n) (hbound : i < bound)
    (hkey : b.key (b.vert i) < b.key v) {j : Nat} (hj : j ≤ i) :
    (b.decrease v).vert j = b.vert j := by
  obtain ⟨hbin, hpos⟩ := h.lt_bin_of_key_lt hv hlo hi hbound hkey
  exact vert_decrease_of_ne (by omega) (by omega)

@[simp] theorem key_decrease_self : (b.decrease v).key v = b.key v - 1 := by
  simp [decrease]

theorem key_decrease_of_ne {w : Nat} (hne : w ≠ v) : (b.decrease v).key w = b.key w := by
  simp [decrease, Function.update_of_ne hne]

theorem key_decrease_le (w : Nat) : (b.decrease v).key w ≤ b.key w := by
  by_cases h : w = v
  · subst h; simp
  · rw [key_decrease_of_ne h]

/-- The places that `decrease` exchanges. -/
theorem vert_decrease (i : Nat) :
    (b.decrease v).vert i =
      if i = b.bin (b.key v) then v
      else if i = b.pos v then b.vert (b.bin (b.key v)) else b.vert i := by
  simp only [decrease, Function.update_apply]

theorem pos_decrease (w : Nat) :
    (b.decrease v).pos w =
      if w = b.vert (b.bin (b.key v)) then b.pos v
      else if w = v then b.bin (b.key v) else b.pos w := by
  simp only [decrease, Function.update_apply]

theorem bin_decrease (d : Nat) :
    (b.decrease v).bin d = if d = b.key v then b.bin (b.key v) + 1 else b.bin d := by
  simp only [decrease, Function.update_apply]

theorem Arranged.decrease (h : Arranged b n) (hv : v < n) (hq : b.bin (b.key v) < n) :
    Arranged (b.decrease v) n := by
  have hp := h.pos_lt v hv
  have hf := h.vert_lt _ hq
  refine ⟨?_, ?_, ?_, ?_⟩
  · intro w hw
    rw [pos_decrease]
    split
    · exact hp
    · split
      · exact hq
      · exact h.pos_lt w hw
  · intro i hi
    rw [vert_decrease]
    split
    · exact hv
    · split
      · exact hf
      · exact h.vert_lt i hi
  · intro w hw
    -- `v` and the first item of its bucket change places, the others stay
    rw [vert_decrease, pos_decrease]
    by_cases hwf : w = b.vert (b.bin (b.key v))
    · rw [if_pos hwf]
      by_cases hpq : b.pos v = b.bin (b.key v)
      · rw [if_pos hpq, hwf, ← hpq, h.vert_pos v hv]
      · rw [if_neg hpq, if_pos rfl, hwf]
    · rw [if_neg hwf]
      by_cases hwv : w = v
      · rw [if_pos hwv, if_pos rfl, hwv]
      · have hne₁ : b.pos w ≠ b.bin (b.key v) := by
          intro heq
          exact hwf (by rw [← heq, h.vert_pos w hw])
        have hne₂ : b.pos w ≠ b.pos v := by
          intro heq
          exact hwv (by rw [← h.vert_pos w hw, heq, h.vert_pos v hv])
        rw [if_neg hwv, if_neg hne₁, if_neg hne₂, h.vert_pos w hw]
  · intro i hi
    rw [pos_decrease, vert_decrease]
    by_cases hiq : i = b.bin (b.key v)
    · rw [if_pos hiq]
      by_cases hvf : v = b.vert (b.bin (b.key v))
      · rw [if_pos hvf, hiq, ← h.pos_vert _ hq, ← hvf]
      · rw [if_neg hvf, if_pos rfl, hiq]
    · rw [if_neg hiq]
      by_cases hip : i = b.pos v
      · rw [if_pos hip, if_pos rfl, hip]
      · have hne₁ : b.vert i ≠ b.vert (b.bin (b.key v)) :=
          fun heq => hiq (h.vert_injective hi hq heq)
        rw [if_neg hip, if_neg hne₁, if_neg (h.vert_ne hi hip), h.pos_vert i hi]

/-- Lowering the key of `v` adds `v` to the items below its old key. -/
theorem below_decrease (hv : v < n) (hpos : 1 ≤ b.key v) (d : Nat) :
    (b.decrease v).below n d = b.below n d + if d = b.key v then 1 else 0 := by
  unfold below
  by_cases hd : d = b.key v
  · have hset : ((Finset.range n).filter fun w => (b.decrease v).key w < d) =
        insert v ((Finset.range n).filter fun w => b.key w < d) := by
      ext w
      by_cases hw : w = v
      · rw [hw, Finset.mem_filter, key_decrease_self]
        have hlt : b.key v - 1 < d := by omega
        simp [hv, hlt]
      · simp [hw, key_decrease_of_ne hw]
    have hnot : v ∉ (Finset.range n).filter fun w => b.key w < d := by simp [hd]
    rw [hset, Finset.card_insert_of_notMem hnot, if_pos hd]
  · have hset : ((Finset.range n).filter fun w => (b.decrease v).key w < d) =
        (Finset.range n).filter fun w => b.key w < d := by
      ext w
      by_cases hw : w = v
      · subst hw
        simp only [Finset.mem_filter, Finset.mem_range, key_decrease_self]
        omega
      · simp [key_decrease_of_ne hw]
    rw [hset, if_neg hd, Nat.add_zero]

/-- The start that moves on has one more item below it. -/
theorem Bounded.decrease (h : Bounded b n top) (hv : v < n) (hpos : 1 ≤ b.key v) :
    Bounded (b.decrease v) n top := by
  refine ⟨h.toArranged.decrease hv (h.bin_lt hv), ?_, ?_⟩
  · intro w hw
    exact Nat.le_trans (key_decrease_le w) (h.key_le w hw)
  · intro d hd
    rw [below_decrease hv hpos, bin_decrease]
    by_cases hkey : d = b.key v
    · have hle := h.bin_le d hd
      rw [if_pos hkey, if_pos hkey, ← hkey]
      omega
    · rw [if_neg hkey, if_neg hkey]
      exact h.bin_le d hd

/-- In front of a bucket start of `decrease`, the keys are still below the bucket's. -/
theorem Ordered.lt_of_lt_bin_decrease (h : Ordered b n lo top bound) (hv : v < n)
    (hlo : lo ≤ b.key v) (hpos : 1 ≤ b.key v) {d i : Nat} (hd : d ≤ top) (hi : i < n)
    (hbound : i < bound) (hlt : i < (b.decrease v).bin d) :
    (b.decrease v).key ((b.decrease v).vert i) < d := by
  have hq := h.bin_lt hv
  have hcase := h.bin_le_pos hv
  have htop := h.key_le v hv
  rw [bin_decrease] at hlt
  rw [vert_decrease]
  by_cases hiq : i = b.bin (b.key v)
  · -- the item itself, now at the old bucket start
    rw [if_pos hiq, key_decrease_self]
    by_cases hkey : d = b.key v
    · omega
    · rw [if_neg hkey] at hlt
      have hfirst := h.lt_of_lt_bin d hd i hi hbound hlt
      have hge := h.le_of_bin_le _ hlo htop (by omega) i hi (by omega)
      omega
  · rw [if_neg hiq]
    have hlt' : i < b.bin d := by
      by_cases hkey : d = b.key v
      · rw [if_pos hkey] at hlt
        rw [hkey]
        omega
      · rwa [if_neg hkey] at hlt
    by_cases hip : i = b.pos v
    · -- the old first item of the bucket, now behind it
      rw [if_pos hip]
      have hqi : b.bin (b.key v) < i := by omega
      have hfd := h.lt_of_lt_bin d hd _ hq (by omega) (Nat.lt_trans hqi hlt')
      exact Nat.lt_of_le_of_lt (key_decrease_le _) hfd
    · rw [if_neg hip]
      exact Nat.lt_of_le_of_lt (key_decrease_le _) (h.lt_of_lt_bin d hd i hi hbound hlt')

/-- From its new start on, the bucket that `v` leaves holds the keys it held. -/
theorem Ordered.le_of_bin_le_decrease_key (h : Ordered b n lo top bound) (hv : v < n)
    (hlo : lo ≤ b.key v) {i : Nat} (hbin : (b.decrease v).bin (b.key v) < bound) (hi : i < n)
    (hle : (b.decrease v).bin (b.key v) ≤ i) :
    b.key v ≤ (b.decrease v).key ((b.decrease v).vert i) := by
  have hq := h.bin_lt hv
  have hcase := h.bin_le_pos hv
  rw [bin_decrease, if_pos rfl] at hbin hle
  rw [vert_decrease, if_neg (by omega)]
  have hold := h.le_of_bin_le _ hlo (h.key_le v hv) (by omega)
  by_cases hip : i = b.pos v
  · rw [if_pos hip, key_decrease_of_ne (h.vert_ne hq (by omega))]
    exact hold _ hq (Nat.le_refl _)
  · rw [if_neg hip, key_decrease_of_ne (h.vert_ne hi hip)]
    exact hold i hi (by omega)

/-- The other buckets lose no item: `v` moves down, but not out of a bucket that starts
    in front of its own. -/
theorem Ordered.le_of_bin_le_decrease_of_ne (h : Ordered b n lo top bound) (hv : v < n)
    (hlo : lo ≤ b.key v) {d i : Nat} (hne : d ≠ b.key v) (hlo' : lo ≤ d) (hd : d ≤ top)
    (hbin : (b.decrease v).bin d < bound) (hi : i < n) (hle : (b.decrease v).bin d ≤ i) :
    d ≤ (b.decrease v).key ((b.decrease v).vert i) := by
  have hq := h.bin_lt hv
  have hcase := h.bin_le_pos hv
  rw [bin_decrease, if_neg hne] at hbin hle
  have hold := h.le_of_bin_le d hlo' hd hbin
  have hpv : b.bin d ≤ b.pos v → d ≤ b.key v := by
    intro hle'
    have hge := hold _ (h.pos_lt v hv) hle'
    rwa [h.vert_pos v hv] at hge
  rw [vert_decrease]
  by_cases hiq : i = b.bin (b.key v)
  · rw [if_pos hiq, key_decrease_self]
    have hdv := hpv (by omega)
    omega
  · rw [if_neg hiq]
    by_cases hip : i = b.pos v
    · -- the first item of the bucket has at least the key of the bucket
      have hdv := hpv (by omega)
      rw [if_pos hip, key_decrease_of_ne (h.vert_ne hq (by omega))]
      by_cases hqd : b.bin d ≤ b.bin (b.key v)
      · exact hold _ hq hqd
      · have hge := h.le_of_bin_le _ hlo (h.key_le v hv) (by omega) _ hq (Nat.le_refl _)
        omega
    · rw [if_neg hip, key_decrease_of_ne (h.vert_ne hi hip)]
      exact hold i hi hle

/-- `decrease` keeps the order, for a key above `lo`. -/
theorem Ordered.decrease (h : Ordered b n lo top bound) (hv : v < n) (hlo : lo ≤ b.key v)
    (hpos : 1 ≤ b.key v) : Ordered (b.decrease v) n lo top bound := by
  have hb := h.bounded.decrease hv hpos
  refine ⟨hb.toArranged, hb.key_le, hb.bin_le, ?_, ?_⟩
  · intro d hd i hi hbound hlt
    exact h.lt_of_lt_bin_decrease hv hlo hpos hd hi hbound hlt
  · intro d hlo' hd hbin i hi hle
    by_cases hkey : d = b.key v
    · subst hkey
      exact h.le_of_bin_le_decrease_key hv hlo hbin hi hle
    · exact h.le_of_bin_le_decrease_of_ne hv hlo hkey hlo' hd hbin hi hle

end

/-! ## Sorted orders -/

/-- A downward closed subset of `0 .. n - 1` is an initial segment. -/
theorem filter_range_eq_range {n : Nat} {P : Nat → Prop} [DecidablePred P]
    (hdown : ∀ i j, i ≤ j → j < n → P j → P i) :
    (Finset.range n).filter P = Finset.range ((Finset.range n).filter P).card := by
  induction n with
  | zero => simp
  | succ n ih =>
    by_cases hn : P n
    · have hall : (Finset.range (n + 1)).filter P = Finset.range (n + 1) := by
        apply Finset.filter_true_of_mem
        intro i hi
        exact hdown i n (Nat.lt_succ_iff.mp (Finset.mem_range.mp hi)) (by omega) hn
      rw [hall, Finset.card_range]
    · have hsame : (Finset.range (n + 1)).filter P = (Finset.range n).filter P := by
        rw [Finset.range_add_one, Finset.filter_insert, if_neg hn]
      rw [hsame]
      exact ih fun i j hij hj hP => hdown i j hij (by omega) hP

/-- In an array sorted by key, the items of a key below `d` come first. -/
theorem Arranged.key_lt_iff {b : Buckets} {n : Nat} (h : Arranged b n)
    (hsorted : ∀ i j, i ≤ j → j < n → b.key (b.vert i) ≤ b.key (b.vert j)) {i d : Nat}
    (hi : i < n) : b.key (b.vert i) < d ↔ i < b.below n d := by
  have hcard : b.below n d = ((Finset.range n).filter fun j => b.key (b.vert j) < d).card := by
    unfold below
    symm
    apply Finset.card_bij (fun j _ => b.vert j)
    · intro j hj
      simp only [Finset.mem_filter, Finset.mem_range] at hj ⊢
      exact ⟨h.vert_lt j hj.1, hj.2⟩
    · intro j hj k hk heq
      simp only [Finset.mem_filter, Finset.mem_range] at hj hk
      exact h.vert_injective hj.1 hk.1 heq
    · intro v hv
      simp only [Finset.mem_filter, Finset.mem_range] at hv
      exact ⟨b.pos v, by simp [h.pos_lt v hv.1, h.vert_pos v hv.1, hv.2], h.vert_pos v hv.1⟩
  have hseg := filter_range_eq_range (n := n) (P := fun j => b.key (b.vert j) < d)
    (fun j k hjk hk hlt => Nat.lt_of_le_of_lt (hsorted j k hjk hk) hlt)
  rw [hcard]
  constructor
  · intro hlt
    have hmem : i ∈ (Finset.range n).filter fun j => b.key (b.vert j) < d := by simp [hi, hlt]
    rw [hseg] at hmem
    exact Finset.mem_range.mp hmem
  · intro hlt
    have hmem := Finset.mem_range.mpr hlt
    rw [← hseg] at hmem
    exact (Finset.mem_filter.mp hmem).2

end BucketOrder
