import Mathlib.Tactic.Ring
import Vend.Common.Config

/-! # Layout arithmetic

    `InitCommonVariables` and `InitHashConfig` as they run on the values of the
    command line: `int` and `uint32_t` operands, the conversions between them,
    and the points where the C++ has no value to give.

    `common/config.h` works with the constants once they exist. Here they are
    computed, and `laid_out_iff` says for which command lines every encoder can
    rely on them.
-/

namespace Vend

/-! ## Section 1: Model -/

/-- The globals that the command line sets, as `InitCommonVariables` asserts them. -/
structure Options where
  /-- `int K_SIZE`. -/
  kSize : Int
  /-- `uint32_t VERTEX_SIZE`. -/
  vertexSize : Nat
  /-- `uint32_t DEGREE`. -/
  degree : Nat
  kSize_range : -2 ^ 31 ≤ kSize ∧ kSize < 2 ^ 31
  vertexSize_lt : vertexSize < 2 ^ 32
  degree_lt : degree < 2 ^ 32
  kSize_ne : kSize ≠ 0
  vertexSize_ne : vertexSize ≠ 0
  degree_ne : degree ≠ 0

/-- Why an expression has no value. -/
inductive Fault where
  | divisionByZero
  /-- The result of an `int` operation is out of range. -/
  | signedOverflow
  /-- A floating-point value is converted to an integer type that cannot hold it. -/
  | badConversion
  deriving DecidableEq, Repr

/-- The constants that `InitCommonVariables` sets. -/
structure Layout where
  bFilterEncodeBits : Nat
  /-- An `int`, unlike the other constants. -/
  perEncodeBitSize : Int
  vertexBitSize : Nat
  maxKCoreSize : Nat
  logK : Nat
  maxIntegerSize : Nat
  blockBeginIndex : Nat
  blockNums : Nat
  elementSize : Nat
  deriving DecidableEq, Repr

/-- `BLOCK_SIZE`. -/
def blockSize : Nat := 512

/-- The conversion of an `int` to `uint32_t`. -/
def toUInt32 (x : Int) : Nat := (x % 2 ^ 32).toNat

/-- The value of an `int` operation. -/
def int32 (x : Int) : Except Fault Int :=
  if -2 ^ 31 ≤ x ∧ x < 2 ^ 31 then .ok x else .error .signedOverflow

/-- The quotient of two `uint32_t`. -/
def udiv (a b : Nat) : Except Fault Nat :=
  if b = 0 then .error .divisionByZero else .ok (a / b)

/-- `static_cast<uint32_t>(ceil(log2((double) x)))`; `log2(0)` is minus infinity. -/
def ceilLog2 (x : Nat) : Except Fault Nat :=
  if x = 0 then .error .badConversion else .ok (Nat.clog 2 x)

/-- `static_cast<uint32_t>(ceil(log2((double) x / 2)))`: one less than `ceil(log2(x))`,
    and -1 for `x = 1`. -/
def ceilLog2Half (x : Nat) : Except Fault Nat :=
  if x ≤ 1 then .error .badConversion else .ok (Nat.clog 2 x - 1)

/-- `InitCommonVariables()`. -/
def initCommonVariables (o : Options) : Except Fault Layout := do
  -- `VERTEX_SIZE * K_SIZE` is an unsigned product of 32 bits
  let bFilterEncodeBits := toUInt32 (o.vertexSize * o.kSize)
  let perEncodeBitSize ← int32 (o.kSize * 32)
  let vertexBitSize ← ceilLog2 o.vertexSize
  let maxKCoreSize ← udiv (toUInt32 (← int32 (perEncodeBitSize - 1))) vertexBitSize
  let logK ← ceilLog2 (toUInt32 (maxKCoreSize + 1))
  -- `PER_ENCODE_BIT_SIZE - 3` is an `int`, and unsigned from the second difference on
  let maxIntegerSize ← udiv (toUInt32 ((← int32 (perEncodeBitSize - 3)) - logK)) vertexBitSize
  let blockBeginIndex := 3 + logK
  -- the cast to `uint64_t` comes after the 32-bit product
  let blockNums := bFilterEncodeBits * 32 / 512
  let elementSize ← ceilLog2Half (o.degree * o.vertexSize)
  return {
    bFilterEncodeBits, perEncodeBitSize, vertexBitSize, maxKCoreSize, logK, maxIntegerSize
    blockBeginIndex, blockNums, elementSize }

/-- What `InitHashConfig()` computes in integers: `PREFIX_BIT_SIZE`, and the counters
    per word that `COUNT_HASH_BEST_NUMS` is scaled with. -/
def initHashConfig (l : Layout) : Except Fault (Nat × Nat) := do
  let countersPerWord ← udiv 32 l.elementSize
  return (l.logK + 3, countersPerWord)

/-- `BBFilterEncode::BlockHash(key1, key2)`. -/
def blockHash (l : Layout) (key1 key2 : Nat) : Except Fault Nat :=
  if l.blockNums = 0 then .error .divisionByZero
  else .ok ((key1 * 19692027 + key2 * 3201251) % l.blockNums)

/-! ## Section 2: What the encoders rely on -/

/-- The constants describe a layout that the records can have. -/
structure Layout.Sound (o : Options) (l : Layout) : Prop where
  /-- The ids, and the bound `VERTEX_SIZE + 1` that `RangeCompEncode` stores. -/
  id_lt : ∀ v, 1 ≤ v → v ≤ o.vertexSize + 1 → v < 2 ^ l.vertexBitSize
  maxKCoreSize_lt : l.maxKCoreSize < 2 ^ l.logK
  slots_le : 1 + (l.maxKCoreSize : Int) * l.vertexBitSize ≤ l.perEncodeBitSize
  block_le : (l.blockBeginIndex : Int) + l.maxIntegerSize * l.vertexBitSize ≤ l.perEncodeBitSize
  maxIntegerSize_le : l.maxIntegerSize ≤ l.maxKCoreSize
  elementSize_range : 1 ≤ l.elementSize ∧ l.elementSize ≤ 32
  blockNums_range : 1 ≤ l.blockNums ∧
    (l.blockNums : Int) * blockSize ≤ 32 * o.kSize * o.vertexSize

/-- The initialisation runs through, no divisor is zero, and the layout is sound. -/
def LaidOut (o : Options) : Prop :=
  ∃ l, initCommonVariables o = .ok l ∧ (∃ h, initHashConfig l = .ok h) ∧
    (∀ key1 key2, ∃ b, blockHash l key1 key2 = .ok b) ∧ l.Sound o

/-- The command lines that the layout is right for. -/
structure Options.Fits (o : Options) : Prop where
  kSize_pos : 1 ≤ o.kSize
  kSize_lt : o.kSize < 2 ^ 26
  /-- Neither `VERTEX_SIZE` nor `VERTEX_SIZE + 1` is a power of two. -/
  not_pow : ∀ k, o.vertexSize ≠ 2 ^ k ∧ o.vertexSize + 1 ≠ 2 ^ k
  edges_le : o.degree * o.vertexSize ≤ 2 ^ 33
  /-- The 32-bit product `VERTEX_SIZE * K_SIZE` leaves room for one block. -/
  block_le : 16 ≤ (o.vertexSize * o.kSize) % 2 ^ 32

/-! ## Section 3: The constants of a command line that runs through -/

namespace Options

variable (o : Options)

/-- The configuration of a command line with a positive `K_SIZE`. -/
def config (hk : 1 ≤ o.kSize) : Config where
  kSize := o.kSize.toNat
  vertexSize := o.vertexSize
  degree := o.degree
  kSize_ne := by omega
  vertexSize_ne := o.vertexSize_ne
  degree_ne := o.degree_ne
  vertexSize_lt := o.vertexSize_lt

/-- The constants of `common/config.h`. -/
def layout (hk : 1 ≤ o.kSize) : Layout where
  bFilterEncodeBits := toUInt32 (o.vertexSize * o.kSize)
  perEncodeBitSize := (o.config hk).perEncodeBitSize
  vertexBitSize := (o.config hk).vertexBitSize
  maxKCoreSize := (o.config hk).maxKCoreSize
  logK := (o.config hk).logK
  maxIntegerSize := (o.config hk).maxIntegerSize
  blockBeginIndex := (o.config hk).blockBeginIndex
  blockNums := toUInt32 (o.vertexSize * o.kSize) * 32 / 512
  elementSize := (o.config hk).elementSize

variable {o}

theorem perEncodeBitSize_config (hk : 1 ≤ o.kSize) :
    ((o.config hk).perEncodeBitSize : Int) = o.kSize * 32 := by
  simp only [Config.perEncodeBitSize, config]
  omega

end Options

theorem toUInt32_of_lt {x : Int} (h₀ : 0 ≤ x) (h : x < 2 ^ 32) : toUInt32 x = x.toNat := by
  unfold toUInt32
  rw [Int.emod_eq_of_lt h₀ h]

theorem int32_of_lt {x : Int} (h₀ : -2 ^ 31 ≤ x) (h : x < 2 ^ 31) : int32 x = .ok x :=
  if_pos ⟨h₀, h⟩

theorem int32_eq_ok {x y : Int} (h : int32 x = .ok y) : y = x ∧ -2 ^ 31 ≤ x ∧ x < 2 ^ 31 := by
  unfold int32 at h
  split at h
  next hrange => cases h; exact ⟨rfl, hrange⟩
  next => cases h

theorem udiv_eq_ok {a b q : Nat} (h : udiv a b = .ok q) : b ≠ 0 ∧ q = a / b := by
  unfold udiv at h
  split at h
  next => cases h
  next hne => cases h; exact ⟨hne, rfl⟩

theorem ceilLog2_eq_ok {x q : Nat} (h : ceilLog2 x = .ok q) : q = Nat.clog 2 x := by
  unfold ceilLog2 at h
  split at h
  next => cases h
  next => cases h; rfl

theorem ceilLog2Half_eq_ok {x q : Nat} (h : ceilLog2Half x = .ok q) :
    2 ≤ x ∧ q = Nat.clog 2 x - 1 := by
  unfold ceilLog2Half at h
  split at h
  next => cases h
  next hlt => cases h; exact ⟨by omega, rfl⟩

section

variable {o : Options} (hk : 1 ≤ o.kSize)

/-- With a `K_SIZE` that 32 bits hold 32 times and two vertices at least the
    initialisation computes the constants of `common/config.h`. -/
theorem initCommonVariables_eq (hk' : o.kSize < 2 ^ 26) (hv : 2 ≤ o.vertexSize)
    (hd : 2 ≤ o.degree * o.vertexSize) : initCommonVariables o = .ok (o.layout hk) := by
  have hper := Options.perEncodeBitSize_config hk
  have hge := (o.config hk).perEncodeBitSize_ge
  have hlog := (o.config hk).logK_add_four_le
  have hbits : 0 < Nat.clog 2 o.vertexSize := Nat.clog_pos (by omega) hv
  have hmax : (o.config hk).maxKCoreSize ≤ (o.config hk).perEncodeBitSize - 1 :=
    Nat.div_le_self _ _
  have hcore : udiv (toUInt32 (o.kSize * 32 - 1)) (Nat.clog 2 o.vertexSize) =
      .ok (o.config hk).maxKCoreSize := by
    rw [udiv, if_neg (Nat.ne_of_gt hbits), toUInt32_of_lt (by omega) (by omega)]
    congr 2
    omega
  have hlogK : ceilLog2 (toUInt32 ((o.config hk).maxKCoreSize + 1)) =
      .ok (o.config hk).logK := by
    rw [toUInt32_of_lt (by omega) (by omega), ceilLog2, if_neg (by omega)]
    rfl
  have hint : udiv (toUInt32 (o.kSize * 32 - 3 - (o.config hk).logK)) (Nat.clog 2 o.vertexSize) =
      .ok (o.config hk).maxIntegerSize := by
    rw [udiv, if_neg (Nat.ne_of_gt hbits), toUInt32_of_lt (by omega) (by omega)]
    congr 2
    omega
  have hclog : ceilLog2 o.vertexSize = .ok (Nat.clog 2 o.vertexSize) := if_neg (by omega)
  have hhalf : ceilLog2Half (o.degree * o.vertexSize) =
      .ok (Nat.clog 2 (o.degree * o.vertexSize) - 1) := if_neg (by omega)
  unfold initCommonVariables
  rw [int32_of_lt (x := o.kSize * 32) (by omega) (by omega), hclog]
  simp only [bind, Except.bind]
  rw [int32_of_lt (x := o.kSize * 32 - 1) (by omega) (by omega)]
  simp only [hcore, hlogK]
  rw [int32_of_lt (x := o.kSize * 32 - 3) (by omega) (by omega)]
  simp only [hint, hhalf]
  rw [← hper]
  rfl

end

/-- An initialisation that runs through and leaves a positive record size. -/
theorem initCommonVariables_inv {o : Options} {l : Layout} (h : initCommonVariables o = .ok l) :
    l.perEncodeBitSize = o.kSize * 32 ∧ o.kSize < 2 ^ 26 ∧ 2 ≤ o.vertexSize ∧
      2 ≤ o.degree * o.vertexSize := by
  unfold initCommonVariables at h
  simp only [bind, Except.bind] at h
  split at h
  · cases h
  next per hper =>
    obtain ⟨rfl, -, hlt⟩ := int32_eq_ok hper
    split at h
    · cases h
    next bits hbits =>
      have hbits := ceilLog2_eq_ok hbits
      split at h
      · cases h
      next =>
        split at h
        · cases h
        next hcore =>
          -- `VERTEX_BIT_SIZE` is a divisor, so it is not zero
          obtain ⟨hne, -⟩ := udiv_eq_ok hcore
          have hv : 2 ≤ o.vertexSize := by
            by_contra hlt
            rw [hbits, Nat.clog_of_right_le_one (by omega)] at hne
            exact hne rfl
          split at h
          · cases h
          next =>
            split at h
            · cases h
            next =>
              split at h
              · cases h
              next =>
                split at h
                · cases h
                next half hhalf =>
                  cases h
                  exact ⟨rfl, by omega, hv, (ceilLog2Half_eq_ok hhalf).1⟩

/-! ## Section 4: When the layout is sound -/

/-- `VERTEX_SIZE + 1` fits its field unless it or its predecessor is a power of two. -/
theorem succ_lt_two_pow_clog_iff (n : Nat) :
    n + 1 < 2 ^ Nat.clog 2 n ↔ ∀ k, n ≠ 2 ^ k ∧ n + 1 ≠ 2 ^ k := by
  have hle : n ≤ 2 ^ Nat.clog 2 n := Nat.le_pow_clog (by omega) n
  constructor
  · intro hlt k
    constructor
    · intro heq
      rw [heq, Nat.clog_pow 2 k (by omega)] at hlt
      omega
    · intro heq
      have hclog : Nat.clog 2 n ≤ k :=
        (Nat.clog_le_iff_le_pow (by omega)).mpr (by omega)
      have hpow : 2 ^ Nat.clog 2 n ≤ 2 ^ k := Nat.pow_le_pow_right (by omega) hclog
      omega
  · intro hne
    obtain ⟨h₁, h₂⟩ := hne (Nat.clog 2 n)
    omega

/-- No power of two and no predecessor of one is at least 5. -/
theorem five_le_of_not_pow {n : Nat} (hne : ∀ k, n ≠ 2 ^ k ∧ n + 1 ≠ 2 ^ k) :
    5 ≤ n := by
  have h₀ := hne 0
  have h₁ := hne 1
  have h₂ := hne 2
  omega

theorem sound_layout {o : Options} (hfits : o.Fits) : (o.layout hfits.kSize_pos).Sound o := by
  have hk := hfits.kSize_pos
  have hk' := hfits.kSize_lt
  have hper := Options.perEncodeBitSize_config hk
  have hge := (o.config hk).perEncodeBitSize_ge
  have hlog := (o.config hk).logK_add_four_le
  have hv := five_le_of_not_pow hfits.not_pow
  have hid : o.vertexSize + 1 < 2 ^ (o.config hk).vertexBitSize :=
    (succ_lt_two_pow_clog_iff _).mpr hfits.not_pow
  have hblock := hfits.block_le
  constructor
  · intro v _ hle
    exact Nat.lt_of_le_of_lt hle hid
  · exact (o.config hk).maxKCoreSize_lt
  · have hslots := (o.config hk).slots_le
    simp only [Options.layout]
    exact_mod_cast hslots
  · have hdiv : (o.config hk).maxIntegerSize * (o.config hk).vertexBitSize ≤
        (o.config hk).perEncodeBitSize - 3 - (o.config hk).logK := Nat.div_mul_le_self _ _
    have hle : (o.config hk).blockBeginIndex +
        (o.config hk).maxIntegerSize * (o.config hk).vertexBitSize ≤
          (o.config hk).perEncodeBitSize := by
      unfold Config.blockBeginIndex
      omega
    simp only [Options.layout]
    exact_mod_cast hle
  · exact (o.config hk).maxIntegerSize_le
  · have hdeg := Nat.pos_of_ne_zero o.degree_ne
    have hedges : 5 ≤ o.degree * o.vertexSize :=
      Nat.le_trans hv (Nat.le_mul_of_pos_left _ hdeg)
    have hge : 2 ≤ Nat.clog 2 (o.degree * o.vertexSize) := by
      have := Nat.clog_mono_right 2 hedges
      have h₅ : Nat.clog 2 5 = 3 := by decide
      omega
    have hle : Nat.clog 2 (o.degree * o.vertexSize) ≤ 33 :=
      (Nat.clog_le_iff_le_pow (by omega)).mpr hfits.edges_le
    simp only [Options.layout, Config.elementSize, Options.config]
    omega
  · -- the product of `BLOCK_NUMS` may wrap, but not to less than a block
    have hmod : ((toUInt32 (o.vertexSize * o.kSize) : Nat) : Int) =
        (o.vertexSize * o.kSize) % 2 ^ 32 := by
      unfold toUInt32
      omega
    have hnonneg : 0 ≤ (o.vertexSize : Int) * o.kSize := Int.mul_nonneg (by omega) (by omega)
    have hmul : 32 * o.kSize * o.vertexSize = 32 * (o.vertexSize * o.kSize) := by ring
    simp only [Options.layout, blockSize]
    rw [hmul]
    generalize (o.vertexSize : Int) * o.kSize = product at hmod hnonneg hblock ⊢
    generalize toUInt32 product = bits at hmod ⊢
    omega

/-- The layout is sound for exactly the command lines that fit it. -/
theorem laid_out_iff (o : Options) : LaidOut o ↔ o.Fits := by
  constructor
  · rintro ⟨l, hinit, -, -, hsound⟩
    obtain ⟨hper, hk', hv, hd⟩ := initCommonVariables_inv hinit
    have hk : 1 ≤ o.kSize := by
      -- with no word a record would hold no slot
      have hslots := hsound.slots_le
      rw [hper] at hslots
      have hnonneg : 0 ≤ (l.maxKCoreSize : Int) * l.vertexBitSize :=
        Int.mul_nonneg (by omega) (by omega)
      omega
    rw [initCommonVariables_eq hk hk' hv hd, Except.ok.injEq] at hinit
    subst hinit
    refine ⟨hk, hk', ?_, ?_, ?_⟩
    · exact (succ_lt_two_pow_clog_iff _).mp
        (hsound.id_lt (o.vertexSize + 1) (by omega) (by omega))
    · have hle := hsound.elementSize_range.2
      simp only [Options.layout, Config.elementSize, Options.config] at hle
      exact (Nat.clog_le_iff_le_pow (by omega)).mp (by omega)
    · have hone := hsound.blockNums_range.1
      simp only [Options.layout, toUInt32] at hone
      omega
  · intro hfits
    have hv := five_le_of_not_pow hfits.not_pow
    have hdeg := Nat.pos_of_ne_zero o.degree_ne
    have hedges : 5 ≤ o.degree * o.vertexSize :=
      Nat.le_trans hv (Nat.le_mul_of_pos_left _ hdeg)
    have hsound := sound_layout hfits
    have hblock : (o.layout hfits.kSize_pos).blockNums ≠ 0 := by
      have := hsound.blockNums_range.1
      omega
    have helement : (o.layout hfits.kSize_pos).elementSize ≠ 0 := by
      have := hsound.elementSize_range.1
      omega
    refine ⟨_, initCommonVariables_eq hfits.kSize_pos hfits.kSize_lt (by omega) (by omega), ?_, ?_,
      hsound⟩
    · refine ⟨((o.layout hfits.kSize_pos).logK + 3, 32 / (o.layout hfits.kSize_pos).elementSize), ?_⟩
      rw [initHashConfig, udiv, if_neg helement]
      rfl
    · intro key1 key2
      exact ⟨_, if_neg hblock⟩

/-- A graph of 1024 vertices. -/
def powerOptions : Options where
  kSize := 8
  vertexSize := 1024
  degree := 10
  kSize_range := by decide
  vertexSize_lt := by decide
  degree_lt := by decide
  kSize_ne := by decide
  vertexSize_ne := by decide
  degree_ne := by decide

/-- The id 1024 does not fit a field of `VERTEX_BIT_SIZE` = 10 bits. -/
theorem powerOptions_not_laid_out :
    32 * powerOptions.kSize * powerOptions.vertexSize < 2 ^ 63 ∧
    (∃ l, initCommonVariables powerOptions = .ok l ∧ l.vertexBitSize = 10) ∧
    ¬ LaidOut powerOptions := by
  refine ⟨by decide, ⟨powerOptions.layout (by decide), ?_, by decide +kernel⟩, ?_⟩
  · exact initCommonVariables_eq (by decide) (by decide) (by decide) (by decide)
  · rintro ⟨l, hinit, -, -, hsound⟩
    rw [initCommonVariables_eq (o := powerOptions) (by decide) (by decide) (by decide) (by decide),
      Except.ok.injEq] at hinit
    subst hinit
    have hid := hsound.id_lt 1024 (by decide) (by decide)
    revert hid
    decide +kernel

end Vend
