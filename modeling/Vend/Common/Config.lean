import Mathlib.Data.Nat.Log
import Mathlib.Tactic.NormNum

/-! # Global configuration

    `common/config.h` and `common/hash_config.h`: the verdict type and the
    layout constants that `InitCommonVariables` and `InitHashConfig` derive
    from the three command-line values.

    `static_cast<uint32_t>(ceil(log2(x)))` is read exactly, as `Nat.clog 2 x`.
    For the 32-bit arguments that occur the double result is far enough from
    an integer for the rounding not to matter.
-/

namespace Vend

/-! ## Section 1: Verdicts -/

/-- `enum PairType { Neighbor = 1, NonNeighbor = 2, Uncertain = 4 }`. -/
inductive PairType where
  | neighbor
  | nonNeighbor
  | uncertain
  deriving DecidableEq, Repr

namespace PairType

/-- The integer value of the enumerator. -/
def val : PairType → Nat
  | neighbor => 1
  | nonNeighbor => 2
  | uncertain => 4

/-- `std::min` on two enumerators: the first one unless the second is smaller. -/
def min (a b : PairType) : PairType :=
  if b.val < a.val then b else a

theorem min_eq_nonNeighbor {a b : PairType} (h : min a b = nonNeighbor) :
    (a = nonNeighbor ∧ b ≠ neighbor) ∨ (b = nonNeighbor ∧ a ≠ neighbor) := by
  cases a <;> cases b <;> simp_all [min, val]

theorem min_eq_neighbor {a b : PairType} (h : min a b = neighbor) :
    a = neighbor ∨ b = neighbor := by
  cases a <;> cases b <;> simp_all [min, val]

@[simp] theorem min_neighbor_left (b : PairType) : min neighbor b = neighbor := by
  cases b <;> rfl

@[simp] theorem min_neighbor_right (a : PairType) : min a neighbor = neighbor := by
  cases a <;> rfl

/-- `Neighbor` is the smallest verdict, so it may be returned at once. -/
theorem ite_neighbor_min (a b : PairType) : (if a = neighbor then a else min a b) = min a b := by
  split
  next h => rw [h, min_neighbor_left]
  next => rfl

end PairType

/-! ## Section 2: 32-bit arithmetic -/

/-- The `uint32_t` difference. -/
def sub32 (a b : Nat) : Nat := (a + (2 ^ 32 - b % 2 ^ 32)) % 2 ^ 32

theorem sub32_of_le {a b : Nat} (h : b ≤ a) (ha : a < 2 ^ 32) : sub32 a b = a - b := by
  unfold sub32
  omega

/-- A bound on the ids of a list is one on what is read from it, at its end and behind. -/
theorem getD_lt_of_forall {ids : List Nat} {bound : Nat} (hpos : 0 < bound)
    (hlt : ∀ id ∈ ids, id < bound) (i : Nat) : ids.getD i 0 < bound := by
  rw [List.getD_eq_getElem?_getD]
  cases hi : ids[i]? with
  | none => exact hpos
  | some id => exact hlt id (List.mem_of_getElem? hi)

/-! ## Section 3: Layout constants -/

/-- The values of `-k`, `--vs` and `--ds`, as `InitCommonVariables` asserts them. -/
structure Config where
  /-- `K_SIZE`: 32-bit words per vertex record. -/
  kSize : Nat
  /-- `VERTEX_SIZE`, a `uint32_t`: vertex ids are `1 .. vertexSize`. -/
  vertexSize : Nat
  /-- `DEGREE`: the average degree. -/
  degree : Nat
  kSize_ne : kSize ≠ 0
  vertexSize_ne : vertexSize ≠ 0
  degree_ne : degree ≠ 0
  vertexSize_lt : vertexSize < 2 ^ 32

namespace Config

/-- The configuration of three sizes that pass the assertions. -/
def ofSizes (kSize vertexSize degree : Nat)
    (h : kSize ≠ 0 ∧ vertexSize ≠ 0 ∧ degree ≠ 0 ∧ vertexSize < 2 ^ 32) : Config where
  kSize := kSize
  vertexSize := vertexSize
  degree := degree
  kSize_ne := h.1
  vertexSize_ne := h.2.1
  degree_ne := h.2.2.1
  vertexSize_lt := h.2.2.2

variable (c : Config)

/-- `PER_ENCODE_BIT_SIZE`. -/
def perEncodeBitSize : Nat := c.kSize * 32

/-- `VERTEX_BIT_SIZE`. -/
def vertexBitSize : Nat := Nat.clog 2 c.vertexSize

/-- `MAX_K_CORE_SIZE`. -/
def maxKCoreSize : Nat := (c.perEncodeBitSize - 1) / c.vertexBitSize

/-- `LOG_K`. -/
def logK : Nat := Nat.clog 2 (c.maxKCoreSize + 1)

/-- `MAX_INTEGER_SIZE`. -/
def maxIntegerSize : Nat := (c.perEncodeBitSize - 3 - c.logK) / c.vertexBitSize

/-- `BLOCK_BEGIN_INDEX`. -/
def blockBeginIndex : Nat := 3 + c.logK

/-- `PREFIX_BIT_SIZE`, set by `InitHashConfig`. -/
def prefixBitSize : Nat := c.logK + 3

/-- `ELEMENT_SIZE`, `ceil(log2(DEGREE * VERTEX_SIZE / 2))`. -/
def elementSize : Nat := Nat.clog 2 (c.degree * c.vertexSize) - 1

/-- `Encode::vertex_id_upper_`, the `uint32_t` sum `VERTEX_SIZE + 1`. -/
def vertexIdUpper : Nat := (c.vertexSize + 1) % 2 ^ 32

end Config

namespace Config

variable (c : Config)

theorem vertexBitSize_le : c.vertexBitSize ≤ 32 := by
  have hlt := c.vertexSize_lt
  exact (Nat.clog_le_iff_le_pow (by omega)).mpr (by omega)

theorem perEncodeBitSize_ge : 32 ≤ c.perEncodeBitSize := by
  have hk := c.kSize_ne
  unfold perEncodeBitSize
  omega

/-- All slots of a fully encoded record fit behind the flag bit. -/
theorem slots_le : 1 + c.maxKCoreSize * c.vertexBitSize ≤ c.perEncodeBitSize := by
  have hdiv : c.maxKCoreSize * c.vertexBitSize ≤ c.perEncodeBitSize - 1 :=
    Nat.div_mul_le_self _ _
  have hper := c.perEncodeBitSize_ge
  omega

/-- Every slot count fits the `LOG_K`-bit size field. -/
theorem maxKCoreSize_lt : c.maxKCoreSize < 2 ^ c.logK :=
  Nat.le_pow_clog (by omega) _

theorem clog_add_four_le {n : Nat} (hn : 32 ≤ n) : Nat.clog 2 n + 4 ≤ n := by
  have hpow : n ≤ 2 ^ (n - 4) := by
    obtain ⟨m, rfl⟩ := Nat.exists_eq_add_of_le hn
    have hm : m < 2 ^ m := Nat.lt_two_pow_self
    calc 32 + m ≤ 2 ^ m * 2 ^ 28 := by omega
      _ = 2 ^ (32 + m - 4) := by rw [← Nat.pow_add]; congr 1; omega
  have hle := (Nat.clog_le_iff_le_pow (b := 2) (by omega)).mpr hpow
  omega

/-- The header leaves at least one bit of the record. -/
theorem logK_add_four_le : c.logK + 4 ≤ c.perEncodeBitSize := by
  have hper := c.perEncodeBitSize_ge
  have hmax : c.maxKCoreSize + 1 ≤ c.perEncodeBitSize := by
    have hdiv : c.maxKCoreSize ≤ c.perEncodeBitSize - 1 := Nat.div_le_self _ _
    omega
  have hlog : c.logK ≤ Nat.clog 2 c.perEncodeBitSize := Nat.clog_mono_right 2 hmax
  have := clog_add_four_le hper
  omega

theorem maxIntegerSize_le : c.maxIntegerSize ≤ c.maxKCoreSize := by
  unfold maxIntegerSize maxKCoreSize
  exact Nat.div_le_div_right (by omega)

end Config

/-- A configuration the bit-packed encoders are laid out for: records of at
    most 256 bytes, ids that fit their slots and room for one slot behind the
    header. -/
structure Config.Packed (c : Config) : Prop where
  kSize_le : c.kSize ≤ 64
  vertexSize_lt : c.vertexSize < 2 ^ c.vertexBitSize
  maxIntegerSize_pos : 1 ≤ c.maxIntegerSize

namespace Config.Packed

variable {c : Config} (hc : c.Packed)
include hc

theorem vertexBitSize_pos : 0 < c.vertexBitSize := by
  rcases Nat.eq_zero_or_pos c.vertexBitSize with h | h
  · have hlt := hc.vertexSize_lt
    rw [h] at hlt
    have hne := c.vertexSize_ne
    omega
  · exact h

theorem perEncodeBitSize_le : c.perEncodeBitSize ≤ 2048 := by
  have hk := hc.kSize_le
  unfold perEncodeBitSize
  omega

theorem header_le : 3 + c.logK + c.vertexBitSize ≤ c.perEncodeBitSize := by
  have hpos := hc.maxIntegerSize_pos
  have hvb := hc.vertexBitSize_pos
  have hle : c.vertexBitSize ≤ c.perEncodeBitSize - 3 - c.logK := by
    by_contra hlt
    have hzero : c.maxIntegerSize = 0 := Nat.div_eq_of_lt (by omega)
    omega
  omega

/-- A block of `maxIntegerSize` slots fits behind the header. -/
theorem block_le :
    c.blockBeginIndex + c.maxIntegerSize * c.vertexBitSize ≤ c.perEncodeBitSize := by
  have hdiv : c.maxIntegerSize * c.vertexBitSize ≤ c.perEncodeBitSize - 3 - c.logK :=
    Nat.div_mul_le_self _ _
  have hle := hc.header_le
  unfold blockBeginIndex
  omega

/-- And so does a shorter block. -/
theorem block_le_of_le {n : Nat} (hn : n ≤ c.maxIntegerSize) :
    3 + c.logK + n * c.vertexBitSize ≤ c.perEncodeBitSize := by
  have hblock := hc.block_le
  have hmul : n * c.vertexBitSize ≤ c.maxIntegerSize * c.vertexBitSize :=
    Nat.mul_le_mul_right _ hn
  unfold blockBeginIndex at hblock
  omega

theorem logK_pos : 0 < c.logK := by
  have h := c.maxKCoreSize_lt
  have hle := c.maxIntegerSize_le
  have hpos := hc.maxIntegerSize_pos
  rcases Nat.eq_zero_or_pos c.logK with h₀ | h₀
  · rw [h₀] at h; omega
  · exact h₀

theorem maxKCoreSize_lt : c.maxKCoreSize < 2048 := by
  have hmax : c.maxKCoreSize ≤ c.perEncodeBitSize - 1 := Nat.div_le_self _ _
  have hper := hc.perEncodeBitSize_le
  omega

theorem logK_le : c.logK ≤ 32 := by
  have hmax := hc.maxKCoreSize_lt
  exact (Nat.clog_le_iff_le_pow (by omega)).mpr (by norm_num; omega)

end Config.Packed

/-- A configuration of the SIMD encoders: records of at most 40 bytes, and ids that
    compare alike as signed and as unsigned numbers. -/
structure Config.Narrow (c : Config) : Prop where
  kSize_le : c.kSize ≤ 10
  vertexSize_lt : c.vertexSize < 2 ^ 31

theorem Config.Narrow.perEncodeBitSize_le {c : Config} (hc : c.Narrow) :
    c.perEncodeBitSize ≤ 320 := by
  have := hc.kSize_le
  unfold Config.perEncodeBitSize
  omega

end Vend
