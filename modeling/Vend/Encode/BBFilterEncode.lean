import Vend.Common.Layout
import Vend.Encode.BFilterEncode

/-! # Blocked bloom filter

    `BBFilterEncode`: the bitset of `BFilterBitEncode` cut into blocks of 512 bits. A first
    hash function picks the block of a pair, the others pick bits inside it.

    Both filters only ever set bits, so the bitset after a sequence of insertions is the
    set of the positions of its pairs. That a pair is never missed and that the order of
    the insertions does not matter is read off this set (`Insertions`), once the positions
    are known to lie inside the bitset. For the blocked filter the number of blocks comes
    from a product in `uint32_t`. Where it wraps, the blocks cover less than the bitset.
-/

namespace Vend

open CBFilterEncode (ordered ordered_comm)

/-! ## Section 1: Model -/

/-- `BIT_HASH_BEST_NUMS`, as the last assignment of `InitHashConfig` leaves it. -/
def bitHashBestNums : Nat := 1

/-- `B_FILTER_ENCODE_BITS`, the `uint32_t` product `VERTEX_SIZE * K_SIZE`. -/
def Config.bFilterEncodeBits (c : Config) : Nat := c.vertexSize * c.kSize % 2 ^ 32

/-- `BLOCK_NUMS`. -/
def Config.blockNums (c : Config) : Nat := c.bFilterEncodeBits * 32 / 512

namespace BBFilterEncode

open BFilterEncode

/-- `BlockHash(key1, key2)`. -/
def blockHash (c : Config) (key1 key2 : Nat) : Nat :=
  (key1 * 19692027 + key2 * 3201251) % 2 ^ 64 % c.blockNums

/-- `block_offset + Hash(..)` in the loop over `best_hash_nums_`, the smaller id first.
    This `Hash` takes the remainder by `block_size_`. -/
def positions (c : Config) (bestHashNums vertex1 vertex2 : Nat) : List Nat :=
  let pair := ordered vertex1 vertex2
  let blockOffset := blockHash c pair.1 pair.2 * blockSize % 2 ^ 64
  (hashVals blockSize bestHashNums vertex1 vertex2).map fun hash => (blockOffset + hash) % 2 ^ 64

/-- `EdgeSet(vertex1, vertex2)`. -/
def edgeSet (c : Config) (bestHashNums : Nat) (encode : BitSetSIMD) (vertex1 vertex2 : Nat) :
    BitSetSIMD :=
  (positions c bestHashNums vertex1 vertex2).foldl BitSetSIMD.setOne encode

/-- `InsertPair(vertex1, vertex2)`. -/
def insertPair (c : Config) (bestHashNums : Nat) (encode : BitSetSIMD) (vertex1 vertex2 : Nat) :
    BitSetSIMD :=
  edgeSet c bestHashNums encode vertex1 vertex2

/-- `NEpairTest(vertex1, vertex2)`. -/
def nePairTest (c : Config) (bestHashNums : Nat) (encode : BitSetSIMD) (vertex1 vertex2 : Nat) :
    PairType :=
  if (positions c bestHashNums vertex1 vertex2).any fun pos => !encode.isOne pos then .nonNeighbor
  else .uncertain

end BBFilterEncode

/-! ## Section 2: Insertions into a bit filter -/

/-- The calls that set bits. -/
inductive Insertion where
  | edgeSet (u v : Nat)
  | insertPair (u v : Nat)

namespace Insertion

/-- The arguments of a call, in the order in which they are passed. -/
def args : Insertion → Nat × Nat
  | edgeSet u v | insertPair u v => (u, v)

/-- The pair without its orientation. -/
def pair (call : Insertion) : Nat × Nat := ordered call.args.1 call.args.2

end Insertion

/-- Calls on a filter that has just been cleared. -/
def insertions (edgeSet insertPair : BitSetSIMD → Nat → Nat → BitSetSIMD) (encode : BitSetSIMD)
    (calls : List Insertion) : BitSetSIMD :=
  calls.foldl (fun encode call => match call with
    | .edgeSet u v => edgeSet encode u v
    | .insertPair u v => insertPair encode u v) encode.clear

/-- What a bit filter guarantees: it touches no position behind the bitset, it answers
    `Uncertain` for every inserted pair in either orientation, and the bits depend neither
    on the order of the calls nor on the orientation of their pairs. -/
structure NeverMisses (bits : Nat) (positions : Nat → Nat → List Nat)
    (run : List Insertion → BitSetSIMD) (test : BitSetSIMD → Nat → Nat → PairType) : Prop where
  inRange : ∀ u v, ∀ p ∈ positions u v, p < bits
  uncertain : ∀ calls, ∀ call ∈ calls,
    test (run calls) call.args.1 call.args.2 = .uncertain ∧
    test (run calls) call.args.2 call.args.1 = .uncertain
  order : ∀ calls calls', (calls.map Insertion.pair).Perm (calls'.map Insertion.pair) →
    run calls = run calls'

section

variable {bits : Nat} {positions : Nat → Nat → List Nat} {encode : BitSetSIMD}
variable (hsize : bits ≤ encode.bitLength) (hrange : ∀ u v, ∀ p ∈ positions u v, p < bits)
variable (hsymm : ∀ u v, positions u v = positions v u)

/-- A filter that sets and tests the positions of a pair. -/
def setPair (positions : Nat → Nat → List Nat) (encode : BitSetSIMD) (u v : Nat) : BitSetSIMD :=
  (positions u v).foldl BitSetSIMD.setOne encode

/-- The test that belongs to `setPair`. -/
def testPair (positions : Nat → Nat → List Nat) (encode : BitSetSIMD) (u v : Nat) : PairType :=
  if (positions u v).any fun pos => !encode.isOne pos then .nonNeighbor else .uncertain

/-- The calls set the positions of their pairs, one after the other. -/
theorem insertions_eq (calls : List Insertion) :
    insertions (setPair positions) (setPair positions) encode calls =
      (calls.flatMap fun call => positions call.args.1 call.args.2).foldl BitSetSIMD.setOne
        encode.clear := by
  rw [insertions, List.foldl_flatMap]
  congr 1
  funext encode call
  cases call <;> rfl

include hsymm in
theorem positions_pair (call : Insertion) :
    positions call.args.1 call.args.2 = positions call.pair.1 call.pair.2 := by
  rw [Insertion.pair, CBFilterEncode.ordered]
  split
  · exact hsymm _ _
  · rfl

include hsize hrange hsymm

/-- A filter that sets the positions of a pair never misses one. -/
theorem neverMisses_setPair : NeverMisses bits positions
    (insertions (setPair positions) (setPair positions) encode) (testPair positions) := by
  have hlt : ∀ calls : List Insertion,
      ∀ p ∈ calls.flatMap fun call => positions call.args.1 call.args.2,
        p < encode.clear.bitLength := by
    intro calls p hp
    obtain ⟨call, -, hpos⟩ := List.mem_flatMap.mp hp
    have := hrange _ _ p hpos
    rw [BitSetSIMD.bitLength, BitSetSIMD.length_clear]
    unfold BitSetSIMD.bitLength at hsize
    omega
  have htest : ∀ calls u v, (∀ p ∈ positions u v,
      p ∈ calls.flatMap fun call => positions call.args.1 call.args.2) →
      testPair positions (insertions (setPair positions) (setPair positions) encode calls) u v =
        .uncertain := by
    intro calls u v hall
    have hnone : ¬ (positions u v).any (fun pos => !(insertions (setPair positions)
        (setPair positions) encode calls).isOne pos) = true := by
      rw [List.any_eq_true]
      rintro ⟨p, hp, hzero⟩
      rw [insertions_eq, BitSetSIMD.isOne_eq_bit, (BitSetSIMD.bit_setOnes _ (hlt calls)).2,
        decide_eq_true (hall p hp)] at hzero
      simp at hzero
    rw [testPair, if_neg hnone]
  refine ⟨hrange, fun calls call hcall => ?_, fun calls calls' hperm => ?_⟩
  · have hall : ∀ p ∈ positions call.args.1 call.args.2,
        p ∈ calls.flatMap fun call => positions call.args.1 call.args.2 :=
      fun p hp => List.mem_flatMap.mpr ⟨call, hcall, hp⟩
    refine ⟨htest calls _ _ hall, htest calls _ _ ?_⟩
    rwa [hsymm]
  · rw [insertions_eq, insertions_eq]
    apply BitSetSIMD.setOnes_congr _ (hlt calls)
    intro p
    -- the positions are those of the pairs without their orientation
    have hpairs : ∀ calls : List Insertion,
        (calls.flatMap fun call => positions call.args.1 call.args.2) =
          (calls.map Insertion.pair).flatMap fun pair => positions pair.1 pair.2 := by
      intro calls
      rw [List.flatMap_map]
      congr 1
      funext call
      exact positions_pair hsymm call
    rw [hpairs, hpairs]
    exact (hperm.flatMap_right _).mem_iff

end

/-! ## Section 3: The two filters -/

section

variable {c : Config} (hk : c.perEncodeBitSize < 2 ^ 31)
include hk

theorem product_lt : c.vertexSize * c.kSize * 32 < 2 ^ 63 := by
  have hv := c.vertexSize_lt
  have hper : c.kSize * 32 < 2 ^ 31 := hk
  have hmul : c.vertexSize * (c.kSize * 32) < 2 ^ 32 * 2 ^ 31 := Nat.mul_lt_mul'' hv hper
  rw [Nat.mul_assoc]
  omega

theorem BFilterBitEncode.hashSize_eq :
    BFilterBitEncode.hashSize c = 32 * c.kSize * c.vertexSize := by
  have hlt := product_lt hk
  rw [BFilterBitEncode.hashSize, Nat.mod_eq_of_lt (by omega), Nat.mul_comm 32, Nat.mul_assoc,
    Nat.mul_comm]

theorem BFilterBitEncode.bitLength_fresh :
    (BFilterBitEncode.fresh c).bitLength = 32 * c.kSize * c.vertexSize := by
  rw [BFilterBitEncode.fresh, BitSetSIMD.bitLength, BitSetSIMD.length_ofBitSize,
    BFilterBitEncode.hashSize_eq hk, Nat.mul_assoc]
  omega

end

theorem BFilterEncode.hashVals_lt {hashSize : Nat} (hpos : 0 < hashSize) (n u v : Nat) :
    ∀ p ∈ BFilterEncode.hashVals hashSize n u v, p < hashSize := by
  intro p hp
  obtain ⟨i, -, rfl⟩ := List.mem_map.mp hp
  exact Nat.mod_lt _ hpos

theorem BFilterEncode.hashVals_comm (hashSize n u v : Nat) :
    BFilterEncode.hashVals hashSize n u v = BFilterEncode.hashVals hashSize n v u := by
  rw [BFilterEncode.hashVals, BFilterEncode.hashVals, ordered_comm]

theorem BBFilterEncode.positions_comm (c : Config) (n u v : Nat) :
    BBFilterEncode.positions c n u v = BBFilterEncode.positions c n v u := by
  rw [BBFilterEncode.positions, BBFilterEncode.positions, ordered_comm,
    BFilterEncode.hashVals_comm]

/-- The blocks lie inside the bitset: where the 32-bit product wraps it only gets smaller. -/
theorem Config.blockNums_le (c : Config) :
    c.blockNums * blockSize ≤ 32 * c.kSize * c.vertexSize := by
  have hdiv : c.bFilterEncodeBits * 32 / 512 * 512 ≤ c.bFilterEncodeBits * 32 :=
    Nat.div_mul_le_self _ _
  have hmod : c.bFilterEncodeBits ≤ c.vertexSize * c.kSize := Nat.mod_le _ _
  rw [Config.blockNums, blockSize, Nat.mul_assoc, Nat.mul_comm c.kSize]
  omega

theorem BBFilterEncode.positions_lt {c : Config} (hblocks : 1 ≤ c.blockNums) (n u v : Nat) :
    ∀ p ∈ BBFilterEncode.positions c n u v, p < 32 * c.kSize * c.vertexSize := by
  intro p hp
  obtain ⟨hash, hhash, rfl⟩ := List.mem_map.mp hp
  have hin : hash < blockSize := BFilterEncode.hashVals_lt (by decide) n u v hash hhash
  have hblock : BBFilterEncode.blockHash c (ordered u v).1 (ordered u v).2 < c.blockNums :=
    Nat.mod_lt _ hblocks
  have hnext := Nat.mul_le_mul_right blockSize hblock
  have hall := c.blockNums_le
  rw [Nat.succ_mul] at hnext
  have hoffset : BBFilterEncode.blockHash c (ordered u v).1 (ordered u v).2 * blockSize % 2 ^ 64 ≤
      BBFilterEncode.blockHash c (ordered u v).1 (ordered u v).2 * blockSize := Nat.mod_le _ _
  have hsum := Nat.mod_le (BBFilterEncode.blockHash c (ordered u v).1 (ordered u v).2 * blockSize %
    2 ^ 64 + hash) (2 ^ 64)
  omega

/-- The plain and the blocked filter touch no bit behind the bitset, never miss an
    inserted pair, and do not depend on the order or the orientation of the calls. -/
theorem bit_filters_never_miss {c : Config} (hk : c.perEncodeBitSize < 2 ^ 31)
    (hblocks : 1 ≤ c.blockNums) :
    NeverMisses (32 * c.kSize * c.vertexSize)
      (BFilterEncode.hashVals (BFilterBitEncode.hashSize c) bitHashBestNums)
      (insertions (BFilterBitEncode.edgeSet c bitHashBestNums)
        (BFilterBitEncode.insertPair c bitHashBestNums) (BFilterBitEncode.fresh c))
      (BFilterBitEncode.nePairTest c bitHashBestNums) ∧
    NeverMisses (32 * c.kSize * c.vertexSize) (BBFilterEncode.positions c bitHashBestNums)
      (insertions (BBFilterEncode.edgeSet c bitHashBestNums)
        (BBFilterEncode.insertPair c bitHashBestNums) (BFilterBitEncode.fresh c))
      (BBFilterEncode.nePairTest c bitHashBestNums) := by
  have hsize : 32 * c.kSize * c.vertexSize ≤ (BFilterBitEncode.fresh c).bitLength := by
    rw [BFilterBitEncode.bitLength_fresh hk]
  have hpos : 0 < BFilterBitEncode.hashSize c := by
    have hk₀ := Nat.pos_of_ne_zero c.kSize_ne
    rw [BFilterBitEncode.hashSize_eq hk]
    exact Nat.mul_pos (by omega) (Nat.pos_of_ne_zero c.vertexSize_ne)
  refine ⟨neverMisses_setPair hsize (fun u v p hp => ?_) (BFilterEncode.hashVals_comm _ _),
    neverMisses_setPair hsize (BBFilterEncode.positions_lt hblocks _)
      (BBFilterEncode.positions_comm c _)⟩
  rw [← BFilterBitEncode.hashSize_eq hk]
  exact BFilterEncode.hashVals_lt hpos _ u v p hp

/-- Sixteen vertices of one word: a single block. -/
def sixteenConfig : Config := Config.ofSizes 1 16 1 (by decide)

theorem bit_filters_never_miss_block :
    NeverMisses (32 * sixteenConfig.kSize * sixteenConfig.vertexSize)
      (BFilterEncode.hashVals (BFilterBitEncode.hashSize sixteenConfig) bitHashBestNums)
      (insertions (BFilterBitEncode.edgeSet sixteenConfig bitHashBestNums)
        (BFilterBitEncode.insertPair sixteenConfig bitHashBestNums)
        (BFilterBitEncode.fresh sixteenConfig))
      (BFilterBitEncode.nePairTest sixteenConfig bitHashBestNums) ∧
    NeverMisses (32 * sixteenConfig.kSize * sixteenConfig.vertexSize)
      (BBFilterEncode.positions sixteenConfig bitHashBestNums)
      (insertions (BBFilterEncode.edgeSet sixteenConfig bitHashBestNums)
        (BBFilterEncode.insertPair sixteenConfig bitHashBestNums)
        (BFilterBitEncode.fresh sixteenConfig))
      (BBFilterEncode.nePairTest sixteenConfig bitHashBestNums) :=
  bit_filters_never_miss (by decide) (by decide)

end Vend
