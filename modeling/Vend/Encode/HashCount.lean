import Vend.Common.Config
import Vend.Lib.SlotCount

/-! # `HashCount`

    `encode/hash_count.h` and `hash_count.cpp`: the occupancy counts of a hash
    area of `hash_size_` bits, and the score that the block searches maximise.
    All arithmetic is on `uint32_t`.
-/

namespace Vend

/-- `enum BlockType`. -/
inductive BlockType where
  | fullHash
  | leftMost
  | rightMost
  | middle
  deriving DecidableEq, Repr

/-- The value of the enumerator. -/
def BlockType.val : BlockType → Nat
  | .fullHash => 1
  | .leftMost => 2
  | .rightMost => 4
  | .middle => 8

/-- `class HashCount`. -/
structure HashCount where
  hashArray : List Nat
  hashSize : Nat
  hashCount : Nat
  deriving Repr

namespace HashCount

/-! ## Section 1: Model -/

def hash (h : HashCount) (key : Nat) : Nat :=
  if h.hashSize = 0 then 0 else key % h.hashSize

def addHash (h : HashCount) (key : Nat) : HashCount :=
  let val := h.hash key
  let old := h.hashArray.getD val 0
  { h with
    hashCount := if old = 0 then h.hashCount + 1 else h.hashCount
    hashArray := h.hashArray.set val (old + 1) }

def removeHash (h : HashCount) (key : Nat) : HashCount :=
  let val := h.hash key
  let old := h.hashArray.getD val 0
  if 0 < old then
    { h with
      hashCount := if old - 1 = 0 then h.hashCount - 1 else h.hashCount
      hashArray := h.hashArray.set val (old - 1) }
  else h

/-- The empty area behind a block of `blockSize` slots. -/
def emptyFor (c : Config) (blockSize : Nat) : HashCount :=
  { hashArray := List.replicate c.perEncodeBitSize 0
    hashSize := sub32 (sub32 c.perEncodeBitSize c.prefixBitSize) (blockSize * c.vertexBitSize)
    hashCount := 0 }

/-- `ReConstruct(neighbors, block_size, reverse)`. -/
def reConstruct (c : Config) (neighbors : List Nat) (blockSize : Nat) (reverse : Bool) :
    HashCount :=
  if reverse then
    (neighbors.take (sub32 (sub32 neighbors.length blockSize) 1)).foldl addHash
      (emptyFor c blockSize)
  else
    (neighbors.drop blockSize).foldl addHash (emptyFor c blockSize)

/-- The ids between which the block of a candidate answers by itself. -/
def blockBounds (c : Config) (neighbors : List Nat) (blockSize firstIdx : Nat) :
    BlockType → Nat × Nat
  | .fullHash => (0, 0)
  | .leftMost => (0, neighbors.getD (sub32 (firstIdx + blockSize) 1) 0)
  | .rightMost => (neighbors.getD firstIdx 0, c.vertexSize)
  | .middle =>
    (neighbors.getD firstIdx 0, neighbors.getD (sub32 (firstIdx + blockSize) 1) 0)

/-- `GetScore(neighbors, block_size, first_idx, type)`. -/
def getScore (c : Config) (h : HashCount) (neighbors : List Nat) (blockSize firstIdx : Nat)
    (type : BlockType) : Nat :=
  match type with
  | .fullHash => c.vertexSize / h.hashSize * sub32 h.hashSize h.hashCount % 2 ^ 32
  | _ =>
    let (first, last) := blockBounds c neighbors blockSize firstIdx type
    let inside := (sub32 last first + 1) % 2 ^ 32
    let hashed :=
      if h.hashSize = 0 then 0
      else (sub32 c.vertexSize last + first) % 2 ^ 32 / h.hashSize
        * sub32 h.hashSize h.hashCount % 2 ^ 32
    (inside + hashed) % 2 ^ 32

/-- `HashCount(block_size)`: an area of `hashSize` bits. -/
def ofHashSize (hashSize : Nat) : HashCount :=
  { hashArray := List.replicate hashSize 0, hashSize := hashSize, hashCount := 0 }

/-- `Construct(neighbors)`. With `hash_size_ = 0` the loop writes behind an array of
    no elements; the counts are not used then. -/
def construct (h : HashCount) (neighbors : List Nat) : HashCount := neighbors.foldl addHash h

/-- The loop of `GetVal` that takes the block out of `hash_copy`: the bits that stay
    zero. -/
def takeOut (h : HashCount) : List Nat → List Nat → Nat → Nat
  | [], _, zeroCount => zeroCount
  | key :: keys, hashCopy, zeroCount =>
    let val := h.hash key
    let old := hashCopy.getD val 0
    takeOut h keys (hashCopy.set val (sub32 old 1)) (if old = 1 then zeroCount + 1 else zeroCount)

/-- `GetVal(neighbors, first_idx, block_size, type)`. -/
def getVal (c : Config) (h : HashCount) (neighbors : List Nat) (firstIdx blockSize : Nat)
    (type : BlockType) : Nat :=
  let zeroCount := takeOut h ((neighbors.drop firstIdx).take blockSize) h.hashArray
    (h.hashSize - h.hashCount)
  match type with
  | .fullHash => if h.hashSize = 0 then 0 else c.vertexSize / h.hashSize * zeroCount % 2 ^ 32
  | _ =>
    let (first, last) := blockBounds c neighbors blockSize firstIdx type
    let inside := (sub32 last first + 1) % 2 ^ 32
    let hashed :=
      if h.hashSize = 0 then 0
      else (sub32 c.vertexSize last + first) % 2 ^ 32 / h.hashSize * zeroCount % 2 ^ 32
    (inside + hashed) % 2 ^ 32

/-! ## Section 2: `hash_count_` is the number of occupied counters -/

/-- The counters in use. -/
def occupied (h : HashCount) : Finset Nat :=
  (Finset.range h.hashSize).filter fun i => h.hashArray.getD i 0 ≠ 0

/-- `hash_count_` tracks the occupied counters of a nonempty area. -/
structure Tracks (h : HashCount) : Prop where
  size_pos : 0 < h.hashSize
  size_le : h.hashSize ≤ h.hashArray.length
  count_eq : h.hashCount = h.occupied.card

theorem hash_lt {h : HashCount} (hpos : 0 < h.hashSize) (key : Nat) :
    h.hash key < h.hashSize := by
  unfold hash
  rw [if_neg (by omega)]
  exact Nat.mod_lt _ hpos

@[simp] theorem hashSize_addHash (h : HashCount) (key : Nat) :
    (h.addHash key).hashSize = h.hashSize := rfl

@[simp] theorem hashSize_removeHash (h : HashCount) (key : Nat) :
    (h.removeHash key).hashSize = h.hashSize := by
  simp only [removeHash]
  split <;> rfl

theorem occupied_addHash {h : HashCount} (ht : h.Tracks) (key : Nat) :
    (h.addHash key).occupied = insert (h.hash key) h.occupied := by
  have hlt := hash_lt ht.size_pos key
  have hle := ht.size_le
  ext i
  simp only [occupied, addHash, Finset.mem_filter, Finset.mem_range, Finset.mem_insert,
    List.getD_eq_getElem?_getD]
  by_cases hi : i = h.hash key
  · subst hi
    simp [hlt, show h.hash key < h.hashArray.length by omega]
  · have hne : h.hash key ≠ i := fun e => hi e.symm
    simp [hi, hne]

theorem Tracks.addHash {h : HashCount} (ht : h.Tracks) (key : Nat) : (h.addHash key).Tracks := by
  refine ⟨ht.size_pos, by simpa [HashCount.addHash] using ht.size_le, ?_⟩
  rw [occupied_addHash ht]
  have hlt := hash_lt ht.size_pos key
  by_cases hmem : h.hashArray.getD (h.hash key) 0 = 0
  · have hnot : h.hash key ∉ h.occupied := by
      intro hin
      exact (Finset.mem_filter.mp hin).2 hmem
    rw [Finset.card_insert_of_notMem hnot, ← ht.count_eq]
    simp only [HashCount.addHash, hmem, if_true]
  · have hin : h.hash key ∈ h.occupied := by
      simp only [occupied, Finset.mem_filter, Finset.mem_range]
      exact ⟨hlt, hmem⟩
    rw [Finset.insert_eq_of_mem hin, ← ht.count_eq]
    simp only [HashCount.addHash, hmem, if_false]

theorem Tracks.foldl_addHash {h : HashCount} (ht : h.Tracks) (keys : List Nat) :
    (keys.foldl HashCount.addHash h).Tracks := by
  induction keys generalizing h with
  | nil => exact ht
  | cons key keys ih => exact ih (ht.addHash key)

@[simp] theorem hashSize_foldl_addHash (h : HashCount) (keys : List Nat) :
    (keys.foldl addHash h).hashSize = h.hashSize := by
  induction keys generalizing h with
  | nil => rfl
  | cons key keys ih => rw [List.foldl_cons, ih, hashSize_addHash]

theorem Tracks.count_le {h : HashCount} (ht : h.Tracks) : h.hashCount ≤ h.hashSize := by
  rw [ht.count_eq]
  calc h.occupied.card ≤ (Finset.range h.hashSize).card := Finset.card_filter_le _ _
    _ = h.hashSize := Finset.card_range _

theorem tracks_emptyFor {c : Config} {blockSize : Nat} (hpos : 0 < (emptyFor c blockSize).hashSize)
    (hle : (emptyFor c blockSize).hashSize ≤ c.perEncodeBitSize) : (emptyFor c blockSize).Tracks := by
  refine ⟨hpos, by simpa [emptyFor] using hle, ?_⟩
  have hempty : (emptyFor c blockSize).occupied = ∅ := by
    apply Finset.filter_eq_empty_iff.mpr
    intro i _
    by_cases hi : i < c.perEncodeBitSize
    · simp [emptyFor, hi]
    · simp [emptyFor, hi]
  rw [hempty, Finset.card_empty]
  rfl

/-! ## Section 3: A one-slot leftmost block always scores -/

/-- The size of the hash area behind a block that fits. -/
theorem hashSize_emptyFor {c : Config} (hper : c.perEncodeBitSize < 2 ^ 32) {blockSize : Nat}
    (hle : blockSize ≤ c.maxIntegerSize) :
    (emptyFor c blockSize).hashSize =
      c.perEncodeBitSize - c.prefixBitSize - blockSize * c.vertexBitSize := by
  have hlog := c.logK_add_four_le
  have hmul : blockSize * c.vertexBitSize ≤ c.perEncodeBitSize - 3 - c.logK :=
    calc blockSize * c.vertexBitSize ≤ c.maxIntegerSize * c.vertexBitSize :=
          Nat.mul_le_mul_right _ hle
      _ ≤ c.perEncodeBitSize - 3 - c.logK := Nat.div_mul_le_self _ _
  simp only [emptyFor, Config.prefixBitSize]
  rw [sub32_of_le (a := c.perEncodeBitSize) (by omega) (by omega),
    sub32_of_le (by omega) (by omega)]

/-- The score of `LeftMost` with one slot is at least `neighbors[0] + 1`, so
    `DynamicChoose` always accepts some candidate. -/
theorem getScore_leftMost_pos {c : Config} (hc : c.Packed) (hv : c.vertexSize + 1 < 2 ^ 32)
    {neighbors : List Nat} (hfirst : neighbors.getD 0 0 ≤ c.vertexSize) :
    0 < (reConstruct c neighbors 1 false).getScore c neighbors 1 0 .leftMost := by
  have hsub : sub32 (0 + 1) 1 = 0 := by decide
  have hsize : (reConstruct c neighbors 1 false).hashSize = (emptyFor c 1).hashSize := by
    simp [reConstruct]
  have hinside : sub32 (neighbors.getD 0 0) 0 = neighbors.getD 0 0 := by
    rw [sub32_of_le (by omega) (by omega), Nat.sub_zero]
  have hout : (sub32 c.vertexSize (neighbors.getD 0 0) + 0) % 2 ^ 32 =
      c.vertexSize - neighbors.getD 0 0 := by
    rw [sub32_of_le hfirst (by omega)]
    omega
  simp only [getScore, blockBounds, hsub, hinside, hout]
  split
  · omega
  · rename_i hne
    have hpos : 0 < (emptyFor c 1).hashSize := by omega
    have hle : (emptyFor c 1).hashSize ≤ c.perEncodeBitSize := by
      have hsmall := hc.perEncodeBitSize_le
      rw [hashSize_emptyFor (by omega) hc.maxIntegerSize_pos]
      omega
    have htracks : (reConstruct c neighbors 1 false).Tracks := by
      simpa [reConstruct] using (tracks_emptyFor hpos hle).foldl_addHash _
    have hcount := htracks.count_le
    have hper := hc.perEncodeBitSize_le
    rw [sub32_of_le hcount (by omega)]
    -- the hashed part counts at most the ids behind the block
    have hbound : (c.vertexSize - neighbors.getD 0 0) / (reConstruct c neighbors 1 false).hashSize *
        ((reConstruct c neighbors 1 false).hashSize -
          (reConstruct c neighbors 1 false).hashCount) ≤ c.vertexSize - neighbors.getD 0 0 :=
      calc _ ≤ (c.vertexSize - neighbors.getD 0 0) /
            (reConstruct c neighbors 1 false).hashSize *
              (reConstruct c neighbors 1 false).hashSize :=
            Nat.mul_le_mul_left _ (Nat.sub_le _ _)
        _ ≤ _ := Nat.div_mul_le_self _ _
    omega

/-! ## Section 4: The keys that are counted -/

/-- The counters are those of the keys, and `hash_count_` is the number of their slots. -/
structure Exact (h : HashCount) (keys : List Nat) : Prop where
  size_pos : 0 < h.hashSize
  counts : SlotCount.Counts h.hashArray h.hashSize (keys.map h.hash)
  count_eq : h.hashCount = SlotCount.used (keys.map h.hash)

theorem Exact.perm {h : HashCount} {keys keys' : List Nat} (he : h.Exact keys)
    (hperm : keys.Perm keys') : h.Exact keys' := by
  refine ⟨he.size_pos, he.counts.perm (hperm.map _), he.count_eq.trans ?_⟩
  exact SlotCount.used_congr fun i => (hperm.map h.hash).mem_iff

theorem Exact.addHash {h : HashCount} {keys : List Nat} (he : h.Exact keys) (key : Nat) :
    (h.addHash key).Exact (key :: keys) := by
  have hlt := hash_lt he.size_pos key
  refine ⟨he.size_pos, he.counts.add hlt, ?_⟩
  have hzero := he.counts.getD_eq_zero_iff hlt
  show (if h.hashArray.getD (h.hash key) 0 = 0 then h.hashCount + 1 else h.hashCount) =
    SlotCount.used (h.hash key :: keys.map h.hash)
  rw [SlotCount.used_cons, he.count_eq]
  by_cases hmem : h.hash key ∈ keys.map h.hash
  · rw [if_pos hmem, if_neg fun heq => hzero.mp heq hmem]
  · rw [if_neg hmem, if_pos (hzero.mpr hmem)]

/-- A key that is counted can be taken back. -/
theorem Exact.removeHash {h : HashCount} {key : Nat} {keys : List Nat} (he : h.Exact (key :: keys)) :
    (h.removeHash key).Exact keys := by
  have hlt := hash_lt he.size_pos key
  have hold : h.hashArray.getD (h.hash key) 0 = (keys.map h.hash).count (h.hash key) + 1 := by
    rw [he.counts.getD_eq _ hlt, List.map_cons, List.count_cons_self]
  have hremove := he.counts.remove hlt
  have hcount := he.count_eq
  rw [List.map_cons, SlotCount.used_cons] at hcount
  unfold HashCount.removeHash
  rw [if_pos (by omega)]
  refine ⟨he.size_pos, hremove, ?_⟩
  show (if h.hashArray.getD (h.hash key) 0 - 1 = 0 then h.hashCount - 1 else h.hashCount) =
    SlotCount.used (keys.map h.hash)
  rw [hcount]
  by_cases hmem : h.hash key ∈ keys.map h.hash
  · have hpos := List.count_pos_iff.mpr hmem
    rw [if_pos hmem, if_neg (by omega)]
  · have hnone := List.count_eq_zero.mpr hmem
    rw [if_neg hmem, if_pos (by omega), Nat.add_sub_cancel]

theorem Exact.foldl_addHash {h : HashCount} {keys : List Nat} (he : h.Exact keys)
    (more : List Nat) : (more.foldl HashCount.addHash h).Exact (more ++ keys) := by
  induction more generalizing h keys with
  | nil => exact he
  | cons key more ih =>
    refine (ih (he.addHash key)).perm ?_
    exact List.perm_middle

/-- No key is counted in cleared counters. -/
theorem exact_replicate {size n : Nat} (hpos : 0 < size) (hle : size ≤ n) :
    Exact ⟨List.replicate n 0, size, 0⟩ [] :=
  ⟨hpos, SlotCount.counts_replicate hle, rfl⟩

end HashCount

end Vend
