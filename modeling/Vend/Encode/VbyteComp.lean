import Vend.Encode.Compression
import Vend.Encode.RangeCompEncode
import Vend.Lib.OrderedSearch
import Vend.Lib.Vbyte

/-! # `VbyteComp`

    `encode/single/compression.h`: ids in bytes of seven bits, one to four bytes each.

    What is written with `compress` is read back with `decode` as long as four groups hold
    the number (`roundTrip_iff`). A list that fits is stored and found exactly. For one that
    does not fit, `DynamicEncode` scores every block by the element behind it, and behind
    the last two elements there is none (`search_eq_none`).
-/

namespace Vend

namespace VbyteComp

open BitSetSIMD
open RangeCompEncode (verdict verdict_eq_neighbor)

/-! ## Section 1: Model -/

/-- `compress(value)`. -/
def compress (value : Nat) : Nat :=
  let bytes := integerBytes value
  -- one byte has no flag bit to set
  if bytes = 1 then value
  else if bytes = 2 then ((value &&& 0x3F80) <<< 1) ||| 0x8000 ||| (value &&& 0x7F)
  else if bytes = 3 then
    ((value &&& 0x1FC000) <<< 2) ||| 0x808000 ||| ((value &&& 0x3F80) <<< 1) |||
      (value &&& 0x7F)
  else
    ((value &&& 0xFE00000) <<< 3) ||| 0x80808000 ||| ((value &&& 0x1FC000) <<< 2) |||
      ((value &&& 0x3F80) <<< 1) ||| (value &&& 0x7F)

/-- The loop of `decode`. `ptr` are the bytes from the pointer to the end of the record, and
    behind them there is nothing to read. -/
def decodeLoop : Nat → Nat → List Byte → Option (Nat × Nat × List Byte)
  | _, _, [] => none
  | res, len, b :: ptr =>
    -- a `uint32_t` loses its upper bits in the shift
    let res := (res <<< 7) % 2 ^ 32 ||| (b &&& 0x7F).toNat
    if b &&& 0x80 = 0 then some (res, len + 1, ptr) else decodeLoop res (len + 1) ptr

/-- `decode(ptr, len)`: the number, and `len` and `ptr` behind it. -/
def decode (len : Nat) (ptr : List Byte) : Option (Nat × Nat × List Byte) := decodeLoop 0 len ptr

/-- `GetAllBits(list)`. -/
def getAllBits (list : List Nat) : List Nat := list.map fun v => integerBytes v * 8

/-- `Encode(list, encode, shift)`. -/
def encode (list : List Nat) (encode : BitSetSIMD) (shift : Nat) : Option BitSetSIMD :=
  encode.blockSetFields shift ((getAllBits list).zip (list.map compress))

/-- The `while` loop of `DynamicEncode`: how many of the sizes fit behind `bitsNum` bits. -/
def growBlock (c : Config) (shift : Nat) : Nat → List Nat → Nat
  | _, [] => 0
  | bitsNum, bits :: allBits =>
    -- the next number would end behind the record
    if c.perEncodeBitSize < bitsNum + bits + shift then 0
    else growBlock c shift (bitsNum + bits) allBits + 1

/-- `best_block`, `idx` and `best_score`. -/
structure Best where
  bestBlock : Nat
  idx : Nat
  bestScore : Nat

/-- One round of the search of `DynamicEncode`, which looks at the element behind the block. -/
def searchStep (c : Config) (list : List Nat) (shift : Nat) (best : Best) (i : Nat) :
    Option Best :=
  -- the score looks at the element behind the block, which has to be there
  let blockSize := growBlock c shift 0 ((getAllBits list).drop i)
  list[i + blockSize]?.map fun last =>
    let score := sub32 last (list.getD i 0)
    -- a later block wins a tie
    if best.bestScore ≤ score then ⟨blockSize, i, score⟩ else best

/-- The search of `DynamicEncode`; the index -1 is a `uint32_t`. -/
def search (c : Config) (list : List Nat) (shift : Nat) : Option Best :=
  (List.range (list.length - 1)).foldlM (searchStep c list shift) ⟨0, 2 ^ 32 - 1, 0⟩

/-- The values of a block in the order in which they are written: minimum, maximum and what
    stands between them. -/
def blockValues (list : List Nat) (idx bestBlock : Nat) : List Nat :=
  list.getD idx 0 :: list.getD (idx + bestBlock - 1) 0 ::
    (List.range' 1 (bestBlock - 2)).map fun i => list.getD (i + idx) 0

/-- `DynamicEncode(list, encode, shift)`. A list of `2^32` elements or more, whose size is cut
    off, is not described. -/
def dynamicEncode (c : Config) (list : List Nat) (bs : BitSetSIMD) (shift : Nat) :
    Option BitSetSIMD :=
  (search c list shift).bind fun best =>
    if 2 ≤ best.bestBlock then encode (blockValues list best.idx best.bestBlock) bs shift
    else none

/-- The loop of `Find`; `next` is what a number stands for behind the one in front of it. -/
def findLoop (c : Config) (next : Nat → Nat → Nat) (value : Nat) :
    Nat → Nat → Nat → List Byte → Option PairType
  | 0, _, _, _ => none
  | rounds + 1, pre, len, ptr =>
    if len < c.perEncodeBitSize / 8 then
      (decode len ptr).bind fun (x, len, ptr) =>
        if value = next pre x then some .neighbor
        else if value < next pre x then some .nonNeighbor
        else findLoop c next value rounds (next pre x) len ptr
    else some .nonNeighbor

/-- The two `Find` functions, which differ in `next`. -/
def findWith (c : Config) (next : Nat → Nat → Nat) (value : Nat) (encode : BitSetSIMD)
    (shift : Nat) (notPartial : Bool) : Option PairType :=
  let rounds := c.perEncodeBitSize / 8 + 1
  if notPartial then
    findLoop c next value rounds 0 (shift / 8) (encode.data.drop (shift / 8))
  else
    (decode (shift / 8) (encode.data.drop (shift / 8))).bind fun (min, len, ptr) =>
      (decode len ptr).bind fun (max, len, ptr) =>
        if value = min ∨ value = max then some .neighbor
        -- in between the rest is read from the minimum on
        else if value < min ∨ max < value then some .uncertain
        else findLoop c next value rounds min len ptr

/-- `Find(value, encode, shift, not_partial)`. -/
def find (c : Config) : Nat → BitSetSIMD → Nat → Bool → Option PairType :=
  findWith c fun _ x => x

/-- `VbyteComp` behind the pointer to `Compression`. -/
def codec (c : Config) : CompressionAt where
  getRequiredBits := getRequiredBits
  encode := encode
  dynamicEncode := dynamicEncode c
  find := find c

/-! ## Section 2: The bytes of a number -/

open Vbyte (group group_lt stream)

/-- One less than the number of bytes. -/
def size (value : Nat) : Nat := integerBytes value - 1

theorem size_add_one (value : Nat) : size value + 1 = integerBytes value := by
  unfold size integerBytes
  omega

/-- Four groups hold every number below `2^28`, and fewer the smaller ones. -/
theorem lt_pow_size {v : Nat} (hv : v < 2 ^ 28) : v < 128 ^ (size v + 1) := by
  rw [size_add_one, integerBytes_eq]
  split_ifs <;> norm_num <;> omega

/-- A masked group, moved to its byte. -/
theorem masked (v k : Nat) : (v &&& (127 <<< (7 * k))) <<< k = group v k <<< (8 * k) := by
  have hgroup : group v k = (v >>> (7 * k)) &&& 127 := by
    rw [group, show (127 : Nat) = 2 ^ 7 - 1 from rfl, Nat.and_two_pow_sub_one_eq_mod,
      Nat.shiftRight_eq_div_pow, Nat.pow_mul]
  -- masking in place is masking the lowest group of the shifted number
  have hand : v &&& (127 <<< (7 * k)) = ((v >>> (7 * k)) &&& 127) <<< (7 * k) := by
    apply Nat.eq_of_testBit_eq
    intro i
    simp only [Nat.testBit_and, Nat.testBit_shiftLeft, Nat.testBit_shiftRight]
    by_cases hi : i ≥ 7 * k
    · rw [show 7 * k + (i - 7 * k) = i by omega]
      simp [hi]
    · simp [hi]
  rw [hand, hgroup, ← Nat.shiftLeft_add]
  congr 1
  omega

theorem toNat_group (v k : Nat) : (BitVec.ofNat 8 (group v k)).toNat = group v k := by
  have hlt := group_lt v k
  rw [BitVec.toNat_ofNat]
  exact Nat.mod_eq_of_lt (by omega)

/-- A byte that another one follows. -/
theorem toNat_top (v k : Nat) : (BitVec.ofNat 8 (128 + group v k)).toNat = group v k ||| 128 := by
  have hlt := group_lt v k
  have hor := Nat.two_pow_add_eq_or_of_lt (show group v k < 2 ^ 7 from hlt) 1
  rw [BitVec.toNat_ofNat, Nat.mod_eq_of_lt (by omega), Nat.or_comm]
  exact hor

/-- Bytes with the bits of `t` set in all but the last, collected from the top. -/
theorem or_bytes (g₃ g₂ g₁ g₀ t k : Nat) :
    g₃ <<< (k + k + k) ||| (t <<< (k + k + k) ||| t <<< (k + k) ||| t <<< k) |||
        g₂ <<< (k + k) ||| g₁ <<< k ||| g₀ =
      (((g₃ ||| t) <<< k ||| (g₂ ||| t)) <<< k ||| (g₁ ||| t)) <<< k ||| g₀ := by
  simp only [Nat.shiftLeft_or_distrib, Nat.shiftLeft_add]
  ac_rfl

theorem or_three_bytes (g₂ g₁ g₀ t k : Nat) :
    g₂ <<< (k + k) ||| (t <<< (k + k) ||| t <<< k) ||| g₁ <<< k ||| g₀ =
      ((g₂ ||| t) <<< k ||| (g₁ ||| t)) <<< k ||| g₀ := by
  simp only [Nat.shiftLeft_or_distrib, Nat.shiftLeft_add]
  ac_rfl

theorem number_encode_one (v : Nat) :
    number (Vbyte.encode 1 v) = (group v 1 ||| 128) <<< 8 ||| group v 0 := by
  simp only [Vbyte.encode, number, List.foldl_cons, List.foldl_nil, toNat_top, toNat_group,
    Nat.zero_shiftLeft, Nat.zero_or, Nat.zero_add]

theorem number_encode_two (v : Nat) : number (Vbyte.encode 2 v) =
    ((group v 2 ||| 128) <<< 8 ||| (group v 1 ||| 128)) <<< 8 ||| group v 0 := by
  simp only [Vbyte.encode, number, List.foldl_cons, List.foldl_nil, toNat_top, toNat_group,
    Nat.zero_shiftLeft, Nat.zero_or, Nat.zero_add, Nat.reduceAdd]

theorem number_encode_three (v : Nat) : number (Vbyte.encode 3 v) =
    (((group v 3 ||| 128) <<< 8 ||| (group v 2 ||| 128)) <<< 8 ||| (group v 1 ||| 128)) <<< 8 |||
      group v 0 := by
  simp only [Vbyte.encode, number, List.foldl_cons, List.foldl_nil, toNat_top, toNat_group,
    Nat.zero_shiftLeft, Nat.zero_or, Nat.zero_add, Nat.reduceAdd]

/-- The four masks of the source take the groups out, and its constants set the top bits. -/
theorem compress_eq (v : Nat) : compress v = number (Vbyte.encode (size v) v) := by
  have h₀ : v &&& 0x7F = group v 0 := masked v 0
  have h₁ : (v &&& 0x3F80) <<< 1 = group v 1 <<< 8 := masked v 1
  have h₂ : (v &&& 0x1FC000) <<< 2 = group v 2 <<< 16 := masked v 2
  have h₃ : (v &&& 0xFE00000) <<< 3 = group v 3 <<< 24 := masked v 3
  have htwo : 0x8000 = 128 <<< 8 := by decide
  have hthree : 0x808000 = 128 <<< 16 ||| 128 <<< 8 := by decide
  have hfour : 0x80808000 = 128 <<< 24 ||| 128 <<< 16 ||| 128 <<< 8 := by decide
  have hbytes := integerBytes_eq v
  unfold compress size
  rw [hbytes]
  -- along the four lengths
  by_cases hone : v ≤ 127
  · rw [if_pos hone, if_pos rfl]
    change v = number [BitVec.ofNat 8 (group v 0)]
    rw [number, List.foldl_cons, List.foldl_nil, toNat_group, Nat.zero_shiftLeft, Nat.zero_or,
      group]
    omega
  · rw [if_neg hone]
    by_cases hle : v ≤ 16383
    · rw [if_pos hle, if_neg (by decide), if_pos rfl, h₁, h₀, htwo, ← Nat.shiftLeft_or_distrib]
      exact (number_encode_one v).symm
    · rw [if_neg hle]
      by_cases hle' : v ≤ 2097151
      · rw [if_pos hle', if_neg (by decide), if_neg (by decide), if_pos rfl, h₂, h₁, h₀, hthree]
        exact (or_three_bytes _ _ _ 128 8).trans (number_encode_two v).symm
      · rw [if_neg hle', if_neg (by decide), if_neg (by decide), if_neg (by decide), h₃, h₂, h₁,
          h₀, hfour]
        exact (or_bytes _ _ _ _ 128 8).trans (number_encode_three v).symm

/-! ## Section 3: Writing and reading a stream -/

theorem sum_getAllBits (list : List Nat) : (getAllBits list).sum = fullBits list := by
  unfold getAllBits fullBits integerBits
  simp only [Nat.mul_comm]

theorem length_stream (list : List Nat) : 8 * (stream size list).length = fullBits list := by
  rw [Vbyte.length_stream]
  unfold fullBits integerBits
  induction list with
  | nil => rfl
  | cons v list ih =>
    simp only [List.map_cons, List.sum_cons, Nat.mul_add] at ih ⊢
    rw [ih, ← Nat.mul_add_one, size_add_one]

/-- One number is written as its bytes. -/
theorem blockSet_compress (bs : BitSetSIMD) {i v : Nat} (hbytes : bs.data.length ≤ 256)
    (hlen : i + integerBytes v ≤ bs.data.length) :
    bs.blockSet (8 * i) (integerBytes v * 8) (compress v) =
      bs.setBytes i (Vbyte.encode (size v) v) := by
  have hsize := size_add_one v
  have hle := integerBytes_le v
  have hlt := number_lt (Vbyte.encode (size v) v)
  have hnumber := bigEndian_number (Vbyte.encode (size v) v)
  rw [Vbyte.length_encode, hsize] at hlt hnumber
  rw [compress_eq, Nat.mul_comm (integerBytes v),
    blockSet_eq_setBytes bs (by omega) (by omega) hle hlen hlt, hnumber]

/-- `Encode` writes the stream when there is room for it. -/
theorem encode_eq_some (list : List Nat) (bs : BitSetSIMD) {i : Nat} (hbytes : bs.data.length ≤ 256)
    (hlen : i + (stream size list).length ≤ bs.data.length) :
    encode list bs (8 * i) = some (bs.setBytes i (stream size list)) := by
  induction list generalizing bs i with
  | nil => rfl
  | cons v list ih =>
    have hsize := size_add_one v
    rw [Vbyte.stream_cons, List.length_append, Vbyte.length_encode, hsize] at hlen
    have hroom : 8 * i + integerBytes v * 8 ≤ bs.bitLength := by
      unfold bitLength
      omega
    -- the rest goes to the bytes behind this number
    have hnext := ih (bs.setBytes i (Vbyte.encode (size v) v)) (i := i + integerBytes v)
      (by rwa [length_setBytes]) (by rw [length_setBytes]; omega)
    rw [encode, getAllBits, List.map_cons, List.map_cons, List.zip_cons_cons, blockSetFields,
      blockSetAt, if_pos hroom, Option.bind_some, blockSet_compress bs hbytes (by omega),
      show 8 * i + integerBytes v * 8 = 8 * (i + integerBytes v) by omega]
    rw [encode, getAllBits] at hnext
    rw [hnext, Vbyte.stream_cons, setBytes_append, Vbyte.length_encode, hsize]

/-- Otherwise it writes behind the record. -/
theorem encode_eq_none {list : List Nat} {bs : BitSetSIMD} {shift : Nat}
    (hshift : shift ≤ bs.bitLength) (hfar : bs.bitLength < shift + fullBits list) :
    encode list bs shift = none := by
  apply blockSetFields_eq_none bs _ hshift
  rwa [List.map_fst_zip (by simp [getAllBits]), sum_getAllBits]

/-- The loop of `decode` on a number that a word holds. -/
theorem decodeLoop_of_decode {res x len : Nat} {ptr bytes : List Byte}
    (h : Vbyte.decode res ptr = some (x, bytes)) (hx : x < 2 ^ 32) :
    decodeLoop res len ptr = some (x, len + (ptr.length - bytes.length), bytes) := by
  induction ptr generalizing res len with
  | nil => cases h
  | cons b ptr ih =>
    -- the two masks split the byte into flag and payload
    have hmask : ∀ b : Byte, (b &&& 0x7F).toNat = b.toNat % 128 ∧
        (b &&& 0x80 = 0 ↔ b.toNat < 128) := by decide +kernel
    obtain ⟨hlow, htop⟩ := hmask b
    have hle := (Vbyte.le_of_decode h).1
    rw [List.headD_cons] at hle
    -- what is read so far is small enough for the shift
    have hres : (res <<< 7) % 2 ^ 32 ||| b.toNat % 128 = res * 128 + b.toNat % 128 := by
      have hlt : b.toNat % 128 < 2 ^ 7 := Nat.mod_lt _ (by decide)
      have hshift : res <<< 7 = res * 128 := Nat.shiftLeft_eq res 7
      rw [Nat.mod_eq_of_lt (by omega), ← Nat.shiftLeft_add_eq_or_of_lt hlt, hshift]
    simp only [decodeLoop, hlow, hres, htop]
    rw [Vbyte.decode] at h
    split
    next hlast =>
      rw [if_pos hlast] at h
      cases h
      rw [List.length_cons, Nat.add_sub_cancel_left]
    next hmore =>
      rw [if_neg hmore] at h
      have hlt := (Vbyte.le_of_decode h).2
      rw [ih h, List.length_cons]
      congr 3
      omega

/-- Reading the bytes of a number gives the part of it that they hold. -/
theorem decode_encode (v len : Nat) (bytes : List Byte) :
    decode len (Vbyte.encode (size v) v ++ bytes) =
      some (v % 128 ^ (size v + 1), len + integerBytes v, bytes) := by
  have hsize := size_add_one v
  have hle := integerBytes_le v
  have hlt : v % 128 ^ (size v + 1) < 2 ^ 32 := by
    have hmod := Nat.mod_lt v (Nat.pow_pos (show 0 < 128 by decide) : 0 < 128 ^ (size v + 1))
    have hpow : 128 ^ (size v + 1) ≤ 128 ^ 4 := Nat.pow_le_pow_right (by decide) (by omega)
    exact Nat.lt_of_lt_of_le hmod (Nat.le_trans hpow (by decide))
  have hdecode := Vbyte.decode_encode 0 (size v) v bytes
  rw [Nat.zero_mul, Nat.zero_add] at hdecode
  rw [decode, decodeLoop_of_decode hdecode hlt, List.length_append, Vbyte.length_encode, hsize,
    Nat.add_sub_cancel]

/-! ## Section 4: The round trip -/

/-- `n` calls of `decode` one behind the other: the numbers, and by how much each call moves
    `len`. -/
def decodeMany : Nat → Nat → List Byte → Option (List (Nat × Nat))
  | 0, _, _ => some []
  | n + 1, len, ptr =>
    (decode len ptr).bind fun (x, len', ptr) =>
      (decodeMany n len' ptr).map ((x, len' - len) :: ·)

theorem decodeMany_stream (list : List Nat) (len : Nat) (bytes : List Byte) :
    decodeMany list.length len (stream size list ++ bytes) =
      some (list.map fun v => (v % 128 ^ (size v + 1), integerBytes v)) := by
  induction list generalizing len with
  | nil => rfl
  | cons v list ih =>
    rw [List.length_cons, decodeMany, Vbyte.stream_cons, List.append_assoc, decode_encode,
      Option.bind_some]
    dsimp only
    rw [ih, Nat.add_sub_cancel_left]
    rfl

/-- The values are written from byte `first` on, and reading them one by one gives them back,
    each from its own number of bytes. -/
def RoundTrip (bs : BitSetSIMD) (first : Nat) (values : List Nat) : Prop :=
  ∃ bs', encode values bs (8 * first) = some bs' ∧
    decodeMany values.length first (bs'.data.drop first) =
      some (values.map fun v => (v, integerBytes v))

theorem mod_pow_size_iff (v : Nat) : v % 128 ^ (size v + 1) = v ↔ v < 2 ^ 28 := by
  constructor
  · intro heq
    have hsize := size_add_one v
    have hle := integerBytes_le v
    have hlt := Nat.mod_lt v (Nat.pow_pos (show 0 < 128 by decide) : 0 < 128 ^ (size v + 1))
    have hpow : 128 ^ (size v + 1) ≤ 128 ^ 4 := Nat.pow_le_pow_right (by decide) (by omega)
    rw [heq] at hlt
    exact Nat.lt_of_lt_of_le hlt (Nat.le_trans hpow (by decide))
  · exact fun hlt => Nat.mod_eq_of_lt (lt_pow_size hlt)

/-- A list comes back exactly when four groups hold each of its values. -/
theorem roundTrip_iff {bs : BitSetSIMD} {first : Nat} {values : List Nat}
    (hbytes : bs.data.length ≤ 256)
    (hroom : first + (values.map integerBytes).sum ≤ bs.data.length) :
    RoundTrip bs first values ↔ ∀ v ∈ values, v < 2 ^ 28 := by
  have hlen : (stream size values).length = (values.map integerBytes).sum := by
    rw [Vbyte.length_stream]
    simp only [size_add_one]
  have hfit : first + (stream size values).length ≤ bs.data.length := by rwa [hlen]
  -- reading gives the groups that were written, so only the size of the values matters
  have hread : RoundTrip bs first values ↔
      (values.map fun v => (v % 128 ^ (size v + 1), integerBytes v)) =
        values.map fun v => (v, integerBytes v) := by
    unfold RoundTrip
    rw [encode_eq_some values bs hbytes hfit]
    constructor
    · rintro ⟨bs', heq, hdecode⟩
      cases heq
      rw [drop_data_setBytes bs hfit, decodeMany_stream] at hdecode
      exact Option.some.inj hdecode
    · intro heq
      refine ⟨_, rfl, ?_⟩
      rw [drop_data_setBytes bs hfit, decodeMany_stream, heq]
  rw [hread, List.map_inj_left]
  constructor
  · intro h v hv
    exact (mod_pow_size_iff v).mp (Prod.mk.inj (h v hv)).1
  · intro h v hv
    rw [(mod_pow_size_iff v).mpr (h v hv)]

/-- Values of one, two and four bytes. -/
theorem roundTrip_three : RoundTrip (ofBitSize 64) 1 [5, 300, 268435455] :=
  (@roundTrip_iff (ofBitSize 64) 1 [5, 300, 268435455] (by decide) (by decide)).mpr (by decide)

/-- `2^28` comes back as 0. -/
theorem not_roundTrip_large : ¬ RoundTrip (ofBitSize 32) 0 [2 ^ 28] := by
  have hencode : encode [2 ^ 28] (ofBitSize 32) (8 * 0) = some ⟨[0x80, 0x80, 0x80, 0x00]⟩ := by
    decide
  rintro ⟨bs', heq, hdecode⟩
  rw [hencode] at heq
  cases heq
  revert hdecode
  decide

/-! ## Section 5: Searching a stream -/

/-- What the numbers of a stream stand for. -/
def readings (next : Nat → Nat → Nat) : Nat → List Nat → List Nat
  | _, [] => []
  | pre, x :: xs => next pre x :: readings next (next pre x) xs

theorem readings_append (next : Nat → Nat → Nat) (pre : Nat) (xs ys : List Nat) :
    readings next pre (xs ++ ys) =
      readings next pre xs ++ readings next ((readings next pre xs).getLastD pre) ys := by
  induction xs generalizing pre with
  | nil => rfl
  | cons x xs ih =>
    rw [List.cons_append, readings, ih, readings, List.cons_append]
    congr 3
    cases readings next (next pre x) xs <;> rfl

/-- Each number stands for itself. -/
theorem readings_self (pre : Nat) (xs : List Nat) : readings (fun _ x => x) pre xs = xs := by
  induction xs generalizing pre with
  | nil => rfl
  | cons x xs ih => rw [readings, ih]

section

variable {c : Config}

/-- The loop of `Find` on a stream up to the end of the record. -/
theorem findLoop_stream (next : Nat → Nat → Nat) (value : Nat) {ys : List Nat}
    (hys : ∀ y ∈ ys, y < 2 ^ 28) {rounds pre len : Nat} (hrounds : ys.length < rounds)
    (hlen : len + (stream size ys).length = c.perEncodeBitSize / 8) :
    findLoop c next value rounds pre len (stream size ys) =
      some (verdict (OrderedSearch.found value (readings next pre ys))) := by
  induction ys generalizing rounds pre len with
  | nil =>
    cases rounds with
    | zero => omega
    | succ rounds =>
      rw [Vbyte.stream_nil, List.length_nil] at hlen
      rw [findLoop, if_neg (by omega)]
      rfl
  | cons y ys ih =>
    cases rounds with
    | zero => omega
    | succ rounds =>
      have hsize := size_add_one y
      -- a number below 2^28 is read back whole
      have hy := (mod_pow_size_iff y).mpr (hys y List.mem_cons_self)
      rw [List.length_cons] at hrounds
      rw [Vbyte.stream_cons, List.length_append, Vbyte.length_encode] at hlen
      have hrest := @ih (fun y' hy' => hys y' (List.mem_cons_of_mem _ hy')) rounds (next pre y)
        (len + integerBytes y) (by omega) (by omega)
      rw [findLoop, if_pos (by omega), Vbyte.stream_cons, decode_encode, Option.bind_some, hy]
      dsimp only
      rw [hrest, readings, OrderedSearch.found]
      -- the three cases of the loop are those of the search
      split
      · rfl
      · split <;> rfl

end

/-- A record with its flag, a stream of numbers behind it and zeros up to the end. -/
structure Stores (c : Config) (flag : Bool) (values : List Nat) (bs : BitSetSIMD) : Prop where
  isRecord : IsRecord c bs
  flag : RangeCompEncode.getFlag bs = flag
  bytes : ∃ k, bs.data.drop 4 = stream size (values ++ List.replicate k 0)

theorem stream_replicate_zero (k : Nat) : stream size (List.replicate k 0) =
    List.replicate k 0 := by
  induction k with
  | zero => rfl
  | succ k ih => rw [List.replicate_succ, Vbyte.stream_cons, ih]; rfl

section

variable {c : Config} (hc : RangeEncode.Worded c)
include hc

/-- Numbers that fit behind the flag are stored. -/
theorem exists_stores (flag : Bool) (values : List Nat)
    (hfit : fullBits values ≤ RangeCompEncode.maxBits c) :
    ∃ bs, encode values (RangeCompEncode.flagged c flag) RangeCompEncode.shift = some bs ∧
      Stores c flag values bs := by
  have hper := RangeCompEncode.perEncodeBitSize_eq hc
  have hle := RangeCompEncode.perEncodeBitSize_le hc
  have hlen := RangeCompEncode.length_flagged (c := c) flag
  have hbits := RangeCompEncode.bitLength_flagged hc flag
  have hstream := length_stream values
  unfold bitLength at hbits
  have hroom : 4 + (stream size values).length ≤ (RangeCompEncode.flagged c flag).data.length := by
    omega
  refine ⟨_, encode_eq_some values _ (i := 4) (by omega) hroom, ?_, ?_, ?_⟩
  · rw [IsRecord, bitLength, length_setBytes]
    omega
  · apply RangeCompEncode.getFlag_of_bit hc
    intro p hp
    rw [bit_eq_getLsbD, byte_setBytes _ _ _ hroom, if_neg (by omega)]
    rfl
  · refine ⟨(RangeCompEncode.flagged c flag).data.length - (4 + (stream size values).length), ?_⟩
    rw [drop_data_setBytes _ hroom, Vbyte.stream_append, stream_replicate_zero]
    congr 1
    -- the bytes behind the flag are zero
    apply List.ext_getElem
    · simp
    · intro j h₁ h₂
      rw [List.length_drop] at h₁
      rw [List.getElem_drop, List.getElem_replicate]
      apply BitVec.eq_of_getLsbD_eq
      intro b hb
      have hbyte := getLsbD_byte (RangeCompEncode.flagged c flag)
        (i := 4 + (stream size values).length + j) hb
      rw [byte, List.getD_eq_getElem _ _ (by omega),
        RangeCompEncode.bit_flagged_of_ge hc flag (by omega)] at hbyte
      rw [hbyte]
      exact BitVec.getLsbD_zero.symm

end

section Find

variable {c : Config} {flag : Bool} {values : List Nat} {bs : BitSetSIMD}
  (h : Stores c flag values bs) (hvalues : ∀ v ∈ values, v < 2 ^ 28)
  (next : Nat → Nat → Nat) (w : Nat)
include h hvalues

/-- The padding of a stored stream. -/
theorem Stores.exists_padding (hc : RangeEncode.Worded c) :
    ∃ k, bs.data.drop 4 = stream size (values ++ List.replicate k 0) ∧
      4 + (stream size (values ++ List.replicate k 0)).length = c.perEncodeBitSize / 8 ∧
      (values ++ List.replicate k 0).length ≤ c.perEncodeBitSize / 8 ∧
      ∀ y ∈ values ++ List.replicate k 0, y < 2 ^ 28 := by
  have hper := RangeCompEncode.perEncodeBitSize_eq hc
  obtain ⟨k, hk⟩ := h.bytes
  have hrec := h.isRecord
  have hlen := congrArg List.length hk
  rw [List.length_drop] at hlen
  unfold IsRecord bitLength at hrec
  -- every number takes a byte or more
  have hle : ∀ ys : List Nat, ys.length ≤ (stream size ys).length := by
    intro ys
    induction ys with
    | nil => exact Nat.le_refl _
    | cons y ys ih =>
      rw [Vbyte.stream_cons, List.length_append, Vbyte.length_encode, List.length_cons]
      omega
  refine ⟨k, hk, by omega, Nat.le_trans (hle _) (by omega), ?_⟩
  intro y hy
  rcases List.mem_append.mp hy with hy | hy
  · exact hvalues y hy
  · rw [List.eq_of_mem_replicate hy]
    decide

/-- `Find` on a list that is stored in full. -/
theorem Stores.findWith_true (hc : RangeEncode.Worded c) :
    ∃ k, findWith c next w bs RangeCompEncode.shift true = some (verdict
      (OrderedSearch.found w (readings next 0 (values ++ List.replicate k 0)))) := by
  obtain ⟨k, hk, hlen, hle, hlt⟩ := h.exists_padding hvalues hc
  refine ⟨k, ?_⟩
  rw [findWith, if_pos rfl]
  change findLoop c next w _ 0 4 (bs.data.drop 4) = _
  rw [hk]
  exact findLoop_stream next w hlt (by omega) hlen

end Find

/-- `Find` on a minimum, a maximum and what stands between them. -/
theorem Stores.findWith_false {c : Config} (hc : RangeEncode.Worded c) {min max : Nat}
    {inner : List Nat} {bs : BitSetSIMD} (h : Stores c false (min :: max :: inner) bs)
    (hvalues : ∀ v ∈ min :: max :: inner, v < 2 ^ 28) (next : Nat → Nat → Nat) (w : Nat) :
    ∃ k, findWith c next w bs RangeCompEncode.shift false = some (
      if w = min ∨ w = max then .neighbor
      else if w < min ∨ max < w then .uncertain
      else verdict (OrderedSearch.found w (readings next min (inner ++ List.replicate k 0)))) := by
  obtain ⟨k, hk, hlen, hle, hlt⟩ := h.exists_padding hvalues hc
  rw [List.cons_append, List.cons_append] at hk hlen hle hlt
  have hmin := (mod_pow_size_iff min).mpr (hlt min (by simp))
  have hmax := (mod_pow_size_iff max).mpr (hlt max (by simp))
  have hsmin := size_add_one min
  have hsmax := size_add_one max
  refine ⟨k, ?_⟩
  rw [findWith, if_neg Bool.false_ne_true]
  change ((decode 4 (bs.data.drop 4)).bind _) = _
  rw [hk, Vbyte.stream_cons, decode_encode, Option.bind_some, hmin]
  dsimp only
  rw [Vbyte.stream_cons, decode_encode, Option.bind_some, hmax]
  dsimp only
  simp only [Vbyte.stream_cons, List.length_append, Vbyte.length_encode] at hlen
  rw [List.length_cons, List.length_cons] at hle
  rw [findLoop_stream next w (fun y hy => hlt y (by simp [hy])) (by omega) (by omega)]
  split
  · rfl
  · split <;> rfl

/-! ## Section 6: One vertex -/

section

variable {c : Config} (hc : RangeEncode.Worded c)
include hc

/-- The last two elements of a list always fit, and the search looks behind them. -/
theorem search_eq_none {list : List Nat} (hlen : 2 ≤ list.length) :
    search c list RangeCompEncode.shift = none := by
  have hge := RangeCompEncode.maxBits_ge hc
  have hper := RangeCompEncode.perEncodeBitSize_eq hc
  obtain ⟨n, hn⟩ : ∃ n, list.length = n + 2 := ⟨list.length - 2, by omega⟩
  have hlast : ∀ best, searchStep c list RangeCompEncode.shift best n = none := by
    intro best
    have hdrop : (getAllBits list).drop n =
        [integerBytes (list.getD n 0) * 8, integerBytes (list.getD (n + 1) 0) * 8] := by
      unfold getAllBits
      rw [← List.map_drop, List.drop_eq_getElem_cons (by omega),
        List.drop_eq_getElem_cons (by omega), List.drop_of_length_le (by omega),
        List.getD_eq_getElem _ _ (by omega), List.getD_eq_getElem _ _ (by omega)]
      rfl
    have hfst := integerBytes_le (list.getD n 0)
    have hsnd := integerBytes_le (list.getD (n + 1) 0)
    have hgrow : growBlock c RangeCompEncode.shift 0 ((getAllBits list).drop n) = 2 := by
      rw [hdrop, growBlock, growBlock, growBlock]
      unfold RangeCompEncode.shift
      rw [if_neg (by omega), if_neg (by omega)]
    rw [searchStep, hgrow, List.getElem?_eq_none (by omega)]
    rfl
  rw [search, hn, show n + 2 - 1 = n + 1 by omega, List.range_succ, List.foldlM_append]
  cases (List.range n).foldlM (searchStep c list RangeCompEncode.shift) ⟨0, 2 ^ 32 - 1, 0⟩ with
  | none => rfl
  | some best => exact (congrArg (fun o => o.bind some) (hlast best))

/-- A list that does not fit is not encoded: the search reads behind its end, or, when the sum
    of the bits wraps around, the record is left. -/
theorem encodeBitsAt_eq_none {ids : List Nat} (hlong : RangeCompEncode.maxBits c < fullBits ids)
    {bs : BitSetSIMD} (hrec : IsRecord c bs) :
    RangeCompEncode.encodeBitsAt c (codec c) ids bs = none := by
  have hper := RangeCompEncode.perEncodeBitSize_eq hc
  have hbits := RangeCompEncode.bitLength_flagged hc true
  rw [RangeCompEncode.encodeBitsAt_eq hc _ _ hrec]
  split
  · apply encode_eq_none <;> rw [hbits] <;> unfold RangeCompEncode.shift <;> omega
  · change (search c _ RangeCompEncode.shift).bind _ = none
    rw [search_eq_none hc (by simp)]
    rfl

/-- The record of a list that fits. -/
theorem exists_encodeBitsAt {ids : List Nat} (hfit : fullBits ids ≤ RangeCompEncode.maxBits c)
    {bs : BitSetSIMD} (hrec : IsRecord c bs) :
    ∃ bs', RangeCompEncode.encodeBitsAt c (codec c) ids bs = some bs' ∧
      Stores c true ids bs' := by
  have hle := RangeCompEncode.perEncodeBitSize_le hc
  have hper := RangeCompEncode.perEncodeBitSize_eq hc
  have hreq : (codec c).getRequiredBits ids ≤ RangeCompEncode.maxBits c := by
    change getRequiredBits ids ≤ _
    rw [getRequiredBits_eq, Nat.mod_eq_of_lt (by omega)]
    exact hfit
  rw [RangeCompEncode.encodeBitsAt_eq hc _ _ hrec, if_pos hreq]
  exact exists_stores hc true ids hfit

/-- It is found exactly. -/
theorem Stores.testBitsAt {ids : List Nat} (hids : IdList c ids) (hsorted : ids.Pairwise (· ≤ ·))
    (hv : c.vertexSize + 1 < 2 ^ 28) {bs : BitSetSIMD} (h : Stores c true ids bs) {w : Nat}
    (hw : 1 ≤ w) :
    RangeCompEncode.testBitsAt (codec c) bs w = some (verdict (decide (w ∈ ids))) := by
  have hlt : ∀ v ∈ ids, v < 2 ^ 28 := fun v hmem => by have := (hids v hmem).2; omega
  rw [RangeCompEncode.testBitsAt, h.flag]
  obtain ⟨k, hfind⟩ := h.findWith_true hlt (fun _ x => x) w hc
  refine hfind.trans ?_
  -- the zeros behind the list are below every id
  have hpad : ∀ y ∈ List.replicate k 0, y < w ∨ ∃ x ∈ ids, y ≤ x := by
    intro y hy
    rw [List.eq_of_mem_replicate hy]
    exact Or.inl hw
  rw [readings_self, OrderedSearch.found_append hpad]
  congr 2
  rw [Bool.eq_iff_iff, OrderedSearch.found_iff hsorted, decide_eq_true_eq]

end

/-- A run of consecutive elements between the bounds is stored as a window. -/
def StoresRun (c : Config) (ids : List Nat) (bs : BitSetSIMD) : Prop :=
  ∃ p n, 2 ≤ n ∧ p + n ≤ ids.length + 2 ∧
    Stores c false (blockValues (0 :: ids ++ [c.vertexSize + 1]) p n) bs

/-- Whatever the records held before, the vertex is encoded with all accesses inside the list
    and the record. A list that does not fit leaves a run in the record, and no verdict about
    an id is wrong. -/
def SafeExact (c : Config) (v : Nat) (ids : List Nat) : Prop :=
  ∀ encodes : Records, encodes.Built c →
    ∃ encodes', RangeCompEncode.encodeVertexAt c (codec c) v ids encodes = some encodes' ∧
      (RangeCompEncode.maxBits c < fullBits ids → StoresRun c ids (encodes'.record v)) ∧
      ∀ w, 1 ≤ w → w ≤ c.vertexSize → ∃ type,
        RangeCompEncode.nonNeighborTestAt (codec c) encodes' v w = some type ∧
        (type = .neighbor → w ∈ ids) ∧ (type = .nonNeighbor → w ∉ ids)

theorem safeExact_iff {c : Config} (hk : 3 ≤ c.kSize) (hk' : c.kSize ≤ 64)
    (hsize : c.vertexSize + 1 < 2 ^ 28) {v : Nat} (hv : v ≤ c.vertexSize) {ids : List Nat}
    (hids : IdList c ids) (hsorted : ids.Pairwise (· ≤ ·)) :
    (fullBits ids ≤ RangeCompEncode.maxBits c → SafeExact c v ids) ∧
    (ids.length + 2 < 2 ^ 32 → SafeExact c v ids →
      fullBits ids ≤ RangeCompEncode.maxBits c) := by
  have hc : RangeEncode.Worded c := ⟨hk, hk', by omega⟩
  constructor
  · intro hfit encodes hbuilt
    have hlt := hbuilt.lt_length hc.vertexSize_lt hv
    obtain ⟨bs, hbs, hstores⟩ := exists_encodeBitsAt hc hfit (hbuilt.record hlt)
    obtain ⟨encodes', heq, hrecord⟩ := RangeCompEncode.encodeVertexAt_eq_some hlt hbs
    refine ⟨encodes', heq, fun hlong => absurd hlong (by omega), fun w hw hw' => ?_⟩
    refine ⟨verdict (decide (w ∈ ids)), ?_, ?_, ?_⟩
    · rw [RangeCompEncode.nonNeighborTestAt, hrecord]
      exact hstores.testBitsAt hc hids hsorted hsize hw
    · intro hneighbor
      exact of_decide_eq_true (verdict_eq_neighbor.mp hneighbor)
    · intro hnot hmem
      rw [decide_eq_true hmem] at hnot
      cases hnot
  · intro _ hexact
    by_contra hlong
    obtain ⟨encodes', heq, -⟩ := hexact _ (Records.built_constructed c)
    obtain ⟨hlt, hbits⟩ := RangeCompEncode.exists_record_of_encodeVertexAt heq
    rw [encodeBitsAt_eq_none hc (by omega) ((Records.built_constructed c).record hlt)] at hbits
    cases hbits

/-- Three words to a record, eight bytes behind the flag. -/
def eightBytes : Config := .ofSizes 3 300 2 (by decide)

theorem eightBytes_worded : RangeEncode.Worded eightBytes := ⟨by decide, by decide, by decide⟩

/-- Five ids in eight bytes. -/
theorem safeExact_five : IdList eightBytes [3, 9, 127, 128, 300] ∧
    SafeExact eightBytes 1 [3, 9, 127, 128, 300] := by
  have hids : IdList eightBytes [3, 9, 127, 128, 300] := by
    unfold IdList
    decide
  exact ⟨hids, (@safeExact_iff eightBytes (by decide) (by decide) (by decide) 1 (by decide) _ hids
    (by decide)).1 (by decide)⟩

/-- Nine ids in eight bytes: the search reads behind the list. -/
theorem not_safeExact_nine : IdList eightBytes (List.range' 1 9) ∧
    (List.range' 1 9).Pairwise (· ≤ ·) ∧ ¬ SafeExact eightBytes 10 (List.range' 1 9) := by
  have hids : IdList eightBytes (List.range' 1 9) := by
    unfold IdList
    decide
  refine ⟨hids, by decide, fun hexact => ?_⟩
  obtain ⟨encodes', heq, -⟩ := hexact _ (Records.built_constructed eightBytes)
  obtain ⟨hlt, hbits⟩ := RangeCompEncode.exists_record_of_encodeVertexAt heq
  rw [encodeBitsAt_eq_none eightBytes_worded (by decide)
    ((Records.built_constructed eightBytes).record hlt)] at hbits
  cases hbits

end VbyteComp

end Vend
