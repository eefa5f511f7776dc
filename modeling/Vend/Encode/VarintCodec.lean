import Mathlib.Tactic.Linarith
import Vend.Encode.DeltaSIMDCodec
import Vend.Lib.Leb128
import Vend.Util.BitSetSIMD

/-! # `VarintCodec`

    `encode/codec/varint_codec.h`: numbers in bytes of seven bits, one to five bytes each.
    With `is_delta_` the differences of a list are written and otherwise its elements. The
    functions on pointers to bytes (`EncodeUnDirectArray`, `Find`, `DecodeUnDirectArray`)
    write and read through the pointers what the others write and read in place.

    A reader goes fast as long as more than five bytes are left, and byte by byte through the
    last ones; both read the same numbers (`readFast_of_decode`, `readTail_of_decode`). So
    what is written is read back (`unDirect_roundTrip`), and on an ascending list `Find` is
    exact (`find_verdict`), although the second loop compares with the difference where the
    first one compares with the element.
-/

namespace Vend

namespace VarintCodec

-- both codecs are a `Codec`, which `FindRes` belongs to
open DeltaSIMDCodec (FindRes)

/-! ## Section 1: Model -/

/-- `bound`. -/
def bound : Nat → Nat
  | 0 => 2 ^ 7
  | 1 => 2 ^ 14
  | 2 => 2 ^ 21
  | _ => 2 ^ 28

/-- A byte with the bits from `shift` on, and `mask_7_zero`. -/
def more (val shift : Nat) : Byte := BitVec.ofNat 8 (((val >>> shift) &&& 0x7F) ||| 2 ^ 7)

/-- The bytes of `val`. -/
def encodeOne (val : Nat) : List Byte :=
  if val < bound 0 then [BitVec.ofNat 8 (val &&& 0x7F)]
  else if val < bound 1 then [more val 0, BitVec.ofNat 8 (val >>> 7)]
  else if val < bound 2 then [more val 0, more val 7, BitVec.ofNat 8 (val >>> 14)]
  else if val < bound 3 then
    [more val 0, more val 7, more val 14, BitVec.ofNat 8 (val >>> 21)]
  else [more val 0, more val 7, more val 14, more val 21, BitVec.ofNat 8 (val >>> 28)]

/-- `val`, what is written for an element behind `prev`. -/
def valOf (isDelta : Bool) (prev x : Nat) : Nat := if isDelta then sub32 x prev else x

/-- `prev` behind an element. -/
def next (isDelta : Bool) (prev x : Nat) : Nat := if isDelta then x else prev

/-- The loop of `EncodeArray`. -/
def encodeLoop (isDelta : Bool) : Nat → List Nat → List Byte
  | _, [] => []
  | prev, x :: xs =>
    encodeOne (valOf isDelta prev x) ++ encodeLoop isDelta (next isDelta prev x) xs

/-- `EncodeArray(in, in_size, out, out_bytes_length)`: the bytes, and their number in an
    `uint32_t`. -/
def encodeArray (isDelta : Bool) (xs : List Nat) : List Byte × Nat :=
  (encodeLoop isDelta 0 xs, (encodeLoop isDelta 0 xs).length % 2 ^ 32)

/-- Bytes written through pointers, one after the other: the memory, and the pointers that
    are left. -/
def writeBytes (memory : Nat → Byte) : List Byte → List Nat → Option ((Nat → Byte) × List Nat)
  | [], out => some (memory, out)
  | _ :: _, [] => none
  | b :: bytes, p :: out => writeBytes (Function.update memory p b) bytes out

/-- `EncodeUnDirectArray(in, in_size, out, out_bytes_length)`. -/
def encodeUnDirectArray (isDelta : Bool) (xs : List Nat) (memory : Nat → Byte)
    (out : List Nat) : Option ((Nat → Byte) × List Nat × Nat) :=
  (writeBytes memory (encodeLoop isDelta 0 xs) out).map fun (memory, out) =>
    (memory, out, (encodeLoop isDelta 0 xs).length % 2 ^ 32)

/-- A number at the front of the bytes without a look at their end, and its length. -/
def readFast (inbyte : List Byte) : Option (Nat × Nat) :=
  inbyte[0]?.bind fun c =>
    let v := (c &&& 0x7F).toNat
    if c.toNat < 128 then some (v, 1)
    else inbyte[1]?.bind fun c =>
      let v := v ||| (c &&& 0x7F).toNat <<< 7
      if c.toNat < 128 then some (v, 2)
      else inbyte[2]?.bind fun c =>
        let v := v ||| (c &&& 0x7F).toNat <<< 14
        if c.toNat < 128 then some (v, 3)
        else inbyte[3]?.bind fun c =>
          let v := v ||| (c &&& 0x7F).toNat <<< 21
          if c.toNat < 128 then some (v, 4)
          -- the fifth byte ends the number whatever its top bits are
          else inbyte[4]?.bind fun c => some (v ||| (c &&& 0x0F).toNat <<< 28, 5)

/-- The inner loop behind the fast one, with `remaining` bytes up to `endbyte`: the number,
    unless the bytes end inside it. A shift by 32 or more is not described. -/
def readTail : Nat → Nat → Nat → List Byte → Option (Option Nat × Nat × List Byte)
  | 0, _, _, inbyte => some (none, 0, inbyte)
  | _ + 1, _, _, [] => none
  | remaining + 1, shift, v, c :: inbyte =>
    if 32 ≤ shift then none
    else
      let v := (v + (c &&& 127).toNat <<< shift) % 2 ^ 32
      if c.toNat < 128 then some (some v, remaining, inbyte)
      else readTail remaining (shift + 7) v inbyte

/-- The element that a number stands for behind `prev`. -/
def elementOf (isDelta : Bool) (prev v : Nat) : Nat :=
  if isDelta then (v + prev) % 2 ^ 32 else v

/-- The second loop of `Decode`: `out`, and the bytes behind it. -/
def decodeTail (isDelta : Bool) : Nat → Nat → Nat → List Byte → Option (List Nat × List Byte)
  | 0, _, _, _ => none
  | rounds + 1, remaining, prev, inbyte =>
    if 0 < remaining then
      (readTail remaining 0 0 inbyte).bind fun (v, remaining, inbyte) =>
        match v with
        | none => decodeTail isDelta rounds remaining prev inbyte
        | some v =>
          let x := elementOf isDelta prev v
          (decodeTail isDelta rounds remaining (next isDelta prev x) inbyte).map
            fun (out, inbyte) => (x :: out, inbyte)
    else some ([], inbyte)

/-- The first loop of `Decode` and what follows. -/
def decodeFast (isDelta : Bool) : Nat → Nat → Nat → List Byte → Option (List Nat × List Byte)
  | 0, _, _, _ => none
  | rounds + 1, remaining, prev, inbyte =>
    if 5 < remaining then
      (readFast inbyte).bind fun (v, length) =>
        let x := elementOf isDelta prev v
        (decodeFast isDelta rounds (remaining - length) (next isDelta prev x)
          (inbyte.drop length)).map fun (out, inbyte) => (x :: out, inbyte)
    else decodeTail isDelta (remaining + 1) remaining prev inbyte

/-- `Decode(inbyte, in_bytes_length, out, out_size)`: `out` and `out_size`, and the bytes that
    `inbyte` points to then. -/
def decode (isDelta : Bool) (inbyte : List Byte) (inBytesLength : Nat) :
    Option (List Nat × Nat × List Byte) :=
  (decodeFast isDelta (inBytesLength + 1) inBytesLength 0 inbyte).map fun (out, inbyte) =>
    (out, out.length % 2 ^ 32, inbyte)

/-- `DecodeUnDirectArray(inbyte, in_bytes_length, out, out_size)`. -/
def decodeUnDirectArray (isDelta : Bool) (memory : Nat → Byte) (inbyte : List Nat)
    (inBytesLength : Nat) : Option (List Nat × Nat × List Nat) :=
  (decode isDelta (inbyte.map memory) inBytesLength).map fun (out, outSize, rest) =>
    (out, outSize, inbyte.drop (inbyte.length - rest.length))

/-- The second loop of `Find` and its end: the result, and the bytes behind the pointer. -/
def findTail (isDelta : Bool) (element : Nat) :
    Nat → Nat → Nat → List Byte → Option (FindRes × List Byte)
  | 0, _, _, _ => none
  | rounds + 1, remaining, prev, inbyte =>
    if 0 < remaining then
      (readTail remaining 0 0 inbyte).bind fun (v, remaining, inbyte) =>
        match v with
        | none => findTail isDelta element rounds remaining prev inbyte
        | some v =>
          let x := elementOf isDelta prev v
          if element = x then some (.exist, inbyte)
          -- with differences, too, the number that was read
          else if element < v then some (.notExist, inbyte)
          else findTail isDelta element rounds remaining (next isDelta prev x) inbyte
    else if prev < element then some (.greaterThanMax, inbyte)
    else some (.notExist, inbyte)

/-- The first loop of `Find` and what follows. -/
def findFast (isDelta : Bool) (element : Nat) :
    Nat → Nat → Nat → List Byte → Option (FindRes × List Byte)
  | 0, _, _, _ => none
  | rounds + 1, remaining, prev, inbyte =>
    if 5 < remaining then
      (readFast inbyte).bind fun (v, length) =>
        let x := elementOf isDelta prev v
        if element = x then some (.exist, inbyte.drop length)
        else if element < x then some (.notExist, inbyte.drop length)
        else findFast isDelta element rounds (remaining - length) (next isDelta prev x)
          (inbyte.drop length)
    else findTail isDelta element (remaining + 1) remaining prev inbyte

/-- `Find(inbyte, in_bytes_length, element)`, with the bytes behind the pointers. -/
def find (isDelta : Bool) (inbyte : List Byte) (inBytesLength element : Nat) :
    Option (FindRes × List Byte) :=
  if isDelta then
    -- there has to be a first number
    (readFast inbyte).bind fun (v, length) =>
      if element = v then some (.exist, inbyte.drop length)
      else if element < v then some (.lessThanMin, inbyte.drop length)
      else findFast isDelta element (inBytesLength + 1) (inBytesLength - length) v
        (inbyte.drop length)
  else findFast isDelta element (inBytesLength + 1) inBytesLength 0 inbyte

/-- `GetOneEncodeLength(integer)`. -/
def getOneEncodeLength (integer : Nat) : Nat :=
  if integer < bound 0 then 1
  else if integer < bound 1 then 2
  else if integer < bound 2 then 3
  else if integer < bound 3 then 4
  else 5

/-- What the loop of `GetEncodeLength` adds up. -/
def encodeLengthLoop (isDelta : Bool) : Nat → List Nat → Nat
  | _, [] => 0
  | pre, x :: xs =>
    getOneEncodeLength (valOf isDelta pre x) + encodeLengthLoop isDelta (next isDelta pre x) xs

/-- `GetEncodeLength(in, in_size)`. The loop counts up to the `size_t in_size` with an `int`. -/
def getEncodeLength (isDelta : Bool) (xs : List Nat) : Option Nat :=
  if xs.length < 2 ^ 31 then some (encodeLengthLoop isDelta 0 xs) else none

/-- `struct DeltaInfo`, where the bits are bytes. -/
structure DeltaInfo where
  deltaBits : Nat
  valBits : Nat
  totalBits : Nat
  deriving DecidableEq, Repr

/-- The loop of `ParseEncode` behind the first element. -/
def parseLoop (isDelta : Bool) : Nat → Nat → List Nat → List DeltaInfo
  | _, _, [] => []
  | size, pre, x :: xs =>
    let valBits := getOneEncodeLength (valOf isDelta pre x)
    ⟨valBits, getOneEncodeLength x, size + valBits⟩ ::
      parseLoop isDelta (size + valBits) (next isDelta pre x) xs

/-- What the loop of `ParseEncode` appends to `delta_infos`. -/
def deltaInfos (isDelta : Bool) : List Nat → List DeltaInfo
  | [] => []
  | x :: xs =>
    let valBits := getOneEncodeLength (valOf isDelta 0 x)
    ⟨0, getOneEncodeLength x, valBits⟩ :: parseLoop isDelta valBits (next isDelta 0 x) xs

/-- `ParseEncode(in, in_size, delta_infos)`, with an `int` counter too. -/
def parseEncode (isDelta : Bool) (xs : List Nat) : Option (List DeltaInfo) :=
  if xs.length < 2 ^ 31 then some (deltaInfos isDelta xs) else none

/-! ## Section 2: The bytes of a number -/

theorem length_encodeOne (val : Nat) : (encodeOne val).length = getOneEncodeLength val := by
  unfold encodeOne getOneEncodeLength
  split_ifs <;> rfl

theorem getOneEncodeLength_bounds (val : Nat) :
    1 ≤ getOneEncodeLength val ∧ getOneEncodeLength val ≤ 5 := by
  unfold getOneEncodeLength
  split_ifs <;> decide

theorem lt_pow_getOneEncodeLength {val : Nat} (h : val < 2 ^ 32) :
    val < 128 ^ getOneEncodeLength val := by
  unfold getOneEncodeLength bound
  split_ifs <;> omega

theorem more_eq (val shift : Nat) :
    more val shift = BitVec.ofNat 8 (128 + val / 2 ^ shift % 128) := by
  have hand : (val >>> shift) &&& 0x7F = val / 2 ^ shift % 128 := by
    rw [Nat.shiftRight_eq_div_pow]
    exact Nat.and_two_pow_sub_one_eq_mod _ 7
  have hor : val / 2 ^ shift % 128 ||| 2 ^ 7 = 128 + val / 2 ^ shift % 128 := by
    rw [Nat.or_comm]
    have hlt : val / 2 ^ shift % 128 < 2 ^ 7 := Nat.mod_lt _ (by decide)
    exact (Nat.two_pow_add_eq_or_of_lt hlt 1).symm
  rw [more, hand, hor]

/-- The five branches are one format. -/
theorem encodeOne_eq (val : Nat) :
    encodeOne val = Leb128.encode (getOneEncodeLength val - 1) val := by
  have hlow : val < bound 0 → val &&& 0x7F = val := by
    intro h
    exact (Nat.and_two_pow_sub_one_eq_mod val 7).trans (Nat.mod_eq_of_lt h)
  unfold encodeOne getOneEncodeLength
  split_ifs with h
  · rw [hlow h]
    rfl
  all_goals simp [Leb128.encode, more_eq, Nat.shiftRight_eq_div_pow, Nat.div_div_eq_div_mul]

theorem decode_encodeOne {val : Nat} (h : val < 2 ^ 32) (rest : List Byte) :
    Leb128.decode (encodeOne val ++ rest) = some (val, rest) := by
  have hbounds := getOneEncodeLength_bounds val
  have hlt := lt_pow_getOneEncodeLength h
  rw [encodeOne_eq]
  apply Leb128.decode_encode
  rwa [Nat.sub_add_cancel hbounds.1]

/-! ## Section 3: The two readers -/

theorem toNat_and_127 (c : Byte) : (c &&& 0x7F).toNat = c.toNat % 128 := by
  rw [BitVec.toNat_and]
  exact Nat.and_two_pow_sub_one_eq_mod _ 7

theorem toNat_and_15 (c : Byte) : (c &&& 0x0F).toNat = c.toNat % 16 := by
  rw [BitVec.toNat_and]
  exact Nat.and_two_pow_sub_one_eq_mod _ 4

/-- What is put above the bits that are there. -/
theorem or_shiftLeft {v k : Nat} (h : v < 2 ^ k) (x : Nat) : v ||| x <<< k = v + x * 2 ^ k := by
  rw [Nat.or_comm, ← Nat.shiftLeft_add_eq_or_of_lt h, Nat.shiftLeft_eq, Nat.add_comm]

/-- Byte by byte, as long as `endbyte` is not in the way and the number fits. -/
theorem readTail_of_decode {inbyte rest : List Byte} {v : Nat}
    (h : Leb128.decode inbyte = some (v, rest)) {remaining shift acc : Nat}
    (hfit : acc + v * 2 ^ shift < 2 ^ 32)
    (hshift : shift + 7 * (inbyte.length - rest.length) ≤ 35)
    (hremaining : inbyte.length - rest.length ≤ remaining) :
    readTail remaining shift acc inbyte =
      some (some (acc + v * 2 ^ shift), remaining - (inbyte.length - rest.length), rest) := by
  induction inbyte generalizing remaining shift acc v with
  | nil => cases h
  | cons c inbyte ih =>
    have hlength := Leb128.length_lt_of_decode h
    rw [List.length_cons] at hlength hshift hremaining ⊢
    obtain ⟨remaining, rfl⟩ : ∃ r, remaining = r + 1 := ⟨remaining - 1, by omega⟩
    have hand : (c &&& 127).toNat = c.toNat % 128 := toNat_and_127 c
    rw [readTail, if_neg (by omega), hand, Nat.shiftLeft_eq]
    rcases Leb128.decode_cons h with ⟨hlast, rfl, rfl⟩ | ⟨hmore, v', hrest, rfl⟩
    · dsimp only
      rw [if_pos hlast, Nat.mod_eq_of_lt hlast, Nat.mod_eq_of_lt hfit, Nat.add_sub_cancel_left]
      rfl
    · have hsum : acc + c.toNat % 128 * 2 ^ shift + v' * 2 ^ (shift + 7) =
          acc + (c.toNat % 128 + 128 * v') * 2 ^ shift := by
        rw [Nat.pow_add]
        ring
      have hrestLength := Leb128.length_lt_of_decode hrest
      have hacc : acc + c.toNat % 128 * 2 ^ shift < 2 ^ 32 :=
        Nat.lt_of_le_of_lt (Nat.le_add_right _ _) (hsum ▸ hfit)
      dsimp only
      rw [if_neg (Nat.not_lt.mpr hmore), Nat.mod_eq_of_lt hacc,
        ih hrest (hsum ▸ hfit) (by omega) (by omega), hsum,
        show remaining + 1 - (inbyte.length + 1 - rest.length) =
          remaining - (inbyte.length - rest.length) by omega]

/-- The same reading as a loop, with up to `n` bytes in front of the last one. -/
def readLoop : Nat → Nat → Nat → Nat → List Byte → Option (Nat × Nat)
  | _, _, _, _, [] => none
  | 0, length, shift, v, c :: _ => some (v ||| (c &&& 0x0F).toNat <<< shift, length + 1)
  | n + 1, length, shift, v, c :: inbyte =>
    let v := v ||| (c &&& 0x7F).toNat <<< shift
    if c.toNat < 128 then some (v, length + 1)
    else readLoop n (length + 1) (shift + 7) v inbyte

theorem readFast_eq (inbyte : List Byte) : readFast inbyte = readLoop 4 0 0 0 inbyte := by
  rcases inbyte with _ | ⟨c₀, _ | ⟨c₁, _ | ⟨c₂, _ | ⟨c₃, _ | ⟨c₄, inbyte⟩⟩⟩⟩⟩ <;>
    simp [readFast, readLoop]

/-- Without a look at the end, as long as the last byte has room for what is left. -/
theorem readLoop_of_decode {inbyte rest : List Byte} {n length shift acc v : Nat}
    (h : Leb128.decode inbyte = some (v, rest)) (hacc : acc < 2 ^ shift)
    (hshift : shift + 7 * n = 28) (hfit : acc + v * 2 ^ shift < 2 ^ 32)
    (hlength : inbyte.length ≤ rest.length + n + 1) :
    readLoop n length shift acc inbyte =
      some (acc + v * 2 ^ shift, length + (inbyte.length - rest.length)) := by
  induction n generalizing inbyte length shift acc v with
  | zero =>
    obtain rfl : shift = 28 := by omega
    rcases inbyte with _ | ⟨c, inbyte⟩
    · cases h
    rw [List.length_cons] at hlength ⊢
    rcases Leb128.decode_cons h with ⟨hlast, rfl, rfl⟩ | ⟨hmore, v', hrest, rfl⟩
    · have hbits : c.toNat % 16 = c.toNat := Nat.mod_eq_of_lt (by omega)
      rw [readLoop, toNat_and_15, hbits, or_shiftLeft hacc, Nat.add_sub_cancel_left]
    · have hless := Leb128.length_lt_of_decode hrest
      omega
  | succ n ih =>
    rcases inbyte with _ | ⟨c, inbyte⟩
    · cases h
    rw [List.length_cons] at hlength ⊢
    rw [readLoop, toNat_and_127, or_shiftLeft hacc]
    rcases Leb128.decode_cons h with ⟨hlast, rfl, rfl⟩ | ⟨hmore, v', hrest, rfl⟩
    · rw [if_pos hlast, Nat.mod_eq_of_lt hlast, Nat.add_sub_cancel_left]
    · have hless := Leb128.length_lt_of_decode hrest
      have hpow : 2 ^ (shift + 7) = 2 ^ shift * 128 := Nat.pow_add 2 shift 7
      have hsum : acc + c.toNat % 128 * 2 ^ shift + v' * 2 ^ (shift + 7) =
          acc + (c.toNat % 128 + 128 * v') * 2 ^ shift := by
        rw [hpow]
        ring
      have hacc' : acc + c.toNat % 128 * 2 ^ shift < 2 ^ (shift + 7) := by
        have hle : (c.toNat % 128 + 1) * 2 ^ shift ≤ 128 * 2 ^ shift :=
          Nat.mul_le_mul_right _ (Nat.mod_lt _ (by decide))
        rw [hpow]
        linarith
      rw [if_neg (Nat.not_lt.mpr hmore),
        ih hrest hacc' (by omega) (hsum ▸ hfit) (by omega), hsum,
        show length + 1 + (inbyte.length - rest.length) =
          length + (inbyte.length + 1 - rest.length) by omega]

theorem readFast_of_decode {inbyte rest : List Byte} {v : Nat}
    (h : Leb128.decode inbyte = some (v, rest)) (hv : v < 2 ^ 32)
    (hlength : inbyte.length ≤ rest.length + 5) :
    readFast inbyte = some (v, inbyte.length - rest.length) := by
  rw [readFast_eq, readLoop_of_decode h (by decide) rfl (by omega) hlength, Nat.zero_add,
    Nat.zero_add, Nat.pow_zero, Nat.mul_one]

/-- Both readers on a number that was written. -/
theorem readFast_encodeOne {val : Nat} (h : val < 2 ^ 32) (rest : List Byte) :
    readFast (encodeOne val ++ rest) = some (val, getOneEncodeLength val) := by
  have hbounds := getOneEncodeLength_bounds val
  rw [readFast_of_decode (decode_encodeOne h rest) h, List.length_append, length_encodeOne,
    Nat.add_sub_cancel]
  rw [List.length_append, length_encodeOne]
  omega

theorem readTail_encodeOne {val : Nat} (h : val < 2 ^ 32) (rest : List Byte) {remaining : Nat}
    (hremaining : getOneEncodeLength val ≤ remaining) :
    readTail remaining 0 0 (encodeOne val ++ rest) =
      some (some val, remaining - getOneEncodeLength val, rest) := by
  have hbounds := getOneEncodeLength_bounds val
  have hlength : (encodeOne val ++ rest).length - rest.length = getOneEncodeLength val := by
    rw [List.length_append, length_encodeOne, Nat.add_sub_cancel]
  rw [readTail_of_decode (decode_encodeOne h rest) (by omega) (by omega) (by omega), hlength,
    Nat.zero_add, Nat.pow_zero, Nat.mul_one]

/-! ## Section 4: What is written is read back -/

section

variable {isDelta : Bool}

theorem valOf_lt {prev x : Nat} (hx : x < 2 ^ 32) : valOf isDelta prev x < 2 ^ 32 := by
  unfold valOf sub32
  split <;> omega

theorem valOf_le {prev x : Nat} (hprev : isDelta = true → prev ≤ x) (hx : x < 2 ^ 32) :
    valOf isDelta prev x ≤ x := by
  unfold valOf
  split
  next hdelta =>
    rw [sub32_of_le (hprev hdelta) hx]
    exact Nat.sub_le _ _
  next => exact Nat.le_refl x

/-- A difference may run over, and runs back. -/
theorem elementOf_valOf (prev : Nat) {x : Nat} (hx : x < 2 ^ 32) :
    elementOf isDelta prev (valOf isDelta prev x) = x := by
  unfold elementOf valOf sub32
  split
  · omega
  · rfl

theorem length_encodeLoop (prev : Nat) (xs : List Nat) :
    (encodeLoop isDelta prev xs).length = encodeLengthLoop isDelta prev xs := by
  induction xs generalizing prev with
  | nil => rfl
  | cons x xs ih =>
    rw [encodeLoop, List.length_append, length_encodeOne, ih, encodeLengthLoop]

theorem length_le_encodeLoop (isDelta : Bool) (prev : Nat) (xs : List Nat) :
    xs.length ≤ (encodeLoop isDelta prev xs).length := by
  induction xs generalizing prev with
  | nil => exact Nat.le_refl 0
  | cons x xs ih =>
    have hbounds := getOneEncodeLength_bounds (valOf isDelta prev x)
    have hrest := ih (next isDelta prev x)
    rw [encodeLoop, List.length_append, length_encodeOne, List.length_cons]
    omega

theorem drop_encodeOne (val : Nat) (bytes : List Byte) :
    (encodeOne val ++ bytes).drop (getOneEncodeLength val) = bytes := by
  rw [← length_encodeOne, List.drop_left]

theorem decodeTail_encodeLoop {xs : List Nat} (hxs : ∀ x ∈ xs, x < 2 ^ 32) (prev : Nat)
    {rounds : Nat} (hrounds : xs.length < rounds) (rest : List Byte) :
    decodeTail isDelta rounds (encodeLoop isDelta prev xs).length prev
      (encodeLoop isDelta prev xs ++ rest) = some (xs, rest) := by
  induction xs generalizing prev rounds with
  | nil =>
    obtain ⟨rounds, rfl⟩ := Nat.exists_eq_add_one.mpr (Nat.zero_lt_of_lt hrounds)
    rfl
  | cons x xs ih =>
    obtain ⟨rounds, rfl⟩ := Nat.exists_eq_add_one.mpr (Nat.zero_lt_of_lt hrounds)
    obtain ⟨hx, hxs⟩ := List.forall_mem_cons.mp hxs
    have hbounds := getOneEncodeLength_bounds (valOf isDelta prev x)
    have hval : valOf isDelta prev x < 2 ^ 32 := valOf_lt hx
    rw [encodeLoop, List.length_append, length_encodeOne, List.append_assoc, decodeTail,
      if_pos (by omega), readTail_encodeOne hval _ (Nat.le_add_right _ _), Option.bind_some]
    dsimp only
    rw [elementOf_valOf prev hx, Nat.add_sub_cancel_left,
      ih hxs _ (Nat.lt_of_succ_lt_succ hrounds), Option.map_some]

theorem decodeFast_encodeLoop {xs : List Nat} (hxs : ∀ x ∈ xs, x < 2 ^ 32) (prev : Nat)
    {rounds : Nat} (hrounds : xs.length < rounds) (rest : List Byte) :
    decodeFast isDelta rounds (encodeLoop isDelta prev xs).length prev
      (encodeLoop isDelta prev xs ++ rest) = some (xs, rest) := by
  induction xs generalizing prev rounds with
  | nil =>
    obtain ⟨rounds, rfl⟩ := Nat.exists_eq_add_one.mpr (Nat.zero_lt_of_lt hrounds)
    rfl
  | cons x xs ih =>
    obtain ⟨rounds, rfl⟩ := Nat.exists_eq_add_one.mpr (Nat.zero_lt_of_lt hrounds)
    have hlength := length_le_encodeLoop isDelta prev (x :: xs)
    rw [decodeFast]
    split
    · obtain ⟨hx, hxs⟩ := List.forall_mem_cons.mp hxs
      have hval : valOf isDelta prev x < 2 ^ 32 := valOf_lt hx
      rw [encodeLoop, List.append_assoc, readFast_encodeOne hval, Option.bind_some]
      dsimp only
      rw [elementOf_valOf prev hx, drop_encodeOne, List.length_append, length_encodeOne,
        Nat.add_sub_cancel_left, ih hxs _ (Nat.lt_of_succ_lt_succ hrounds),
        Option.map_some]
    · exact decodeTail_encodeLoop hxs prev (Nat.lt_succ_of_le hlength) rest

/-- Through pointers that are different from each other. -/
theorem writeBytes_spec (memory : Nat → Byte) {bytes : List Byte} {out : List Nat}
    (hout : out.Nodup) (hroom : bytes.length ≤ out.length) :
    ∃ memory', writeBytes memory bytes out = some (memory', out.drop bytes.length) ∧
      (out.take bytes.length).map memory' = bytes ∧
      ∀ p, p ∉ out.take bytes.length → memory' p = memory p := by
  induction bytes generalizing memory out with
  | nil => exact ⟨memory, rfl, rfl, fun _ _ => rfl⟩
  | cons b bytes ih =>
    rcases out with _ | ⟨p, out⟩
    · cases hroom
    obtain ⟨hp, hout⟩ := List.nodup_cons.mp hout
    obtain ⟨memory', hwrite, hbytes, hframe⟩ := ih (Function.update memory p b) hout
      (Nat.le_of_succ_le_succ hroom)
    refine ⟨memory', hwrite, ?_, ?_⟩
    · have hfirst : memory' p = b := by
        rw [hframe p fun hmem => hp (List.mem_of_mem_take hmem), Function.update_self]
      rw [List.length_cons, List.take_succ_cons, List.map_cons, hfirst, hbytes]
    · intro q hq
      rw [List.length_cons, List.take_succ_cons, List.mem_cons, not_or] at hq
      rw [hframe q hq.2, Function.update_of_ne hq.1]

end

/-- In place. -/
theorem decode_encodeArray (isDelta : Bool) {xs : List Nat} (hxs : ∀ x ∈ xs, x < 2 ^ 32)
    (rest : List Byte) :
    decode isDelta ((encodeArray isDelta xs).1 ++ rest) (encodeArray isDelta xs).1.length =
      some (xs, xs.length % 2 ^ 32, rest) := by
  have hlength := length_le_encodeLoop isDelta 0 xs
  rw [decode, encodeArray, decodeFast_encodeLoop hxs 0 (Nat.lt_succ_of_le hlength),
    Option.map_some]

/-- What is written through some pointers is read back through them, whatever 32-bit numbers
    it was; nothing else in the memory changes, and `GetEncodeLength` says beforehand how many
    of the pointers are used. Its `int` counter is long enough for the list, and the number
    fits the `uint32_t` of `EncodeUnDirectArray`. -/
theorem unDirect_roundTrip (isDelta : Bool) {xs : List Nat} (hxs : ∀ x ∈ xs, x < 2 ^ 32)
    (hints : xs.length < 2 ^ 31) :
    ∃ length, getEncodeLength isDelta xs = some length ∧
      (length < 2 ^ 32 → ∀ (memory : Nat → Byte) (out : List Nat), out.Nodup →
        length ≤ out.length →
        ∃ memory', encodeUnDirectArray isDelta xs memory out =
            some (memory', out.drop length, length) ∧
          decodeUnDirectArray isDelta memory' out length =
            some (xs, xs.length % 2 ^ 32, out.drop length) ∧
          ∀ p, p ∉ out.take length → memory' p = memory p) := by
  refine ⟨encodeLengthLoop isDelta 0 xs, if_pos hints, fun hlength memory out hout hroom => ?_⟩
  have hbytes : (encodeLoop isDelta 0 xs).length = encodeLengthLoop isDelta 0 xs :=
    length_encodeLoop 0 xs
  obtain ⟨memory', hwrite, hread, hframe⟩ :=
    writeBytes_spec memory hout (hbytes.trans_le hroom)
  rw [hbytes] at hwrite hread hframe
  refine ⟨memory', ?_, ?_, hframe⟩
  · rw [encodeUnDirectArray, hwrite, Option.map_some, hbytes, Nat.mod_eq_of_lt hlength]
  · have hmemory : out.map memory' = (encodeArray isDelta xs).1 ++
        (out.drop (encodeLengthLoop isDelta 0 xs)).map memory' := by
      rw [encodeArray, ← hread, ← List.map_append, List.take_append_drop]
    have hdecode := decode_encodeArray isDelta hxs
      ((out.drop (encodeLengthLoop isDelta 0 xs)).map memory')
    have hfirst : (encodeArray isDelta xs).1.length = encodeLengthLoop isDelta 0 xs := hbytes
    rw [hfirst] at hdecode
    rw [decodeUnDirectArray, hmemory, hdecode, Option.map_some]
    dsimp only
    rw [List.length_map, List.length_drop, Nat.sub_sub_self hroom]

/-- Differences that run over, and a number of five bytes. -/
theorem unDirect_roundTrip_three :
    ∃ memory', encodeUnDirectArray true [300, 7, 4294967295] (fun _ => 0) (List.range 20) =
        some (memory', List.range' 12 8, 12) ∧
      decodeUnDirectArray true memory' (List.range 20) 12 =
        some ([300, 7, 4294967295], 3, List.range' 12 8) := by
  have hnumbers : ∀ x ∈ [300, 7, 4294967295], x < 2 ^ 32 := by decide
  have hpointers : (List.range 20).Nodup := List.nodup_range
  obtain ⟨length, hcount, hrun⟩ := unDirect_roundTrip true hnumbers (by decide)
  have htwelve : getEncodeLength true [300, 7, 4294967295] = some 12 := by decide
  obtain rfl : 12 = length := Option.some.inj (htwelve.symm.trans hcount)
  obtain ⟨memory', hwrite, hread, -⟩ :=
    hrun (by decide) (fun _ => 0) (List.range 20) hpointers (by decide)
  exact ⟨memory', hwrite, hread⟩

/-! ## Section 5: Search -/

/-- What a loop of `Find` says from `prev` on about the elements that are left. -/
def verdictFrom (element prev : Nat) (xs : List Nat) : FindRes :=
  if element ∈ xs then .exist
  else if prev < element ∧ ∀ x ∈ xs, x < element then .greaterThanMax
  else .notExist

/-- Where the element stands. Only a list of differences tells that it is below the first
    one. -/
def verdict (isDelta : Bool) (element : Nat) (xs : List Nat) : FindRes :=
  if element ∈ xs then .exist
  else if ∀ x ∈ xs, x < element then .greaterThanMax
  else if isDelta ∧ ∀ x ∈ xs, element < x then .lessThanMin
  else .notExist

section

variable {isDelta : Bool} {element : Nat}

theorem verdictFrom_cons_self (prev : Nat) (xs : List Nat) :
    verdictFrom element prev (element :: xs) = .exist := if_pos List.mem_cons_self

/-- No later element of an ascending list is the one looked for. -/
theorem verdictFrom_cons_of_lt {x : Nat} (prev : Nat) {xs : List Nat} (h : element < x)
    (hsorted : (x :: xs).Pairwise (· ≤ ·)) : verdictFrom element prev (x :: xs) = .notExist := by
  have hle := (List.pairwise_cons.mp hsorted).1
  have hnot : element ∉ x :: xs := by
    rw [List.mem_cons, not_or]
    exact ⟨Nat.ne_of_lt h, fun hmem => absurd (hle element hmem) (Nat.not_le.mpr h)⟩
  rw [verdictFrom, if_neg hnot, if_neg]
  rintro ⟨-, hall⟩
  exact absurd (hall x List.mem_cons_self) (Nat.not_lt.mpr (Nat.le_of_lt h))

/-- An element that is passed over may be left out, also one that is larger when the next
    difference counts from it. -/
theorem verdictFrom_cons_of_ne {prev x : Nat} {xs : List Nat} (hne : element ≠ x)
    (hsorted : (x :: xs).Pairwise (· ≤ ·)) (hprev : isDelta = true → prev ≤ x)
    (h : isDelta = true ∨ x < element) :
    verdictFrom element (next isDelta prev x) xs = verdictFrom element prev (x :: xs) := by
  rcases Nat.lt_or_gt_of_ne hne with hlt | hgt
  · obtain hdelta : isDelta = true := h.resolve_right (Nat.not_lt.mpr (Nat.le_of_lt hlt))
    rw [verdictFrom_cons_of_lt prev hlt hsorted]
    have hle := (List.pairwise_cons.mp hsorted).1
    have hnot : element ∉ xs := fun hmem => absurd (hle element hmem) (Nat.not_le.mpr hlt)
    rw [verdictFrom, if_neg hnot, next, if_pos hdelta, if_neg]
    rintro ⟨hfirst, -⟩
    exact absurd hfirst (Nat.not_lt.mpr (Nat.le_of_lt hlt))
  · have hmem : element ∈ x :: xs ↔ element ∈ xs := by
      rw [List.mem_cons, or_iff_right hne]
    have hall : (∀ y ∈ x :: xs, y < element) ↔ ∀ y ∈ xs, y < element := by
      rw [List.forall_mem_cons, and_iff_right hgt]
    have hnext : next isDelta prev x < element ↔ prev < element := by
      unfold next
      split
      next hdelta =>
        have hle := hprev hdelta
        omega
      next => exact Iff.rfl
    simp only [verdictFrom, hmem, hall, hnext]

/-- A result of a loop of `Find`: the verdict, and behind an element that was found the
    pointer. -/
def Finds (isDelta : Bool) (element prev : Nat) (xs : List Nat) (rest : List Byte)
    (result : Option (FindRes × List Byte)) : Prop :=
  ∃ inbyte, result = some (verdictFrom element prev xs, inbyte) ∧
    (element ∈ xs → inbyte =
      encodeLoop isDelta (next isDelta prev element) (xs.drop (xs.idxOf element + 1)) ++ rest)

theorem Finds.exist (prev : Nat) (xs : List Nat) (rest : List Byte) :
    Finds isDelta element prev (element :: xs) rest
      (some (.exist, encodeLoop isDelta (next isDelta prev element) xs ++ rest)) := by
  refine ⟨_, by rw [verdictFrom_cons_self], fun _ => ?_⟩
  rw [List.idxOf_cons_self, List.drop_succ_cons, List.drop_zero]

theorem Finds.notExist {x : Nat} (prev : Nat) {xs : List Nat} (rest inbyte : List Byte)
    (h : element < x) (hsorted : (x :: xs).Pairwise (· ≤ ·)) :
    Finds isDelta element prev (x :: xs) rest (some (.notExist, inbyte)) := by
  have hverdict := verdictFrom_cons_of_lt prev h hsorted
  refine ⟨inbyte, by rw [hverdict], fun hmem => ?_⟩
  rw [verdictFrom, if_pos hmem] at hverdict
  cases hverdict

theorem Finds.cons {prev x : Nat} {xs : List Nat} {rest : List Byte}
    {result : Option (FindRes × List Byte)} (hne : element ≠ x)
    (hsorted : (x :: xs).Pairwise (· ≤ ·)) (hprev : isDelta = true → prev ≤ x)
    (hpassed : isDelta = true ∨ x < element)
    (h : Finds isDelta element (next isDelta prev x) xs rest result) :
    Finds isDelta element prev (x :: xs) rest result := by
  obtain ⟨inbyte, hresult, hpointer⟩ := h
  rw [verdictFrom_cons_of_ne hne hsorted hprev hpassed] at hresult
  refine ⟨inbyte, hresult, fun hmem => ?_⟩
  have hnext : next isDelta (next isDelta prev x) element = next isDelta prev element := by
    cases isDelta <;> rfl
  rw [hpointer ((List.mem_cons.mp hmem).resolve_left hne), hnext,
    List.idxOf_cons_ne xs (Ne.symm hne), List.drop_succ_cons]

/-- No element is left. -/
theorem Finds.nil (prev : Nat) (rest : List Byte) :
    Finds isDelta element prev [] rest
      (if prev < element then some (.greaterThanMax, rest) else some (.notExist, rest)) := by
  refine ⟨rest, ?_, fun hmem => absurd hmem List.not_mem_nil⟩
  by_cases h : prev < element <;> simp [verdictFrom, h]

theorem next_le {prev x : Nat} {xs : List Nat} (h : ∀ y ∈ xs, x ≤ y) (hdelta : isDelta = true) :
    ∀ y ∈ xs, next isDelta prev x ≤ y := by
  rwa [next, if_pos hdelta]

theorem findTail_encodeLoop (element : Nat) {xs : List Nat} (hxs : ∀ x ∈ xs, x < 2 ^ 32)
    (hsorted : xs.Pairwise (· ≤ ·)) {prev : Nat} (hprev : isDelta = true → ∀ x ∈ xs, prev ≤ x)
    {rounds : Nat} (hrounds : xs.length < rounds) (rest : List Byte) :
    Finds isDelta element prev xs rest
      (findTail isDelta element rounds (encodeLoop isDelta prev xs).length prev
        (encodeLoop isDelta prev xs ++ rest)) := by
  induction xs generalizing prev rounds with
  | nil =>
    obtain ⟨rounds, rfl⟩ := Nat.exists_eq_add_one.mpr (Nat.zero_lt_of_lt hrounds)
    exact Finds.nil prev rest
  | cons x xs ih =>
    obtain ⟨rounds, rfl⟩ := Nat.exists_eq_add_one.mpr (Nat.zero_lt_of_lt hrounds)
    obtain ⟨hx, hxs⟩ := List.forall_mem_cons.mp hxs
    obtain ⟨hhead, htail⟩ := List.pairwise_cons.mp hsorted
    have hfirst : isDelta = true → prev ≤ x := fun hdelta => hprev hdelta x List.mem_cons_self
    have hbounds := getOneEncodeLength_bounds (valOf isDelta prev x)
    have hval : valOf isDelta prev x < 2 ^ 32 := valOf_lt hx
    rw [encodeLoop, List.length_append, length_encodeOne, List.append_assoc, findTail,
      if_pos (by omega), readTail_encodeOne hval _ (Nat.le_add_right _ _), Option.bind_some]
    dsimp only
    rw [elementOf_valOf prev hx, Nat.add_sub_cancel_left]
    split
    next heq =>
      subst heq
      exact Finds.exist prev xs rest
    next hne =>
      -- the number is at most the element, so the early end is right
      have hle : valOf isDelta prev x ≤ x := valOf_le hfirst hx
      split
      next hlt => exact Finds.notExist prev rest _ (Nat.lt_of_lt_of_le hlt hle) hsorted
      next hge =>
        have hpassed : isDelta = true ∨ x < element := by
          cases isDelta with
          | true => exact Or.inl rfl
          | false => exact Or.inr (Nat.lt_of_le_of_ne (Nat.le_of_not_lt hge) (Ne.symm hne))
        exact Finds.cons hne hsorted hfirst hpassed
          (ih hxs htail (next_le hhead) (Nat.lt_of_succ_lt_succ hrounds))

theorem findFast_encodeLoop (element : Nat) {xs : List Nat} (hxs : ∀ x ∈ xs, x < 2 ^ 32)
    (hsorted : xs.Pairwise (· ≤ ·)) {prev : Nat} (hprev : isDelta = true → ∀ x ∈ xs, prev ≤ x)
    {rounds : Nat} (hrounds : xs.length < rounds) (rest : List Byte) :
    Finds isDelta element prev xs rest
      (findFast isDelta element rounds (encodeLoop isDelta prev xs).length prev
        (encodeLoop isDelta prev xs ++ rest)) := by
  induction xs generalizing prev rounds with
  | nil =>
    obtain ⟨rounds, rfl⟩ := Nat.exists_eq_add_one.mpr (Nat.zero_lt_of_lt hrounds)
    exact Finds.nil prev rest
  | cons x xs ih =>
    obtain ⟨rounds, rfl⟩ := Nat.exists_eq_add_one.mpr (Nat.zero_lt_of_lt hrounds)
    have hlength := length_le_encodeLoop isDelta prev (x :: xs)
    rw [findFast]
    split
    · obtain ⟨hx, hxs⟩ := List.forall_mem_cons.mp hxs
      obtain ⟨hhead, htail⟩ := List.pairwise_cons.mp hsorted
      have hfirst : isDelta = true → prev ≤ x := fun hdelta => hprev hdelta x List.mem_cons_self
      have hval : valOf isDelta prev x < 2 ^ 32 := valOf_lt hx
      rw [encodeLoop, List.append_assoc, readFast_encodeOne hval, Option.bind_some]
      dsimp only
      rw [elementOf_valOf prev hx, drop_encodeOne, List.length_append, length_encodeOne,
        Nat.add_sub_cancel_left]
      split
      next heq =>
        subst heq
        exact Finds.exist prev xs rest
      next hne =>
        split
        next hlt => exact Finds.notExist prev rest _ hlt hsorted
        next hge =>
          have hpassed : isDelta = true ∨ x < element :=
            Or.inr (Nat.lt_of_le_of_ne (Nat.le_of_not_lt hge) (Ne.symm hne))
          exact Finds.cons hne hsorted hfirst hpassed
            (ih hxs htail (next_le hhead) (Nat.lt_of_succ_lt_succ hrounds))
    · exact findTail_encodeLoop element hxs hsorted hprev (Nat.lt_succ_of_le hlength) rest

end

/-- Without differences the loops are all there is. -/
theorem verdict_false (element : Nat) {xs : List Nat} (hne : xs ≠ []) :
    verdict false element xs = verdictFrom element 0 xs := by
  have hall : (0 < element ∧ ∀ x ∈ xs, x < element) ↔ ∀ x ∈ xs, x < element := by
    refine and_iff_right_of_imp fun h => ?_
    exact Nat.lt_of_le_of_lt (Nat.zero_le _) (h _ (List.head_mem hne))
  simp only [verdict, verdictFrom, hall, Bool.false_eq_true, false_and, if_false]

/-- Behind a first element that is smaller. -/
theorem verdict_true_of_lt {element x : Nat} (h : x < element) (xs : List Nat) :
    verdict true element (x :: xs) = verdictFrom element x xs := by
  have hmem : element ∈ x :: xs ↔ element ∈ xs := by
    rw [List.mem_cons, or_iff_right (Nat.ne_of_gt h)]
  have hnever : ¬ element < x := Nat.lt_asymm h
  simp only [verdict, verdictFrom, hmem, List.forall_mem_cons, h, hnever, true_and, false_and,
    if_false]

theorem verdict_true_of_gt {element x : Nat} {xs : List Nat} (h : element < x)
    (hsorted : (x :: xs).Pairwise (· ≤ ·)) : verdict true element (x :: xs) = .lessThanMin := by
  have hle := (List.pairwise_cons.mp hsorted).1
  have hall : ∀ y ∈ x :: xs, element < y :=
    List.forall_mem_cons.mpr ⟨h, fun y hy => Nat.lt_of_lt_of_le h (hle y hy)⟩
  have hnot : element ∉ x :: xs := fun hmem => Nat.lt_irrefl _ (hall element hmem)
  have hsome : ¬ ∀ y ∈ x :: xs, y < element := fun hlt =>
    Nat.lt_asymm h (hlt x List.mem_cons_self)
  rw [verdict, if_neg hnot, if_neg hsome, if_pos ⟨rfl, hall⟩]

/-- `Find` on an ascending list that was written: it says where the element stands, and
    behind an element that is there the pointer is left, whatever follows the list. -/
theorem find_verdict (isDelta : Bool) {xs : List Nat} (hne : xs ≠ [])
    (hxs : ∀ x ∈ xs, x < 2 ^ 32) (hsorted : xs.Pairwise (· ≤ ·)) (element : Nat)
    (rest : List Byte) :
    ∃ inbyte, find isDelta ((encodeArray isDelta xs).1 ++ rest)
        (encodeArray isDelta xs).1.length element = some (verdict isDelta element xs, inbyte) ∧
      (element ∈ xs → inbyte =
        encodeLoop isDelta (next isDelta 0 element) (xs.drop (xs.idxOf element + 1)) ++ rest) := by
  have hlength := length_le_encodeLoop isDelta 0 xs
  unfold find encodeArray
  dsimp only
  cases isDelta with
  | false =>
    have hfirst : false = true → ∀ x ∈ xs, 0 ≤ x := fun _ x _ => Nat.zero_le x
    obtain ⟨inbyte, hresult, hpointer⟩ :=
      findFast_encodeLoop element hxs hsorted hfirst (Nat.lt_succ_of_le hlength) rest
    refine ⟨inbyte, ?_, hpointer⟩
    rw [if_neg Bool.false_ne_true, hresult, verdict_false element hne]
  | true =>
    obtain ⟨x, xs, rfl⟩ := List.exists_cons_of_ne_nil hne
    obtain ⟨hx, hxs⟩ := List.forall_mem_cons.mp hxs
    obtain ⟨hhead, htail⟩ := List.pairwise_cons.mp hsorted
    have hval : valOf true 0 x = x := by
      rw [valOf, if_pos rfl, sub32_of_le (Nat.zero_le x) hx, Nat.sub_zero]
    rw [if_pos rfl, encodeLoop, hval, List.append_assoc, readFast_encodeOne hx, Option.bind_some]
    dsimp only
    rw [drop_encodeOne]
    rcases Nat.lt_trichotomy element x with hlt | rfl | hgt
    · rw [if_neg (Nat.ne_of_lt hlt), if_pos hlt, verdict_true_of_gt hlt hsorted]
      refine ⟨_, rfl, fun hmem => ?_⟩
      rcases List.mem_cons.mp hmem with rfl | hmem
      · exact absurd hlt (Nat.lt_irrefl _)
      · exact absurd hlt (Nat.not_lt.mpr (hhead element hmem))
    · rw [if_pos rfl]
      refine ⟨_, by rw [verdict, if_pos List.mem_cons_self], fun _ => ?_⟩
      rw [List.idxOf_cons_self, List.drop_succ_cons, List.drop_zero]
    · have hrounds : xs.length < (encodeOne x ++ encodeLoop true x xs).length + 1 := by
        have htailLength := length_le_encodeLoop true x xs
        rw [List.length_append]
        omega
      have hfirst : true = true → ∀ y ∈ xs, x ≤ y := fun _ => hhead
      obtain ⟨inbyte, hresult, hpointer⟩ :=
        findFast_encodeLoop element hxs htail hfirst hrounds rest
      have hremaining : (encodeOne x ++ encodeLoop true x xs).length - getOneEncodeLength x =
          (encodeLoop true x xs).length := by
        rw [List.length_append, length_encodeOne, Nat.add_sub_cancel_left]
      have hnext : next true 0 x = x := rfl
      rw [if_neg (Nat.ne_of_gt hgt), if_neg (Nat.lt_asymm hgt), verdict_true_of_lt hgt, hnext,
        hremaining, hresult]
      refine ⟨inbyte, rfl, fun hmem => ?_⟩
      rw [hpointer ((List.mem_cons.mp hmem).resolve_left (Nat.ne_of_gt hgt)),
        List.idxOf_cons_ne xs (Nat.ne_of_lt hgt), List.drop_succ_cons]
      rfl

/-- Seven bytes: the second loop reads the last two numbers, and goes on behind 70000 when it
    looks for 69999. -/
theorem find_verdict_four :
    (∃ inbyte, find true ((encodeArray true [3, 300, 70000, 70010]).1 ++ [255]) 7 70010 =
      some (.exist, inbyte)) ∧
    (∃ inbyte, find true ((encodeArray true [3, 300, 70000, 70010]).1 ++ [255]) 7 69999 =
      some (.notExist, inbyte)) := by
  have hne : [3, 300, 70000, 70010] ≠ [] := by decide
  obtain ⟨inbyte, hfound, -⟩ := find_verdict true hne (by decide) (by decide) 70010 [255]
  obtain ⟨inbyte', hmissed, -⟩ := find_verdict true hne (by decide) (by decide) 69999 [255]
  exact ⟨⟨inbyte, hfound⟩, ⟨inbyte', hmissed⟩⟩

/-! ## Section 6: The prices of blocks -/

section

variable {isDelta : Bool}

theorem encodeLengthLoop_append (prev : Nat) (xs ys : List Nat) :
    encodeLengthLoop isDelta prev (xs ++ ys) = encodeLengthLoop isDelta prev xs +
      encodeLengthLoop isDelta (xs.foldl (next isDelta) prev) ys := by
  induction xs generalizing prev with
  | nil => exact (Nat.zero_add _).symm
  | cons x xs ih =>
    rw [List.cons_append, encodeLengthLoop, encodeLengthLoop, ih, List.foldl_cons, Nat.add_assoc]

/-- Behind an element it does not matter what was in front of it. -/
theorem encodeLengthLoop_next (prev prev' x : Nat) (xs : List Nat) :
    encodeLengthLoop isDelta (next isDelta prev x) xs =
      encodeLengthLoop isDelta (next isDelta prev' x) xs := by
  cases isDelta with
  | true => rfl
  | false =>
    have hfalse : ∀ p p', encodeLengthLoop false p xs = encodeLengthLoop false p' xs := by
      intro p p'
      induction xs generalizing p p' with
      | nil => rfl
      | cons y xs ih =>
        rw [encodeLengthLoop, encodeLengthLoop, ih (next false p y) (next false p' y)]
        rfl
    exact hfalse _ _

theorem parseLoop_append (size pre : Nat) (xs ys : List Nat) :
    parseLoop isDelta size pre (xs ++ ys) = parseLoop isDelta size pre xs ++
      parseLoop isDelta (size + encodeLengthLoop isDelta pre xs) (xs.foldl (next isDelta) pre)
        ys := by
  induction xs generalizing size pre with
  | nil => rfl
  | cons x xs ih =>
    rw [List.cons_append, parseLoop, parseLoop, List.cons_append, ih, encodeLengthLoop,
      List.foldl_cons, Nat.add_assoc]

theorem length_parseLoop (size pre : Nat) (xs : List Nat) :
    (parseLoop isDelta size pre xs).length = xs.length := by
  induction xs generalizing size pre with
  | nil => rfl
  | cons x xs ih => rw [parseLoop, List.length_cons, ih, List.length_cons]

theorem sum_deltaBits_parseLoop (size pre : Nat) (xs : List Nat) :
    ((parseLoop isDelta size pre xs).map DeltaInfo.deltaBits).sum =
      encodeLengthLoop isDelta pre xs := by
  induction xs generalizing size pre with
  | nil => rfl
  | cons x xs ih => rw [parseLoop, List.map_cons, List.sum_cons, ih, encodeLengthLoop]

/-- What `ParseEncode` says of an element, with the elements in front of it and behind it. -/
theorem deltaInfos_append (isDelta : Bool) (before : List Nat) (x : Nat) (behind : List Nat) :
    ∃ front deltaBits size prev, front.length = before.length ∧
      deltaInfos isDelta (before ++ x :: behind) =
        front ++ ⟨deltaBits, getOneEncodeLength x, encodeLengthLoop isDelta 0 (before ++ [x])⟩ ::
          parseLoop isDelta size (next isDelta prev x) behind := by
  rcases before with _ | ⟨y, before⟩
  · exact ⟨[], 0, _, 0, rfl, rfl⟩
  · have hparse : deltaInfos isDelta (y :: (before ++ x :: behind)) =
        ⟨0, getOneEncodeLength y, getOneEncodeLength (valOf isDelta 0 y)⟩ ::
          parseLoop isDelta (getOneEncodeLength (valOf isDelta 0 y)) (next isDelta 0 y)
            (before ++ x :: behind) := rfl
    have htotal : encodeLengthLoop isDelta 0 (y :: (before ++ [x])) =
        getOneEncodeLength (valOf isDelta 0 y) +
          encodeLengthLoop isDelta (next isDelta 0 y) before + getOneEncodeLength
            (valOf isDelta (before.foldl (next isDelta) (next isDelta 0 y)) x) := by
      rw [encodeLengthLoop, encodeLengthLoop_append, encodeLengthLoop, encodeLengthLoop,
        Nat.add_zero, Nat.add_assoc]
    rw [List.cons_append, List.cons_append, hparse, htotal, parseLoop_append, parseLoop,
      ← List.cons_append]
    refine ⟨_, _, _, _, ?_, rfl⟩
    rw [List.length_cons, length_parseLoop, List.length_cons]

end

/-- `ParseEncode` tells the length of every block of a list: the bytes of its first element
    on its own and the bytes of the differences behind it. The total is the length up to the
    element. -/
theorem parseEncode_prices (isDelta : Bool) (before : List Nat) {x : Nat} (hx : x < 2 ^ 32)
    (inside after : List Nat) (hints : (before ++ x :: (inside ++ after)).length < 2 ^ 31) :
    ∃ front info middle back,
      parseEncode isDelta (before ++ x :: (inside ++ after)) =
        some (front ++ info :: (middle ++ back)) ∧
      front.length = before.length ∧ middle.length = inside.length ∧
      (encodeArray isDelta (x :: inside)).1.length =
        info.valBits + (middle.map DeltaInfo.deltaBits).sum ∧
      info.totalBits = (encodeArray isDelta (before ++ [x])).1.length := by
  obtain ⟨front, deltaBits, size, prev, hfront, hparse⟩ :=
    deltaInfos_append isDelta before x (inside ++ after)
  rw [parseLoop_append] at hparse
  refine ⟨front, _, _, _, (if_pos hints).trans (congrArg some hparse), hfront,
    length_parseLoop _ _ _, ?_, (length_encodeLoop 0 _).symm⟩
  have hfirst : valOf isDelta 0 x = x := by
    unfold valOf
    split
    · rw [sub32_of_le (Nat.zero_le x) hx, Nat.sub_zero]
    · rfl
  have hlength : (encodeArray isDelta (x :: inside)).1.length =
      encodeLengthLoop isDelta 0 (x :: inside) := length_encodeLoop 0 _
  rw [hlength, encodeLengthLoop, hfirst, sum_deltaBits_parseLoop,
    encodeLengthLoop_next 0 prev x inside]

/-- The block of 300 and 70000. -/
theorem parseEncode_prices_two :
    ∃ front info middle back,
      parseEncode true [3, 300, 70000, 70010] = some (front ++ info :: (middle ++ back)) ∧
      front.length = 1 ∧ middle.length = 1 ∧
      (encodeArray true [300, 70000]).1.length =
        info.valBits + (middle.map DeltaInfo.deltaBits).sum ∧
      info.totalBits = (encodeArray true [3, 300]).1.length :=
  parseEncode_prices true [3] (by decide) [70000] [70010] (by decide)

end VarintCodec

end Vend
