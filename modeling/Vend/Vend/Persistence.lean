import Vend.Encode.BFilterEncode
import Vend.Encode.DeltaSIMDUpdate
import Vend.Encode.Footprint
import Vend.Lib.DecimalText
import Vend.Vend.BloomVend
import Vend.Vend.DirSIMDVend
import Vend.Vend.DirectedHybVend
import Vend.Vend.HybridVend
import Vend.Vend.RangeCompVend

/-! # Encodings on disk

    `EncodePersistent` writes the records as text, one line for each vertex: the id and
    the words of its record, most significant byte first. `LoadFromDb` reads the lines
    back into a new encoder. The directed encoders do so with two files, and the bloom
    filters write one row of numbers.

    `persistent_restores` is the round trip: every byte of every record is restored, but an
    answer only when it does not depend on what stands behind the records. That is not
    written, and a fresh encoder has other memory there. Assertions that fail, accesses out
    of bounds and numbers that cannot be read are `none`.
-/

namespace Vend

open DecimalText

/-! ## Section 1: Model -/

namespace BitSetSIMD

/-- `Dump()`: the shifts promote to `int`, and the sum is kept as `uint32_t`. -/
def dump (bs : BitSetSIMD) : Option (List Nat) :=
  if bs.data.length % 4 = 0 then
    some ((List.range (bs.data.length / 4)).map fun i =>
      ((bs.byte (4 * i)).toNat <<< 24 + (bs.byte (4 * i + 1)).toNat <<< 16 +
        (bs.byte (4 * i + 2)).toNat <<< 8 + (bs.byte (4 * i + 3)).toNat) % 2 ^ 32)
  else none

/-- The body of the loop of `BlockSet` over words. -/
def setWord (bs : BitSetSIMD) (i word : Nat) : BitSetSIMD :=
  let bs := bs.setByte (4 * i + 3) (BitVec.ofNat 8 (word &&& 0x000000ff))
  let bs := bs.setByte (4 * i + 2) (BitVec.ofNat 8 ((word &&& 0x0000ff00) >>> 8))
  let bs := bs.setByte (4 * i + 1) (BitVec.ofNat 8 ((word &&& 0x00ff0000) >>> 16))
  bs.setByte (4 * i) (BitVec.ofNat 8 ((word &&& 0xff000000) >>> 24))

/-- `BlockSet(const std::vector<uint32_t> &encode)`. -/
def blockSetWords (bs : BitSetSIMD) (encode : List Nat) : Option BitSetSIMD :=
  if encode.length * 4 = bs.data.length then
    some ((List.range encode.length).foldl (fun bs i => bs.setWord i (encode.getD i 0)) bs)
  else none

end BitSetSIMD

namespace EncodeBitSet

/-- The line of one vertex. -/
def line (vertex : Nat) (encode : List Nat) : List Char := insert vertex ++ '\t' :: row encode

/-- `EncodePersistent(file_path)`: what the file holds afterwards. -/
def encodePersistent (c : Config) (encodes : Records) : Option (List Char) := do
  let lines ← (List.range' 1 c.vertexSize).mapM fun i => do
    let bitset ← encodes[i]?
    let encode ← bitset.dump
    return line i encode ++ ['\n']
  return lines.flatten

/-- The body of the loop of `LoadFromDb` over the lines. -/
def loadLine (encodes : Records) (line : List Char) : Option Records := do
  -- `iss >> key`, and the words of the record behind it
  let (key, rest) ← extract (2 ^ 32) line
  let bitset ← encodes[key]?
  let bitset ← bitset.blockSetWords (extractAll (2 ^ 32) rest)
  return encodes.set key bitset

/-- `LoadFromDb(file_path)`. -/
def loadFromDb (file : List Char) (encodes : Records) : Option Records :=
  (lines file).foldlM loadLine encodes

/-- `encode_bitset_` and `in_bitset_`. -/
structure Sides where
  encodeBitset : Records
  inBitset : Records

/-- `EncodePersistent(file_path, out)`. -/
def encodePersistentSide (c : Config) (encodes : Sides) (out : Bool) : Option (List Char) :=
  if out then encodePersistent c encodes.encodeBitset else encodePersistent c encodes.inBitset

/-- `LoadFromDb(file_path, out)`. -/
def loadFromDbSide (file : List Char) (out : Bool) (encodes : Sides) : Option Sides :=
  if out then (loadFromDb file encodes.encodeBitset).map fun rs => { encodes with encodeBitset := rs }
  else (loadFromDb file encodes.inBitset).map fun rs => { encodes with inBitset := rs }

end EncodeBitSet

namespace SIMDEncode

/-- `EncodePersistent(file_path)`: the same loop as in `EncodeBitSet`. -/
def encodePersistent (c : Config) (encodes : Records) : Option (List Char) :=
  EncodeBitSet.encodePersistent c encodes

/-- `LoadFromDb(file_path)`: the same loop as in `EncodeBitSet`. -/
def loadFromDb (file : List Char) (encodes : Records) : Option Records :=
  EncodeBitSet.loadFromDb file encodes

/-- `EncodePersistent(file_path, out)`: the same as in `EncodeBitSet`. -/
def encodePersistentSide (c : Config) (encodes : EncodeBitSet.Sides) (out : Bool) :
    Option (List Char) :=
  EncodeBitSet.encodePersistentSide c encodes out

/-- `LoadFromDb(file_path, out)`: the same as in `EncodeBitSet`. -/
def loadFromDbSide (file : List Char) (out : Bool) (encodes : EncodeBitSet.Sides) :
    Option EncodeBitSet.Sides :=
  EncodeBitSet.loadFromDbSide file out encodes

end SIMDEncode

namespace BFilterBitEncode

/-- `EncodePersistent(file_path)`. -/
def encodePersistent (c : Config) (encode : BitSetSIMD) : Option (List Char) := do
  let hashKey ← encode.dump
  let keys ← (List.range (hashSize c / 32)).mapM fun i => hashKey[i]?
  return row keys

/-- `LoadFromDb(file_path)`. -/
def loadFromDb (c : Config) (file : List Char) (encode : BitSetSIMD) : Option BitSetSIMD := do
  let hashKey ← extractN (2 ^ 32) (hashSize c / 32) file
  encode.blockSetWords hashKey

end BFilterBitEncode

namespace BFilterIntEncode

/-- `EncodePersistent(file_path)`. -/
def encodePersistent (c : Config) (encode : List Nat) : Option (List Char) := do
  let vals ← (List.range (hashSize c)).mapM fun i => encode[i]?
  return row vals

/-- `LoadFromDb(file_path)`: the numbers are read into `encode_[0 ..]`. -/
def loadFromDb (c : Config) (file : List Char) (encode : List Nat) : Option (List Nat) := do
  let vals ← extractN (2 ^ 32) (hashSize c) file
  -- a number read behind the array has no defined result
  guard (hashSize c ≤ encode.length)
  return vals ++ encode.drop (hashSize c)

end BFilterIntEncode

/-! ## Section 2: Words of a record -/

namespace BitSetSIMD

/-- Word `i` of a record, most significant byte first. -/
def wordAt (bs : BitSetSIMD) (i : Nat) : Nat :=
  ((bs.byte (4 * i)).toNat <<< 24 + (bs.byte (4 * i + 1)).toNat <<< 16 +
    (bs.byte (4 * i + 2)).toNat <<< 8 + (bs.byte (4 * i + 3)).toNat) % 2 ^ 32

theorem dump_eq {bs : BitSetSIMD} (hlen : bs.data.length % 4 = 0) :
    bs.dump = some ((List.range (bs.data.length / 4)).map bs.wordAt) := by
  rw [dump, if_pos hlen]
  rfl

theorem wordAt_lt (bs : BitSetSIMD) (i : Nat) : bs.wordAt i < 2 ^ 32 := Nat.mod_lt _ (by decide)

/-- The masks and shifts of `BlockSet` take a word apart again. -/
theorem bytes_wordAt (bs : BitSetSIMD) (i : Nat) :
    BitVec.ofNat 8 (bs.wordAt i &&& 0x000000ff) = bs.byte (4 * i + 3) ∧
    BitVec.ofNat 8 ((bs.wordAt i &&& 0x0000ff00) >>> 8) = bs.byte (4 * i + 2) ∧
    BitVec.ofNat 8 ((bs.wordAt i &&& 0x00ff0000) >>> 16) = bs.byte (4 * i + 1) ∧
    BitVec.ofNat 8 ((bs.wordAt i &&& 0xff000000) >>> 24) = bs.byte (4 * i) := by
  have h₀ := (bs.byte (4 * i)).isLt
  have h₁ := (bs.byte (4 * i + 1)).isLt
  have h₂ := (bs.byte (4 * i + 2)).isLt
  have h₃ := (bs.byte (4 * i + 3)).isLt
  -- four bytes fill the word, so the sum does not wrap around
  have hword : bs.wordAt i = (bs.byte (4 * i)).toNat * 2 ^ 24 +
      (bs.byte (4 * i + 1)).toNat * 2 ^ 16 + (bs.byte (4 * i + 2)).toNat * 2 ^ 8 +
      (bs.byte (4 * i + 3)).toNat := by
    simp only [wordAt, Nat.shiftLeft_eq]
    omega
  have hmask : ∀ n : Nat, n &&& 0xff = n % 256 := fun n => Nat.and_two_pow_sub_one_eq_mod n 8
  -- a mask of one byte, moved down, cuts that byte out
  have hshift : ∀ n k : Nat, (n &&& 0xff <<< k) >>> k = n / 2 ^ k % 256 := by
    intro n k
    rw [Nat.shiftRight_and_distrib, Nat.shiftLeft_shiftRight, hmask, Nat.shiftRight_eq_div_pow]
  have hb₂ := hshift (bs.wordAt i) 8
  have hb₁ := hshift (bs.wordAt i) 16
  have hb₀ := hshift (bs.wordAt i) 24
  have hofNat : ∀ n, (BitVec.ofNat 8 n).toNat = n % 2 ^ 8 := fun n => BitVec.toNat_ofNat n 8
  refine ⟨?_, ?_, ?_, ?_⟩ <;> apply BitVec.eq_of_toNat_eq <;> rw [hofNat]
  · rw [hmask, hword]
    omega
  · rw [show (0x0000ff00 : Nat) = 0xff <<< 8 from rfl, hb₂, hword]
    omega
  · rw [show (0x00ff0000 : Nat) = 0xff <<< 16 from rfl, hb₁, hword]
    omega
  · rw [show (0xff000000 : Nat) = 0xff <<< 24 from rfl, hb₀, hword]
    omega

@[simp] theorem length_setWord (bs : BitSetSIMD) (i word : Nat) :
    (bs.setWord i word).data.length = bs.data.length := by
  simp [setWord]

/-- Writing a word of `bs` makes the four bytes those of `bs`. -/
theorem byte_setWord_wordAt (bs bs' : BitSetSIMD) {i : Nat} (hi : 4 * i + 3 < bs'.data.length)
    (p : Nat) : (bs'.setWord i (bs.wordAt i)).byte p =
      if 4 * i ≤ p ∧ p < 4 * i + 4 then bs.byte p else bs'.byte p := by
  obtain ⟨h₃, h₂, h₁, h₀⟩ := bytes_wordAt bs i
  simp only [setWord, h₀, h₁, h₂, h₃]
  rw [byte_setByte _ _ (by simp; omega), byte_setByte _ _ (by simp; omega),
    byte_setByte _ _ (by simp; omega), byte_setByte _ _ hi]
  split
  next hp => rw [hp, if_pos (by omega)]
  next hp₀ =>
    split
    next hp => rw [hp, if_pos (by omega)]
    next hp₁ =>
      split
      next hp => rw [hp, if_pos (by omega)]
      next hp₂ =>
        split
        next hp => rw [hp, if_pos (by omega)]
        next hp₃ => rw [if_neg (by omega)]

/-- The loop over the words of `bs` copies `bs`. -/
theorem foldl_setWord (bs bs' : BitSetSIMD) (n : Nat) (hn : 4 * n ≤ bs'.data.length) :
    ((List.range n).foldl (fun bs' i => bs'.setWord i (bs.wordAt i)) bs').data.length =
      bs'.data.length ∧
    ∀ p, ((List.range n).foldl (fun bs' i => bs'.setWord i (bs.wordAt i)) bs').byte p =
      if p < 4 * n then bs.byte p else bs'.byte p := by
  induction n with
  | zero => simp
  | succ n ih =>
    -- the first `n` words are copied; word `n` gets its four bytes
    obtain ⟨hlen, hbyte⟩ := ih (by omega)
    rw [List.range_succ, List.foldl_append]
    simp only [List.foldl_cons, List.foldl_nil]
    refine ⟨by rw [length_setWord, hlen], ?_⟩
    intro p
    rw [byte_setWord_wordAt _ _ (by rw [hlen]; omega), hbyte]
    split
    next hp => rw [if_pos (by omega)]
    next hp =>
      split
      next hlt => rw [if_pos (by omega)]
      next hge => rw [if_neg (by omega)]

/-- A record that is loaded with what another one of the same size dumped becomes that
    record. -/
theorem blockSetWords_dump {bs bs' : BitSetSIMD} (hlen : bs.data.length % 4 = 0)
    (hsame : bs'.data.length = bs.data.length) :
    bs'.blockSetWords ((List.range (bs.data.length / 4)).map bs.wordAt) = some bs := by
  have hlen' : ((List.range (bs.data.length / 4)).map bs.wordAt).length = bs.data.length / 4 := by
    simp
  rw [blockSetWords, if_pos (by rw [hlen']; omega), hlen', Option.some.injEq]
  -- the loop looks the words up that `Dump` has made of `bs`
  have hfold : (List.range (bs.data.length / 4)).foldl (fun bs' i =>
        bs'.setWord i (((List.range (bs.data.length / 4)).map bs.wordAt).getD i 0)) bs' =
      (List.range (bs.data.length / 4)).foldl (fun bs' i => bs'.setWord i (bs.wordAt i)) bs' := by
    apply List.foldl_ext
    intro bs'' i hi
    rw [List.getD_eq_getElem _ _ (by simpa using hi)]
    simp
  rw [hfold]
  obtain ⟨hcount, hbyte⟩ := foldl_setWord bs bs' (bs.data.length / 4) (by omega)
  generalize (List.range (bs.data.length / 4)).foldl (fun bs' i => bs'.setWord i (bs.wordAt i)) bs'
    = result at hcount hbyte
  -- every byte is one of the copied ones
  have hdata : result.data = bs.data := by
    apply List.ext_getElem
    · omega
    · intro p h₁ h₂
      have hp := hbyte p
      rw [if_pos (by omega)] at hp
      rw [byte, byte, List.getD_eq_getElem _ _ h₁, List.getD_eq_getElem _ _ h₂] at hp
      exact hp
  cases result
  cases bs
  exact congrArg BitSetSIMD.mk hdata

end BitSetSIMD

/-! ## Section 3: Files -/

theorem mapM_eq_some {α β : Type} {f : α → Option β} {g : α → β} {l : List α}
    (h : ∀ a ∈ l, f a = some (g a)) : l.mapM f = some (l.map g) := by
  induction l with
  | nil => rfl
  | cons a l ih =>
    rw [List.mapM_cons, h a List.mem_cons_self, ih fun b hb => h b (List.mem_cons_of_mem a hb)]
    rfl

/-- The records of an encoder. The constructor allocates `VERTEX_SIZE + 1` of them, a
    `uint32_t` sum, and there is one for every vertex. -/
structure Allocated (c : Config) (encodes : Records) : Prop where
  length : encodes.length = c.vertexIdUpper
  holds : c.vertexSize < encodes.length
  record : ∀ bitset ∈ encodes, bitset.data.length = c.perEncodeBitSize / 8

theorem Allocated.vertexSize_lt {c : Config} {encodes : Records} (h : Allocated c encodes) :
    c.vertexSize + 1 < 2 ^ 32 := by
  have h₁ := h.holds
  have h₂ := c.vertexSize_lt
  rw [h.length, Config.vertexIdUpper] at h₁
  -- a sum that wraps around allocates nothing
  rcases Nat.lt_or_ge (c.vertexSize + 1) (2 ^ 32) with hlt | hge
  · exact hlt
  · rw [show c.vertexSize + 1 = 2 ^ 32 by omega, Nat.mod_self] at h₁
    omega

theorem allocated_fresh {c : Config} (hsize : c.vertexSize + 1 < 2 ^ 32) :
    Allocated c (Records.fresh c) := by
  refine ⟨?_, by simp, ?_⟩
  · rw [Records.length_fresh, Config.vertexIdUpper, Nat.mod_eq_of_lt hsize]
  · intro bitset hmem
    rw [List.eq_of_mem_replicate hmem]
    exact BitSetSIMD.length_ofBitSize _

theorem Allocated.getElem? {c : Config} {encodes : Records} (h : Allocated c encodes) {v : Nat}
    (hv : v ≤ c.vertexSize) :
    encodes[v]? = some (encodes.record v) ∧ (encodes.record v).data.length % 4 = 0 ∧
      (encodes.record v).data.length = c.perEncodeBitSize / 8 := by
  have hlt : v < encodes.length := by
    have := h.holds
    omega
  have hget : encodes.record v = encodes[v] := List.getD_eq_getElem _ _ hlt
  have hlen := h.record encodes[v] (List.getElem_mem hlt)
  refine ⟨by rw [hget, List.getElem?_eq_getElem hlt], ?_, by rw [hget, hlen]⟩
  rw [hget, hlen, Config.perEncodeBitSize]
  omega

namespace EncodeBitSet

/-- The lines of a file are those that were written to it. -/
theorem lines_flatten {ls : List (List Char)} (hls : ∀ l ∈ ls, '\n' ∉ l) :
    lines (ls.map (· ++ ['\n'])).flatten = ls := by
  induction ls with
  | nil => rfl
  | cons l ls ih =>
    rw [List.map_cons, List.flatten_cons, List.append_assoc]
    exact (lines_append (hls l (by simp)) _).trans
      (congrArg (l :: ·) (ih fun l' hl' => hls l' (by simp [hl'])))

theorem newline_not_mem_line (vertex : Nat) (encode : List Nat) : '\n' ∉ line vertex encode := by
  intro hmem
  rcases List.mem_append.mp hmem with h | h
  · exact not_mem_insert (by decide) h
  · rcases List.mem_cons.mp h with h | h
    · revert h
      decide
    · exact newline_not_mem_row encode h

/-- The words that `Dump` returns for a record. -/
def words (bitset : BitSetSIMD) : List Nat :=
  (List.range (bitset.data.length / 4)).map bitset.wordAt

/-- Reading the line of a record writes that record. -/
theorem loadLine_line {bitset old : BitSetSIMD} {encodes : Records} {vertex : Nat}
    (hvertex : vertex < 2 ^ 32) (hlen : bitset.data.length % 4 = 0)
    (hold : encodes[vertex]? = some old) (hsame : old.data.length = bitset.data.length) :
    loadLine encodes (line vertex (words bitset)) = some (encodes.set vertex bitset) := by
  have hwords : ∀ n ∈ words bitset, n < 2 ^ 32 := by
    intro n hn
    obtain ⟨i, -, rfl⟩ := List.mem_map.mp hn
    exact bitset.wordAt_lt i
  have hkey : extract (2 ^ 32) (line vertex (words bitset)) =
      some (vertex, '\t' :: row (words bitset)) := extract_insert hvertex (by decide) _
  have hset : old.blockSetWords (words bitset) = some bitset :=
    BitSetSIMD.blockSetWords_dump hlen hsame
  simp only [loadLine, hkey, hold, extractAll_row hwords, hset, Option.bind_eq_bind,
    Option.bind_some]
  rfl

section

variable {c : Config} {encodes : Records} (h : Allocated c encodes)
include h

/-- What `EncodePersistent` writes. -/
theorem encodePersistent_eq : encodePersistent c encodes =
    some (((List.range' 1 c.vertexSize).map fun i => line i (words (encodes.record i))).map
      (· ++ ['\n'])).flatten := by
  have hmap : (List.range' 1 c.vertexSize).mapM (fun i => do
      let bitset ← encodes[i]?
      let encode ← bitset.dump
      return line i encode ++ ['\n']) =
      some ((List.range' 1 c.vertexSize).map fun i =>
        line i (words (encodes.record i)) ++ ['\n']) := by
    apply mapM_eq_some
    intro i hi
    rw [List.mem_range'_1] at hi
    obtain ⟨hget, hlen, -⟩ := h.getElem? (show i ≤ c.vertexSize by omega)
    rw [hget, Option.bind_eq_bind, Option.bind_some, BitSetSIMD.dump_eq hlen]
    rfl
  rw [encodePersistent, hmap, List.map_map]
  rfl

omit h in
/-- Reading the lines of the vertices from `first` on writes their records. -/
theorem foldlM_loadLine (h : Allocated c encodes) (n first : Nat) {loaded : Records}
    (hloaded : Allocated c loaded) (hn : first + n = c.vertexSize + 1) :
    ∃ result, ((List.range' first n).map fun i => line i (words (encodes.record i))).foldlM
        loadLine loaded = some result ∧ Allocated c result ∧
      ∀ v, result.record v =
        if first ≤ v ∧ v ≤ c.vertexSize then encodes.record v else loaded.record v := by
  induction n generalizing first loaded with
  | zero =>
    refine ⟨loaded, rfl, hloaded, fun v => ?_⟩
    rw [if_neg (by omega)]
  | succ n ih =>
    obtain ⟨-, hlen, hbytes⟩ := h.getElem? (show first ≤ c.vertexSize by omega)
    obtain ⟨hget, -, hbytes'⟩ := hloaded.getElem? (show first ≤ c.vertexSize by omega)
    have hsize := h.vertexSize_lt
    have hload := loadLine_line (show first < 2 ^ 32 by omega) hlen hget (by omega)
    have hnext : Allocated c (loaded.set first (encodes.record first)) := by
      refine ⟨by rw [List.length_set, hloaded.length], by rw [List.length_set]; exact hloaded.holds,
        ?_⟩
      intro bitset hmem
      rcases List.mem_or_eq_of_mem_set hmem with hmem | rfl
      · exact hloaded.record bitset hmem
      · exact hbytes
    obtain ⟨result, hrun, hresult, hrecord⟩ := ih (first + 1) hnext (by omega)
    refine ⟨result, ?_, hresult, ?_⟩
    · rw [List.range'_succ, List.map_cons, List.foldlM_cons, hload]
      exact hrun
    · intro v
      rw [hrecord v]
      have hlt : first < loaded.length := by
        have := hloaded.holds
        omega
      have hset := Records.record_update loaded (fun _ => encodes.record first) hlt v
      rw [show Records.record (loaded.set first (encodes.record first)) v = _ from hset]
      by_cases hv : v = first
      · subst hv
        rw [if_neg (by omega), if_pos rfl, if_pos (by omega)]
      · by_cases hin : first + 1 ≤ v ∧ v ≤ c.vertexSize
        · rw [if_pos hin, if_pos (by omega)]
        · rw [if_neg hin, if_neg hv, if_neg (by omega)]

/-- Writing and loading restores every record. -/
theorem loadFromDb_encodePersistent {loaded : Records} (hloaded : Allocated c loaded) :
    ∃ file result, encodePersistent c encodes = some file ∧
      loadFromDb file loaded = some result ∧ Allocated c result ∧
      ∀ v, 1 ≤ v → v ≤ c.vertexSize → result.record v = encodes.record v := by
  obtain ⟨result, hrun, hresult, hrecord⟩ := foldlM_loadLine h c.vertexSize 1 hloaded
    (Nat.add_comm 1 c.vertexSize)
  refine ⟨_, result, encodePersistent_eq h, ?_, hresult, ?_⟩
  · rw [loadFromDb, lines_flatten]
    · exact hrun
    · intro l hl
      obtain ⟨i, -, rfl⟩ := List.mem_map.mp hl
      exact newline_not_mem_line _ _
  · intro v hv hv'
    rw [hrecord v, if_pos ⟨hv, hv'⟩]

end

end EncodeBitSet

/-- The bits of the whole filter are restored. -/
theorem BFilterBitEncode.loadFromDb_encodePersistent {c : Config} {encode old : BitSetSIMD}
    (hlen : encode.data.length = hashSize c / 8) (hold : old.data.length = hashSize c / 8) :
    ∃ file, encodePersistent c encode = some file ∧ loadFromDb c file old = some encode := by
  have hmod : hashSize c % 32 = 0 := by
    unfold hashSize
    omega
  have hfour : encode.data.length % 4 = 0 := by omega
  have hcount : hashSize c / 32 = encode.data.length / 4 := by omega
  have hkeys : (List.range (hashSize c / 32)).mapM (fun i =>
      ((List.range (encode.data.length / 4)).map encode.wordAt)[i]?) =
      some ((List.range (encode.data.length / 4)).map encode.wordAt) := by
    rw [hcount]
    apply mapM_eq_some
    intro i hi
    rw [List.getElem?_map, List.getElem?_range (List.mem_range.mp hi)]
    rfl
  have hlt : ∀ n ∈ (List.range (encode.data.length / 4)).map encode.wordAt, n < 2 ^ 32 := by
    intro n hn
    obtain ⟨i, -, rfl⟩ := List.mem_map.mp hn
    exact encode.wordAt_lt i
  have hread := (extractN_row _ hlt (c := ' ') (by decide)).1
  rw [List.length_map, List.length_range] at hread
  refine ⟨row ((List.range (encode.data.length / 4)).map encode.wordAt), ?_, ?_⟩
  · simp only [encodePersistent, BitSetSIMD.dump_eq hfour, Option.bind_eq_bind, Option.bind_some,
      hkeys]
    rfl
  · rw [loadFromDb, hcount, hread, Option.bind_eq_bind, Option.bind_some]
    exact BitSetSIMD.blockSetWords_dump hfour (by omega)

/-- The counters of the whole filter are restored. -/
theorem BFilterIntEncode.loadFromDb_encodePersistent {c : Config} {encode old : List Nat}
    (hlen : encode.length = hashSize c) (hlt : ∀ n ∈ encode, n < 2 ^ 32)
    (hold : old.length = hashSize c) :
    ∃ file, encodePersistent c encode = some file ∧ loadFromDb c file old = some encode := by
  have hvals : (List.range (hashSize c)).mapM (fun i => encode[i]?) = some encode := by
    have hmap : (List.range (hashSize c)).mapM (fun i => encode[i]?) =
        some ((List.range (hashSize c)).map fun i => encode.getD i 0) := by
      apply mapM_eq_some
      intro i hi
      have hi' : i < encode.length := by
        rw [hlen]
        exact List.mem_range.mp hi
      rw [List.getElem?_eq_getElem hi', List.getD_eq_getElem _ _ hi']
    rw [hmap, Option.some.injEq]
    apply List.ext_getElem
    · simp [hlen]
    · intro i h₁ h₂
      simp [List.getD_eq_getElem?_getD, h₂]
  have hread := (extractN_row encode hlt (c := ' ') (by decide)).1
  rw [hlen] at hread
  refine ⟨row encode, ?_, ?_⟩
  · rw [encodePersistent, hvals]
    rfl
  · have hle : hashSize c ≤ old.length := Nat.le_of_eq hold.symm
    have hdrop : old.drop (hashSize c) = [] := List.drop_eq_nil_of_le (Nat.le_of_eq hold)
    simp only [loadFromDb, hread, Option.bind_eq_bind, Option.bind_some, guard, if_pos hle,
      Option.pure_def, hdrop, List.append_nil]

/-! ## Section 4: What an answer depends on -/

/-- The encoders that keep a record for each vertex. -/
inductive Encoder where
  | bitHash
  | range
  | rangeComp (method : CompMethod)
  | bloom
  | count
  | hybrid (hsimd : Bool)
  | delta (ver : DeltaSIMDCodec.Version)
  | deltaV3 (hsimd : Bool)

/-- `NEpairTest(vertex1, vertex2)` of an encoder. -/
def Encoder.nePairTest (c : Config) : Encoder → Records → Nat → Nat → Option PairType
  | .bitHash, rs, u, v => some (BitHashEncode.nePairTest c rs u v)
  | .range, rs, u, v => some (RangeEncode.nePairTest c rs u v)
  | .rangeComp method, rs, u, v =>
    RangeCompVend.nePairTestAt (RangeCompEncode.codec c method) rs u v
  | .bloom, rs, u, v => some (BloomEncode.nePairTest c rs u v)
  | .count, rs, u, v => some (CountEncode.nePairTest c rs u v)
  | .hybrid hsimd, rs, u, v => some (HybridEncode.nePairTest c hsimd rs u v)
  | .delta ver, rs, u, v =>
    some (DeltaSIMDEncode.nePairTest c (DeltaSIMDEncode.codecOf ver) (fun _ _ => 0) rs u v)
  | .deltaV3 hsimd, rs, u, v =>
    some (DeltaSIMDEncode.nePairTest c (DeltaSIMDEncodeV3.codec hsimd) (fun _ _ => 0) rs u v)

/-- The encoders that keep an out-record and an in-record for each vertex. -/
inductive DirectedEncoder where
  | hybrid (hsimd : Bool)
  | simd

/-- `NEpairTest(vertex1, vertex2)` of a directed encoder. -/
def DirectedEncoder.nePairTest (c : Config) : DirectedEncoder → EncodeBitSet.Sides → Nat → Nat →
    PairType
  | .hybrid hsimd, s, u, v => DirectedHybrid.nePairTest c hsimd ⟨s.encodeBitset, s.inBitset⟩ u v
  | .simd, s, u, v =>
    DirectedSIMD.nePairTest c (fun _ _ _ => 0) ⟨s.encodeBitset, s.inBitset⟩ u v

/-- Both sides with the bytes that stand behind each record. -/
def EncodeBitSet.Sides.withBehind (s : EncodeBitSet.Sides) (behind : Bool → Nat → List Byte) :
    EncodeBitSet.Sides :=
  ⟨s.encodeBitset.withBehind (behind true), s.inBitset.withBehind (behind false)⟩

/-- The answer does not depend on what stands behind the records. -/
def Encoder.Settled (c : Config) (e : Encoder) (encodes : Records) (u v : Nat) : Prop :=
  ∀ behind, e.nePairTest c (encodes.withBehind behind) u v = e.nePairTest c encodes u v

/-- The same for a directed encoder. -/
def DirectedEncoder.Settled (c : Config) (e : DirectedEncoder) (encodes : EncodeBitSet.Sides)
    (u v : Nat) : Prop :=
  ∀ behind, e.nePairTest c (encodes.withBehind behind) u v = e.nePairTest c encodes u v

/-- What a query of an encoder compares is in the two records. -/
def Encoder.ReadsInside (c : Config) (encodes : Records) (u v : Nat) : Encoder → Prop
  | .bitHash => True
  | .range | .bloom => 2 ≤ c.kSize
  | .rangeComp method =>
    RangeCompEncode.FindsInside c (encodes.record u) v method ∧
      RangeCompEncode.FindsInside c (encodes.record v) u method
  | .count => 2 ≤ c.kSize ∧ 0 < c.elementSize ∧ c.elementSize ≤ 32
  | .hybrid _ =>
    0 < c.vertexBitSize ∧ HybridEncode.BlockInside c (encodes.record u) ∧
      HybridEncode.BlockInside c (encodes.record v)
  | .delta _ =>
    DeltaSIMDEncode.Contained false (encodes.record u) ∧
      DeltaSIMDEncode.Contained false (encodes.record v)
  | .deltaV3 hsimd =>
    DeltaSIMDEncode.Contained hsimd (encodes.record u) ∧
      DeltaSIMDEncode.Contained hsimd (encodes.record v)

/-- A query of a directed encoder reads the out-record of the first vertex and the in-record
    of the second. -/
def DirectedEncoder.ReadsInside (c : Config) (encodes : EncodeBitSet.Sides) (u v : Nat) :
    DirectedEncoder → Prop
  | .hybrid _ =>
    0 < c.vertexBitSize ∧ HybridEncode.BlockInside c (encodes.encodeBitset.record u) ∧
      HybridEncode.BlockInside c (encodes.inBitset.record v)
  | .simd =>
    DeltaSIMDEncode.Contained false (encodes.encodeBitset.record u) ∧
      DeltaSIMDEncode.Contained false (encodes.inBitset.record v)

/-! An answer only depends on the records of the two vertices. -/

section

variable {rs rs' : Records} {u v : Nat} (hu : rs.record u = rs'.record u)
variable (hv : rs.record v = rs'.record v)
include hu hv

theorem RangeEncode.nePairTest_congr (c : Config) : nePairTest c rs u v = nePairTest c rs' u v := by
  simp only [nePairTest_eq_min, nonNeighborTest, hu, hv]

theorem BloomEncode.nePairTest_congr (c : Config) : nePairTest c rs u v = nePairTest c rs' u v := by
  simp only [nePairTest, nonNeighborTest, hu, hv]

theorem HybridEncode.nePairTest_congr (c : Config) (hsimd : Bool) :
    nePairTest c hsimd rs u v = nePairTest c hsimd rs' u v := by
  simp only [nePairTest_eq_combine, isDecodable, nonNeighborTest, hu, hv]

theorem DeltaSIMDEncode.nePairTest_congr (c : Config) (codec : Codec) (tail : Nat → Nat → Byte) :
    nePairTest c codec tail rs u v = nePairTest c codec tail rs' u v := by
  simp only [nePairTest_eq_combine, isDecodable, hu, hv]

theorem Encoder.nePairTest_congr (c : Config) (e : Encoder) :
    e.nePairTest c rs u v = e.nePairTest c rs' u v := by
  cases e with
  | bitHash =>
    simp only [nePairTest, BitHashEncode.nePairTest, BitHashEncode.nonNeighborTest, hu, hv]
  | range => exact congrArg some (RangeEncode.nePairTest_congr hu hv c)
  | rangeComp method =>
    simp only [nePairTest, RangeCompVend.nePairTestAt, RangeCompEncode.nonNeighborTestAt, hu, hv]
  | bloom => exact congrArg some (BloomEncode.nePairTest_congr hu hv c)
  | count => simp only [nePairTest, CountEncode.nePairTest, CountEncode.nonNeighborTest, hu, hv]
  | hybrid hsimd => exact congrArg some (HybridEncode.nePairTest_congr hu hv c hsimd)
  | delta ver => exact congrArg some (DeltaSIMDEncode.nePairTest_congr hu hv c _ _)
  | deltaV3 hsimd => exact congrArg some (DeltaSIMDEncode.nePairTest_congr hu hv c _ _)

end

theorem DirectedEncoder.nePairTest_congr (c : Config) (e : DirectedEncoder)
    {s s' : EncodeBitSet.Sides} {u v : Nat}
    (hout : ∀ w, w = u ∨ w = v → s.encodeBitset.record w = s'.encodeBitset.record w)
    (hin : ∀ w, w = u ∨ w = v → s.inBitset.record w = s'.inBitset.record w) :
    e.nePairTest c s u v = e.nePairTest c s' u v := by
  have hu := hout u (Or.inl rfl)
  have hv := hout v (Or.inr rfl)
  have hu' := hin u (Or.inl rfl)
  have hv' := hin v (Or.inr rfl)
  cases e with
  | hybrid hsimd =>
    simp only [nePairTest, DirectedHybrid.nePairTest, DirectedHybrid.isDecodable,
      DirectedHybrid.nonNeighborTest, hu, hv, hu', hv']
  | simd =>
    simp only [nePairTest, DirectedSIMD.nePairTest, DirectedSIMD.isDecodable,
      DirectedSIMD.nonNeighborTest, hu, hv, hu', hv']

theorem Allocated.isRecord {c : Config} {encodes : Records} (h : Allocated c encodes) {v : Nat}
    (hv : v ≤ c.vertexSize) : IsRecord c (encodes.record v) := by
  obtain ⟨-, -, hlen⟩ := h.getElem? hv
  unfold IsRecord BitSetSIMD.bitLength
  rw [hlen]
  unfold Config.perEncodeBitSize
  omega

theorem Allocated.record_withBehind {c : Config} {encodes : Records} (h : Allocated c encodes)
    {v : Nat} (hv : v ≤ c.vertexSize) (behind : Nat → List Byte) :
    (encodes.withBehind behind).record v = (encodes.record v).withBehind (behind v) := by
  have hlt := h.holds
  exact Records.record_withBehind (by omega) behind

section

variable {c : Config} (hper : c.perEncodeBitSize < 2 ^ 32) {u v : Nat} (hu : u ≤ c.vertexSize)
variable (hv : v ≤ c.vertexSize)
include hper hu hv

/-- An answer that is found in the records is the same whatever stands behind them. -/
theorem Encoder.settled_of_readsInside {encodes : Records} (h : Allocated c encodes)
    {e : Encoder} (hin : e.ReadsInside c encodes u v) : e.Settled c encodes u v := by
  intro behind
  have hrec := h.isRecord hu
  have hrec' := h.isRecord hv
  have hb := h.record_withBehind hu behind
  have hb' := h.record_withBehind hv behind
  cases e with
  | bitHash =>
    simp only [nePairTest, BitHashEncode.nePairTest, BitHashEncode.nonNeighborTest, hb, hb',
      BitHashEncode.isOne_hash_withBehind hrec, BitHashEncode.isOne_hash_withBehind hrec']
  | range =>
    simp only [nePairTest, RangeEncode.nePairTest_eq_min, RangeEncode.nonNeighborTest, hb, hb',
      RangeEncode.testBits_withBehind hrec _ hin, RangeEncode.testBits_withBehind hrec' _ hin]
  | rangeComp method =>
    simp only [nePairTest, RangeCompVend.nePairTestAt, RangeCompEncode.nonNeighborTestAt, hb, hb',
      RangeCompEncode.testBitsAt_withBehind hrec _ hin.1,
      RangeCompEncode.testBitsAt_withBehind hrec' _ hin.2]
  | bloom =>
    simp only [nePairTest, BloomEncode.nePairTest, BloomEncode.nonNeighborTest, hb, hb',
      BloomEncode.testBits_withBehind hrec _ hin, BloomEncode.testBits_withBehind hrec' _ hin]
  | count =>
    obtain ⟨hk, hpos, hle⟩ := hin
    simp only [nePairTest, CountEncode.nePairTest, CountEncode.nonNeighborTest, hb, hb',
      CountEncode.testBits_withBehind hrec _ hk hpos hle,
      CountEncode.testBits_withBehind hrec' _ hk hpos hle]
  | hybrid hsimd =>
    obtain ⟨hbits, hblock, hblock'⟩ := hin
    have hpos : 0 < c.perEncodeBitSize := Nat.lt_of_lt_of_le (by decide) c.perEncodeBitSize_ge
    have hflag := isOne_withBehind_of_lt hrec (behind u) hpos
    have hflag' := isOne_withBehind_of_lt hrec' (behind v) hpos
    simp only [nePairTest, HybridEncode.nePairTest_eq_combine, HybridEncode.isDecodable,
      HybridEncode.nonNeighborTest, hb, hb', hflag, hflag',
      HybridEncode.testBits_withBehind hrec _ hper hbits hblock,
      HybridEncode.testBits_withBehind hrec' _ hper hbits hblock']
  | delta ver =>
    simp only [nePairTest, DeltaSIMDEncode.nePairTest_eq_combine, DeltaSIMDEncode.isDecodable, hb,
      hb', (DeltaSIMDEncode.header_withBehind hrec _).1,
      (DeltaSIMDEncode.header_withBehind hrec' _).1,
      DeltaSIMDEncode.testBits_withBehind hrec _ hper (DeltaSIMDEncode.reads_codecOf ver) hin.1,
      DeltaSIMDEncode.testBits_withBehind hrec' _ hper (DeltaSIMDEncode.reads_codecOf ver) hin.2]
  | deltaV3 hsimd =>
    have hcodec : (DeltaSIMDEncodeV3.codec hsimd).Reads hsimd := by
      cases hsimd
      · exact DeltaSIMDEncode.reads_codecV3
      · exact DeltaSIMDEncode.reads_codecV3SIMD
    simp only [nePairTest, DeltaSIMDEncode.nePairTest_eq_combine, DeltaSIMDEncode.isDecodable, hb,
      hb', (DeltaSIMDEncode.header_withBehind hrec _).1,
      (DeltaSIMDEncode.header_withBehind hrec' _).1,
      DeltaSIMDEncode.testBits_withBehind hrec _ hper hcodec hin.1,
      DeltaSIMDEncode.testBits_withBehind hrec' _ hper hcodec hin.2]

theorem DirectedEncoder.settled_of_readsInside {encodes : EncodeBitSet.Sides}
    (hout : Allocated c encodes.encodeBitset) (hin : Allocated c encodes.inBitset)
    {e : DirectedEncoder} (hreads : e.ReadsInside c encodes u v) : e.Settled c encodes u v := by
  intro behind
  have hrec := hout.isRecord hu
  have hrec' := hin.isRecord hv
  have hb := hout.record_withBehind hu (behind true)
  have hb' := hin.record_withBehind hv (behind false)
  have hpos : 0 < c.perEncodeBitSize := Nat.lt_of_lt_of_le (by decide) c.perEncodeBitSize_ge
  have hflag := isOne_withBehind_of_lt hrec (behind true u) hpos
  have hflag' := isOne_withBehind_of_lt hrec' (behind false v) hpos
  cases e with
  | hybrid hsimd =>
    obtain ⟨hbits, hblock, hblock'⟩ := hreads
    simp only [nePairTest, EncodeBitSet.Sides.withBehind, DirectedHybrid.nePairTest_eq_combine,
      DirectedHybrid.isDecodable, DirectedHybrid.nonNeighborTest, hb, hb', hflag, hflag',
      if_true, if_neg Bool.false_ne_true,
      HybridEncode.testBits_withBehind hrec _ hper hbits hblock,
      HybridEncode.testBits_withBehind hrec' _ hper hbits hblock']
  | simd =>
    have hcodec := DeltaSIMDEncode.reads_codecOf .v0
    -- the flag that a test asks for is the one of the other side
    have hother : ((encodes.inBitset.withBehind (behind false)).record u).isOne 0 =
        (encodes.inBitset.record u).isOne 0 := by
      rw [hin.record_withBehind hu]
      exact isOne_withBehind_of_lt (hin.isRecord hu) _ hpos
    have hother' : ((encodes.encodeBitset.withBehind (behind true)).record v).isOne 0 =
        (encodes.encodeBitset.record v).isOne 0 := by
      rw [hout.record_withBehind hv]
      exact isOne_withBehind_of_lt (hout.isRecord hv) _ hpos
    simp only [nePairTest, EncodeBitSet.Sides.withBehind, DirectedSIMD.nePairTest,
      DirectedSIMD.isDecodable, DirectedSIMD.nonNeighborTest, hother, hother', hb, hb', hflag,
      hflag', if_true, if_neg Bool.false_ne_true,
      DeltaSIMDEncode.findDecodable_withBehind hrec _ hcodec hreads.1,
      DeltaSIMDEncode.findDecodable_withBehind hrec' _ hcodec hreads.2,
      DeltaSIMDEncode.findNonDecodable_withBehind hrec _ hper hcodec hreads.1,
      DeltaSIMDEncode.findNonDecodable_withBehind hrec' _ hper hcodec hreads.2]

end

/-- What lies inside the records settles the answers, and `EncodeVertex` of `V0` to `V2` writes
    records of this kind. -/
structure SettledInside (c : Config) : Prop where
  single : ∀ encodes, Allocated c encodes → ∀ u ≤ c.vertexSize, ∀ v ≤ c.vertexSize,
    ∀ e : Encoder, e.ReadsInside c encodes u v → e.Settled c encodes u v
  directed : ∀ encodes : EncodeBitSet.Sides, Allocated c encodes.encodeBitset →
    Allocated c encodes.inBitset → ∀ u ≤ c.vertexSize, ∀ v ≤ c.vertexSize,
    ∀ e : DirectedEncoder, e.ReadsInside c encodes u v → e.Settled c encodes u v
  written : c.Narrow → ∀ ver ids, DeltaSIMDCodec.NonDecreasing ids →
    DeltaSIMDEncode.Contained false
      (DeltaSIMDEncode.encodeBits c ver ids (BitSetSIMD.ofBitSize c.perEncodeBitSize))

theorem settledInside {c : Config} (hper : c.perEncodeBitSize < 2 ^ 32) : SettledInside c where
  single _ h _ hu _ hv _ hin := Encoder.settled_of_readsInside hper hu hv h hin
  directed _ hout hin _ hu _ hv _ hreads :=
    DirectedEncoder.settled_of_readsInside hper hu hv hout hin hreads
  written hc ver _ h := DeltaSIMDEncode.contained_encodeBits hc ver h

/-! ## Section 5: The answers before and after -/

/-- The answer before is the answer after, whatever stands behind the records of either
    encoder. -/
def Encoder.SameAnswer (c : Config) (e : Encoder) (encodes loaded : Records) (u v : Nat) : Prop :=
  ∀ behind behind', e.nePairTest c (loaded.withBehind behind') u v =
    e.nePairTest c (encodes.withBehind behind) u v

/-- The same for a directed encoder. -/
def DirectedEncoder.SameAnswer (c : Config) (e : DirectedEncoder)
    (encodes loaded : EncodeBitSet.Sides) (u v : Nat) : Prop :=
  ∀ behind behind', e.nePairTest c (loaded.withBehind behind') u v =
    e.nePairTest c (encodes.withBehind behind) u v

/-- The records of the vertices are those of `encodes`, and the answers that stay the same are
    those that do not depend on what stands behind the records. -/
def Restores (c : Config) (encodes loaded : Records) : Prop :=
  (∀ v, 1 ≤ v → v ≤ c.vertexSize → loaded.record v = encodes.record v) ∧
  ∀ (e : Encoder) (u v : Nat), 1 ≤ u → u ≤ c.vertexSize → 1 ≤ v → v ≤ c.vertexSize →
    (e.SameAnswer c encodes loaded u v ↔ e.Settled c encodes u v)

/-- The same for the two sides of a directed encoder. -/
def RestoresSides (c : Config) (encodes loaded : EncodeBitSet.Sides) : Prop :=
  (∀ v, 1 ≤ v → v ≤ c.vertexSize →
    loaded.encodeBitset.record v = encodes.encodeBitset.record v ∧
    loaded.inBitset.record v = encodes.inBitset.record v) ∧
  ∀ (e : DirectedEncoder) (u v : Nat), 1 ≤ u → u ≤ c.vertexSize → 1 ≤ v → v ≤ c.vertexSize →
    (e.SameAnswer c encodes loaded u v ↔ e.Settled c encodes u v)

/-- What one pair of functions writes and loads into a fresh encoder is restored. -/
def RoundTrips (c : Config) (persistent : Records → Option (List Char))
    (load : List Char → Records → Option Records) : Prop :=
  ∀ encodes, Allocated c encodes → ∃ file loaded, persistent encodes = some file ∧
    load file (Records.fresh c) = some loaded ∧ Restores c encodes loaded

/-- The two-file form: the out-file is loaded first, then the in-file. -/
def RoundTripsSides (c : Config) (persistent : EncodeBitSet.Sides → Bool → Option (List Char))
    (load : List Char → Bool → EncodeBitSet.Sides → Option EncodeBitSet.Sides) : Prop :=
  ∀ encodes : EncodeBitSet.Sides, Allocated c encodes.encodeBitset → Allocated c encodes.inBitset →
    ∃ outFile inFile half loaded, persistent encodes true = some outFile ∧
      persistent encodes false = some inFile ∧
      load outFile true ⟨Records.fresh c, Records.fresh c⟩ = some half ∧
      load inFile false half = some loaded ∧ RestoresSides c encodes loaded

/-- What is the same in all memories is what it is with nothing behind the records. -/
theorem forall_eq_forall_iff {α β : Type} {f g : α → β} (a : α) (h : ∀ b, g b = f b) :
    (∀ b b', g b' = f b) ↔ ∀ b, f b = f a :=
  ⟨fun hall b => (h b).symm.trans (hall a b), fun hall b b' => by rw [h, hall b', hall b]⟩

theorem EncodeBitSet.roundTrips (c : Config) :
    RoundTrips c (encodePersistent c) loadFromDb := by
  intro encodes h
  obtain ⟨file, loaded, hfile, hload, hloaded, hrecord⟩ :=
    loadFromDb_encodePersistent h (allocated_fresh h.vertexSize_lt)
  refine ⟨file, loaded, hfile, hload, hrecord, ?_⟩
  intro e u v hu hu' hv hv'
  have hsettled := forall_eq_forall_iff (fun _ => [])
    (f := fun behind => e.nePairTest c (encodes.withBehind behind) u v)
    (g := fun behind => e.nePairTest c (loaded.withBehind behind) u v) ?_
  · simpa only [Encoder.SameAnswer, Encoder.Settled, Records.withBehind_nil] using hsettled
  · intro behind
    refine Encoder.nePairTest_congr ?_ ?_ c e
    · rw [hloaded.record_withBehind hu', h.record_withBehind hu', hrecord u hu hu']
    · rw [hloaded.record_withBehind hv', h.record_withBehind hv', hrecord v hv hv']

theorem EncodeBitSet.roundTripsSides (c : Config) :
    RoundTripsSides c (encodePersistentSide c) loadFromDbSide := by
  intro encodes hout hin
  obtain ⟨outFile, outSide, hfile, hload, hloaded, hrecord⟩ :=
    loadFromDb_encodePersistent hout (allocated_fresh hout.vertexSize_lt)
  obtain ⟨inFile, inSide, hfile', hload', hloaded', hrecord'⟩ :=
    loadFromDb_encodePersistent hin (allocated_fresh hin.vertexSize_lt)
  refine ⟨outFile, inFile, ⟨outSide, Records.fresh c⟩, ⟨outSide, inSide⟩, hfile, hfile', ?_, ?_,
    ?_, ?_⟩
  · rw [loadFromDbSide, if_pos rfl, hload]
    rfl
  · rw [loadFromDbSide, if_neg (by decide), hload']
    rfl
  · intro v hv hv'
    exact ⟨hrecord v hv hv', hrecord' v hv hv'⟩
  · intro e u v hu hu' hv hv'
    have hsettled := forall_eq_forall_iff (fun _ _ => [])
      (f := fun behind => e.nePairTest c (encodes.withBehind behind) u v)
      (g := fun behind => e.nePairTest c (Sides.withBehind ⟨outSide, inSide⟩ behind) u v) ?_
    · simpa only [DirectedEncoder.SameAnswer, DirectedEncoder.Settled, Sides.withBehind,
        Records.withBehind_nil] using hsettled
    · intro behind
      apply e.nePairTest_congr c
      · rintro w (rfl | rfl)
        · exact (hloaded.record_withBehind hu' _).trans
            (by rw [Sides.withBehind, hout.record_withBehind hu', hrecord w hu hu'])
        · exact (hloaded.record_withBehind hv' _).trans
            (by rw [Sides.withBehind, hout.record_withBehind hv', hrecord w hv hv'])
      · rintro w (rfl | rfl)
        · exact (hloaded'.record_withBehind hu' _).trans
            (by rw [Sides.withBehind, hin.record_withBehind hu', hrecord' w hu hu'])
        · exact (hloaded'.record_withBehind hv' _).trans
            (by rw [Sides.withBehind, hin.record_withBehind hv', hrecord' w hv hv'])

/-- Records of four bytes. -/
def wordConfig : Config := Config.ofSizes 1 14 1 (by decide)

/-- The record of vertex 1, written with its neighbours 2 and 3. -/
def wordRecords : Records :=
  DeltaSIMDEncode.encodeVertex wordConfig .v0 1 [2, 3] (Records.fresh wordConfig)

/-- The size field of vertex 1 announces one id of four bytes, where there is room for two. -/
def shortRecords : Records := (Records.fresh wordConfig).set 1 ⟨[0x81, 0x03, 2, 0]⟩

/-- The record of vertex 1 as `V3` writes it with its neighbours 2 and 3. -/
def treeRecords : Records :=
  DeltaSIMDEncodeV3.encodeVertex wordConfig 1 [2, 3] (Records.fresh wordConfig)

end Vend
