import Vend.Encode.Verdict

/-! # Count encoding

    `encode/single/count_encode.h`. A record is a 32-bit flag word and elements of
    `ELEMENT_SIZE` bits. A list of up to `element_nums_` ids is stored element by
    element; of a longer one each id is counted in the element that the hash names.

    Three things go wrong. The search of a full record stops at the first element
    that is smaller than the id it looks for, though the ids are stored in ascending
    order: it only ever finds the first one. The counters are numbered from the first
    bit of the record, so those in front of bit 32 share it with the flag word. And
    `GetIntSize` returns the size of an element, not the number of elements.

    `speaks_of_single` and `speaks_of_counted` say what is left: full records of at
    most one id, and counting records none of whose ids is counted in the flag word.
-/

namespace Vend

namespace CountEncode

open BitField BitSetSIMD

/-! ## Section 1: Model -/

/-- `element_nums_`. -/
def elementNums (c : Config) : Nat := (c.kSize - 1) * 32 / c.elementSize

/-- `Hash(vertex1, vertex2)`, with `HASH_PARAM1[0]` and `HASH_PARAM2[1]`. -/
def hash (c : Config) (vertex1 vertex2 : Nat) : Nat :=
  (9191891 * vertex1 + 6659501 * vertex2) % 2 ^ 64 % elementNums c + 1

/-- `GetFlag(vertex_id)`. -/
def getFlag (encode : BitSetSIMD) : Bool := encode.blockGet 0 32 ≠ 0

/-- `SetFlag(vertex_id, flag)`. -/
def setFlag (encode : BitSetSIMD) (flag : Bool) : BitSetSIMD := encode.blockSet 0 32 flag.toNat

/-- `SetFullEncode(vertex_id, neighbors)`. -/
def setFullEncode (c : Config) (neighbors : List Nat) (encode : BitSetSIMD) : BitSetSIMD :=
  blockSetList c.elementSize (setFlag encode true) 32 neighbors

/-- `SetCountEncode(vertex_id, neighbors)`. -/
def setCountEncode (c : Config) (vertexId : Nat) (neighbors : List Nat) (encode : BitSetSIMD) :
    BitSetSIMD :=
  neighbors.foldl (fun encode v =>
      let val := encode.blockGet (hash c vertexId v * c.elementSize) c.elementSize
      encode.blockSet (hash c vertexId v * c.elementSize) c.elementSize ((val + 1) % 2 ^ 32))
    (setFlag encode false)

/-- `EncodeVertex` on the record of its vertex. -/
def encodeBits (c : Config) (vertexId : Nat) (neighbors : List Nat) (encode : BitSetSIMD) :
    BitSetSIMD :=
  if neighbors.length ≤ elementNums c then setFullEncode c neighbors encode
  else setCountEncode c vertexId neighbors encode

/-- The loop of `NonNeighborTest` over `n` elements of a full record. -/
def findFull (c : Config) (encode : BitSetSIMD) (vertex2 : Nat) : Nat → Nat → PairType
  | 0, _ => .nonNeighbor
  | n + 1, offset =>
    let v := encode.blockGet offset c.elementSize
    if v = vertex2 then .neighbor
    else if v < vertex2 then .nonNeighbor
    else findFull c encode vertex2 n (offset + c.elementSize)

/-- `NonNeighborTest(vertex1, vertex2)` on the record of `vertex1`. -/
def testBits (c : Config) (vertex1 : Nat) (encode : BitSetSIMD) (vertex2 : Nat) : PairType :=
  if getFlag encode then findFull c encode vertex2 (elementNums c) 32
  else if encode.blockGet (hash c vertex1 vertex2 * c.elementSize) c.elementSize = 0 then
    .nonNeighbor
  else .uncertain

/-- `EncodeVertex(vertex_id, neighbors)`. -/
def encodeVertex (c : Config) (vertexId : Nat) (neighbors : List Nat) (encodes : Records) :
    Records :=
  encodes.update vertexId (encodeBits c vertexId neighbors)

/-- `NonNeighborTest(vertex1, vertex2)`. -/
def nonNeighborTest (c : Config) (encodes : Records) (vertex1 vertex2 : Nat) : PairType :=
  testBits c vertex1 (encodes.record vertex1) vertex2

/-- `NEpairTest(vertex1, vertex2)`. -/
def nePairTest (c : Config) (encodes : Records) (vertex1 vertex2 : Nat) : PairType :=
  PairType.min (nonNeighborTest c encodes vertex1 vertex2)
    (nonNeighborTest c encodes vertex2 vertex1)

/-- `GetIntSize()`. -/
def getIntSize (c : Config) : Nat := c.elementSize

/-- A configuration for the count encoding: two to 63 words of elements behind the flag,
    and elements that hold every id. -/
structure Counting (c : Config) : Prop where
  kSize_ge : 3 ≤ c.kSize
  kSize_le : c.kSize ≤ 64
  vertexSize_lt : c.vertexSize < 2 ^ c.elementSize
  elementSize_le : c.elementSize ≤ 32

/-! ## Section 2: The layout -/

section

variable {c : Config} (hc : Counting c)
include hc

theorem elementSize_pos : 0 < c.elementSize := by
  have hlt := hc.vertexSize_lt
  have hne := c.vertexSize_ne
  rcases Nat.eq_zero_or_pos c.elementSize with h | h
  · rw [h] at hlt
    omega
  · exact h

theorem two_le_elementNums : 2 ≤ elementNums c := by
  have hk := hc.kSize_ge
  have hsize := hc.elementSize_le
  exact (Nat.le_div_iff_mul_le (elementSize_pos hc)).mpr (by omega)

omit hc in
/-- The elements fit behind the flag word. -/
theorem elements_le : 32 + elementNums c * c.elementSize ≤ c.perEncodeBitSize := by
  have hk := c.kSize_ne
  have hdiv : elementNums c * c.elementSize ≤ (c.kSize - 1) * 32 := Nat.div_mul_le_self _ _
  unfold Config.perEncodeBitSize
  omega

/-- The element that a hash names lies inside the record. -/
theorem element_le (u v : Nat) :
    hash c u v * c.elementSize + c.elementSize ≤ c.perEncodeBitSize := by
  have hsize := hc.elementSize_le
  have hroom := elements_le (c := c)
  have hlt : (9191891 * u + 6659501 * v) % 2 ^ 64 % elementNums c < elementNums c :=
    Nat.mod_lt _ (by have := two_le_elementNums hc; omega)
  have hle : hash c u v ≤ elementNums c := hlt
  have hmul : hash c u v * c.elementSize ≤ elementNums c * c.elementSize :=
    Nat.mul_le_mul_right _ hle
  omega

theorem perEncodeBitSize_range : 96 ≤ c.perEncodeBitSize ∧ c.perEncodeBitSize ≤ 2048 := by
  have hge := hc.kSize_ge
  have hle := hc.kSize_le
  unfold Config.perEncodeBitSize
  omega

theorem bit_setFlag {encode : BitSetSIMD} (hrec : IsRecord c encode) (flag : Bool) :
    (setFlag encode flag).bit = store encode.bit 0 32 flag.toNat := by
  have hper := perEncodeBitSize_range hc
  unfold IsRecord at hrec
  exact bit_blockSet _ (by omega) (by omega) (by omega) (by omega) (by cases flag <;> decide)

omit hc in
theorem getFlag_eq {encode : BitSetSIMD} (value : Nat)
    (h : field encode.bit 0 32 = value) : getFlag encode = decide (value ≠ 0) := by
  rw [getFlag, blockGet_eq _ (by omega) (by omega), h]

/-! ## Section 3: What a record answers -/

variable (u : Nat) {ids : List Nat} (hids : IdList c ids)
include hids

/-- A full record: the flag is set, and the elements are the ids and zeros behind them. -/
theorem full_encodeBits (hfit : ids.length ≤ elementNums c) :
    getFlag (encodeBits c u ids (ofBitSize c.perEncodeBitSize)) = true ∧
    ∀ i, i < elementNums c → (encodeBits c u ids (ofBitSize c.perEncodeBitSize)).blockGet
      (32 + i * c.elementSize) c.elementSize = ids.getD i 0 := by
  have hper := perEncodeBitSize_range hc
  have hpos := elementSize_pos hc
  have hsize := hc.elementSize_le
  have hrec : IsRecord c (ofBitSize c.perEncodeBitSize) := isRecord_ofBitSize c
  have hlen : (setFlag (ofBitSize c.perEncodeBitSize) true).bitLength = c.perEncodeBitSize := by
    rw [setFlag, bitLength_blockSet]
    exact hrec
  have hroom : ids.length * c.elementSize ≤ elementNums c * c.elementSize :=
    Nat.mul_le_mul_right _ hfit
  have hall := elements_le (c := c)
  have hvalues : ∀ v ∈ ids, v < 2 ^ c.elementSize := by
    intro v hv
    have h₁ := (hids v hv).2
    have h₂ := hc.vertexSize_lt
    omega
  obtain ⟨hread, hrest⟩ := bit_blockSetList hpos (by omega)
    (setFlag (ofBitSize c.perEncodeBitSize) true) 32 hvalues (by omega) (by omega)
  rw [encodeBits, if_pos hfit, setFullEncode]
  constructor
  · rw [getFlag_eq 1]
    · rfl
    · rw [field_congr fun p _ hp => hrest p (by omega), bit_setFlag hc hrec]
      exact field_store_self _ (by decide)
  · intro i _
    rw [blockGet_eq _ hpos hsize]
    by_cases hlt : i < ids.length
    · rw [hread i hlt, List.getD_eq_getElem _ _ hlt]
    · -- behind the ids the record is still fresh
      rw [List.getD_eq_default _ _ (by omega)]
      apply field_eq_zero
      intro p hp _
      have hmul : ids.length * c.elementSize ≤ i * c.elementSize :=
        Nat.mul_le_mul_right _ (by omega)
      rw [hrest p (by omega), bit_setFlag hc hrec, store_outside _ (by omega), bit_ofBitSize]

/-- A full record of at most one id answers exactly. -/
theorem speaks_of_single (hlen : ids.length ≤ 1) {v : Nat} (hv : 1 ≤ v) :
    getFlag (encodeBits c u ids (ofBitSize c.perEncodeBitSize)) = true ∧
    Speaks true (v ∈ ids)
      (testBits c u (encodeBits c u ids (ofBitSize c.perEncodeBitSize)) v) := by
  have htwo := two_le_elementNums hc
  obtain ⟨hflag, helement⟩ := full_encodeBits hc u hids (by omega)
  obtain ⟨n, hn⟩ := Nat.exists_eq_add_of_le' htwo
  have hfirst := helement 0 (by omega)
  have hsecond := helement 1 (by omega)
  rw [Nat.zero_mul, Nat.add_zero] at hfirst
  rw [Nat.one_mul, List.getD_eq_default _ _ (by omega)] at hsecond
  refine ⟨hflag, ?_⟩
  -- the search looks at two elements at most, and the second one is zero
  have htest : testBits c u (encodeBits c u ids (ofBitSize c.perEncodeBitSize)) v =
      if ids.getD 0 0 = v then .neighbor else .nonNeighbor := by
    rw [testBits, if_pos hflag, hn, findFull, findFull, hfirst, hsecond]
    simp only [if_neg (show ¬ 0 = v by omega), if_pos (show 0 < v by omega)]
    split
    · rfl
    · split <;> rfl
  have hmem : v ∈ ids ↔ ids.getD 0 0 = v := by
    rcases ids with _ | ⟨w, _ | ⟨w', ids⟩⟩
    · simp
      omega
    · simp [eq_comm]
    · simp at hlen
  rw [htest, hmem]
  split
  next heq => exact ⟨fun _ => heq, fun _ => by simp, fun _ => by simp⟩
  next hne => exact ⟨fun h => by simp at h, fun h => absurd h hne, fun _ => by simp⟩

omit hids in
/-- An element is wide enough for the number of ids that share it. -/
theorem count_hash_lt (hle : ids.length ≤ c.vertexSize) (j : Nat) :
    (ids.map (hash c u)).count j < 2 ^ c.elementSize := by
  have hcount := List.count_le_length (a := j) (l := ids.map (hash c u))
  have hlt := hc.vertexSize_lt
  rw [List.length_map] at hcount
  omega

omit hids in
/-- A counting record none of whose ids is counted in the flag word: the flag is clear, and
    each element holds the number of the ids hashed to it. -/
theorem counted_encodeBits (hmany : elementNums c < ids.length) (hle : ids.length ≤ c.vertexSize)
    (hapart : ∀ v ∈ ids, 32 ≤ hash c u v * c.elementSize) :
    getFlag (encodeBits c u ids (ofBitSize c.perEncodeBitSize)) = false ∧
    ∀ j, cell (encodeBits c u ids (ofBitSize c.perEncodeBitSize)).bit c.elementSize j =
      (ids.map (hash c u)).count j := by
  have hper := perEncodeBitSize_range hc
  have hpos := elementSize_pos hc
  have hsize := hc.elementSize_le
  have hrec : IsRecord c (ofBitSize c.perEncodeBitSize) := isRecord_ofBitSize c
  have hlen : (setFlag (ofBitSize c.perEncodeBitSize) false).bitLength = c.perEncodeBitSize := by
    rw [setFlag, bitLength_blockSet]
    exact hrec
  have hzero : ∀ p, (setFlag (ofBitSize c.perEncodeBitSize) false).bit p = false := by
    intro p
    rw [bit_setFlag hc hrec, store]
    split <;> simp
  have hcell : ∀ j, cell (setFlag (ofBitSize c.perEncodeBitSize) false).bit c.elementSize j = 0 :=
    fun j => field_eq_zero fun p _ _ => hzero p
  have hpow : 2 ^ c.elementSize ≤ 2 ^ 32 := Nat.pow_le_pow_right (by omega) hsize
  generalize hencode : encodeBits c u ids (ofBitSize c.perEncodeBitSize) = encode
  have hfold : (ids.map (hash c u)).foldl (fun bs i => bs.blockSet (i * c.elementSize)
      c.elementSize ((bs.blockGet (i * c.elementSize) c.elementSize + 1) % 2 ^ 32))
      (setFlag (ofBitSize c.perEncodeBitSize) false) = encode := by
    rw [encodeBits, if_neg (by omega)] at hencode
    rw [List.foldl_map]
    exact hencode
  obtain ⟨-, hcells, hframe⟩ := cell_foldl_change hpos hsize (fun count => (count + 1) % 2 ^ 32)
    (setFlag (ofBitSize c.perEncodeBitSize) false)
    (by
      intro i hi
      obtain ⟨w, -, rfl⟩ := List.mem_map.mp hi
      have := element_le hc u w
      omega)
    (by
      intro j k hk
      have := count_hash_lt hc u hle j
      rw [hcell, iterate_succ_mod (by omega)]
      omega)
    hfold
  constructor
  · -- no counter lies in the flag word
    rw [getFlag_eq 0]
    · rfl
    · apply field_eq_zero
      intro p _ hp
      rw [hframe p, hzero]
      intro i hi
      obtain ⟨w, hw, rfl⟩ := List.mem_map.mp hi
      have := hapart w hw
      omega
  · intro j
    have := count_hash_lt hc u hle j
    rw [hcells, hcell, iterate_succ_mod (by omega), Nat.zero_add]

omit hids in
/-- Such a record is uncertain about every id that it counted. -/
theorem speaks_of_counted (hmany : elementNums c < ids.length)
    (hle : ids.length ≤ c.vertexSize)
    (hapart : ∀ v ∈ ids, 32 ≤ hash c u v * c.elementSize) (v : Nat) :
    getFlag (encodeBits c u ids (ofBitSize c.perEncodeBitSize)) = false ∧
    Speaks false (v ∈ ids)
      (testBits c u (encodeBits c u ids (ofBitSize c.perEncodeBitSize)) v) := by
  obtain ⟨hflag, hcells⟩ := counted_encodeBits hc u hmany hle hapart
  refine ⟨hflag, ?_⟩
  have htest : testBits c u (encodeBits c u ids (ofBitSize c.perEncodeBitSize)) v =
      if (ids.map (hash c u)).count (hash c u v) = 0 then .nonNeighbor else .uncertain := by
    have hread : (encodeBits c u ids (ofBitSize c.perEncodeBitSize)).blockGet
        (hash c u v * c.elementSize) c.elementSize = (ids.map (hash c u)).count (hash c u v) := by
      rw [blockGet_eq _ (elementSize_pos hc) hc.elementSize_le]
      exact hcells _
    rw [testBits, hflag, hread]
    rfl
  rw [htest]
  constructor
  · intro h
    split at h <;> cases h
  · intro hmem
    have hpos : 0 < (ids.map (hash c u)).count (hash c u v) :=
      List.count_pos_iff.mpr (List.mem_map_of_mem hmem)
    rw [if_neg (by omega)]
    simp
  · intro h
    cases h

end

end CountEncode

end Vend
