import Vend.Graph.SaveData
import Vend.Vend.BFilterBitVend
import Vend.Vend.Persistence

/-! # The factory

    `vend/vend_factory.h`. `GetVendPath` names the file of an encoding after its type, and
    `GetEncode` makes the vend of a type. A vend is given by what its methods do
    (`VendClass`); three are written out, the two filters that set bits and the one with a
    table for each vertex.

    A class is `Sound` for a graph when the encoding that it builds, writes and loads again
    contradicts no edge. The three are sound however often the neighbours are repeated in
    the lists.
-/

namespace Vend

/-! ## Section 1: Types and paths -/

/-- `enum class VendType`. -/
inductive VendType where
  | bloomFilterInt
  | cBloomFilter
  | bBloomFilter
  | bloomFilterBit
  | range
  | hashBit
  | bloom
  | count
  | hybrid
  | hybridDelta
  | simdDelta
  | simdDeltaV1
  | simdDeltaV2
  | simdDeltaV3
  | rangeVbyte
  | rangeDelta
  | rangeBits
  | directHybrid
  | directSIMD
  | noVend
  deriving DecidableEq, Repr

namespace VendFactory

open VendType

/-- `VEND_STRING`. -/
def vendString : VendType → List Char
  | bloomFilterBit => "BloomFilterBit".toList
  | bBloomFilter => "BlockBloomFilter".toList
  | cBloomFilter => "CountBloomfilter".toList
  | bloomFilterInt => "BloomFilterInt".toList
  | range => "Range".toList
  | hashBit => "HashBit".toList
  | hybrid => "Hybrid".toList
  | bloom => "Bloom".toList
  | count => "Count".toList
  | noVend => "NoVend".toList
  | hybridDelta => "HybridDelta".toList
  | simdDelta => "SIMDDelta".toList
  | simdDeltaV1 => "SIMDDeltaV1".toList
  | simdDeltaV2 => "SIMDDeltaV2".toList
  | simdDeltaV3 => "SIMDDeltaV3".toList
  | rangeBits => "RangeBits".toList
  | rangeDelta => "RangeDelta".toList
  | rangeVbyte => "RangeVbyte".toList
  | directHybrid => "DirHyb".toList
  | directSIMD => "DirectSIMD".toList

/-- `GetVendPath(vend_prefix, vend_type)`. -/
def getVendPath (vendPrefix : List Char) (vendType : VendType) : List Char :=
  if vendType = noVend then [] else vendPrefix ++ vendString vendType ++ ".txt".toList

/-- The types in the order of their declaration. -/
def vendTypes : List VendType :=
  [bloomFilterInt, cBloomFilter, bBloomFilter, bloomFilterBit, range, hashBit, bloom, count, hybrid,
    hybridDelta, simdDelta, simdDeltaV1, simdDeltaV2, simdDeltaV3, rangeVbyte, rangeDelta, rangeBits,
    directHybrid, directSIMD, noVend]

theorem mem_vendTypes (t : VendType) : t ∈ vendTypes := by
  cases t <;> decide

theorem nodup_vendString : (vendTypes.map vendString).Nodup := by decide +kernel

/-- No two types have the same name. -/
theorem vendString_inj {t t' : VendType} (h : vendString t = vendString t') : t = t' :=
  List.inj_on_of_nodup_map nodup_vendString (mem_vendTypes t) (mem_vendTypes t') h

/-- No two encodings have the same file. -/
theorem getVendPath_inj {vendPrefix : List Char} {t t' : VendType} (ht : t ≠ noVend)
    (ht' : t' ≠ noVend) (h : getVendPath vendPrefix t = getVendPath vendPrefix t') : t = t' := by
  rw [getVendPath, getVendPath, if_neg ht, if_neg ht', List.append_cancel_right_eq,
    List.append_cancel_left_eq] at h
  exact vendString_inj h

/-- The last six characters of a file name tell an encoding from other files. -/
theorem getVendPath_ne {vendPrefix other name : List Char} {t : VendType} (ht : t ≠ noVend)
    (hlen : 6 ≤ name.length)
    (hname : ∀ t, (vendString t ++ ".txt".toList).reverse.take 6 ≠ name.reverse.take 6) :
    getVendPath vendPrefix t ≠ other ++ name := by
  intro h
  have hend : ∀ l₁ l₂ : List Char, 6 ≤ l₂.length →
      (l₁ ++ l₂).reverse.take 6 = l₂.reverse.take 6 := by
    intro l₁ l₂ hle
    rw [List.reverse_append, List.take_append_of_le_length (by rwa [List.length_reverse])]
  have hlen' : 6 ≤ (vendString t ++ ".txt".toList).length := by
    cases t <;> decide
  rw [getVendPath, if_neg ht, List.append_assoc] at h
  apply hname t
  rw [← hend vendPrefix _ hlen', h, hend other name hlen]

end VendFactory

/-! ## Section 2: Vends -/

/-- A class of vends: what its constructor and `BuildEncoding`, `EncodePersistent`, its
    constructor and `LoadEncode`, `Determine`, `Insert` and `Delete` do. The constructor
    gets the database and the lists of the graph. `LoadEncode` gets the content of the
    file, if there is one. -/
structure VendClass where
  State : Type
  buildEncoding : RocksDb → List (List Nat) → Option State
  encodePersistent : State → Option (List Char)
  loadEncode : RocksDb → List (List Nat) → Option (List Char) → Option State
  determine : State → Nat → Nat → Option PairType
  insert : State → Nat → Nat → Option State
  delete : State → Nat → Nat → Option State

/-- `BFilterBitVend`. The number that an empty file stream does not give has no defined
    value. -/
def BFilterBitVend.vendClass (c : Config) (filter : BitFilter) : VendClass where
  State := State
  buildEncoding db lists :=
    (buildEncoding c filter lists (BFilterBitEncode.fresh c)).map fun encode => ⟨db, lists, encode⟩
  encodePersistent s := BFilterBitEncode.encodePersistent c s.encode
  loadEncode db lists file := do
    let file ← file
    let encode ← BFilterBitEncode.loadFromDb c file (BFilterBitEncode.fresh c)
    return ⟨db, lists, encode⟩
  determine s vertex1 vertex2 :=
    if filter.Defined c then some (filter.nePairTest c s.encode vertex1 vertex2) else none
  insert := BFilterBitVend.insert c filter
  delete := BFilterBitVend.delete c filter

/-- What a vend with a record for each vertex works on: `data_db_` and the records of its
    encoder. -/
structure RecordVend.State where
  db : RocksDb
  encodes : Records

/-- The constructor and `LoadEncode()`. A file that is not there has no lines. -/
def RecordVend.loadEncode (c : Config) (db : RocksDb) (file : Option (List Char)) :
    Option RecordVend.State :=
  (EncodeBitSet.loadFromDb (file.getD []) (Records.constructed c)).map (RecordVend.State.mk db)

namespace BitHashVend

open RecordVend (State)

/-- `Determine(vertex1, vertex2)`: the record of the smaller vertex is read. -/
def determine (c : Config) (s : State) (vertex1 vertex2 : Nat) : Option PairType :=
  if Nat.min vertex1 vertex2 < s.encodes.length then
    some (BitHashEncode.nePairTest c s.encodes vertex1 vertex2)
  else none

/-- `Insert(vertex1, vertex2)`. -/
def insert (c : Config) (s : State) (vertex1 vertex2 : Nat) : Option State :=
  if Nat.min vertex1 vertex2 < s.encodes.length then
    some { s with encodes := BitHashEncode.insertPair c vertex1 vertex2 s.encodes }
  else none

/-- `Delete(vertex1, vertex2)`: the encoder reads the list from the database. -/
def delete (c : Config) (s : State) (vertex1 vertex2 : Nat) : Option State :=
  if Nat.min vertex1 vertex2 < s.encodes.length then
    some { s with encodes := BitHashEncode.deletePair c s.db.list vertex1 vertex2 s.encodes }
  else none

/-- `BitHashVend`. -/
def vendClass (c : Config) : VendClass where
  State := State
  buildEncoding db lists := (BitHashEncode.buildEncoding c lists).map (State.mk db)
  encodePersistent s := EncodeBitSet.encodePersistent c s.encodes
  loadEncode db _ file := RecordVend.loadEncode c db file
  determine := determine c
  insert := insert c
  delete := delete c

end BitHashVend

/-- `GetEncode(vend_type, ..)`, with the other classes as they may be. Without a vend the
    pointer stays null. -/
def VendFactory.getEncode (c : Config) (others : VendType → Option VendClass) :
    VendType → Option VendClass
  | .bloomFilterBit => some (BFilterBitVend.vendClass c .plain)
  | .bBloomFilter => some (BFilterBitVend.vendClass c .blocked)
  | .hashBit => some (BitHashVend.vendClass c)
  | .noVend => none
  | vendType => others vendType

/-! ## Section 3: Sound vends -/

open LoadData

/-- The lists of a graph, with every neighbour `copies` times. -/
structure Copies {vertexSize : Nat} (file : EdgeFile vertexSize) (copies : Nat)
    (lists : List (List Nat)) : Prop where
  length : lists.length = vertexSize + 1
  sorted : ∀ v, (lists.getD v []).Pairwise (· ≤ ·)
  count : ∀ v w, (lists.getD v []).count w = if file.Edge v w then copies else 0

theorem Copies.mem_iff {vertexSize : Nat} {file : EdgeFile vertexSize} {copies : Nat}
    {lists : List (List Nat)} (h : Copies file copies lists) (hcopies : 1 ≤ copies) (v w : Nat) :
    w ∈ lists.getD v [] ↔ file.Edge v w := by
  rw [← List.count_pos_iff, h.count v w]
  split
  next hedge => simp [hedge, Nat.lt_of_succ_le hcopies]
  next hedge => simp [hedge]

theorem LoadData.EdgeFile.ne_of_edge {vertexSize : Nat} {file : EdgeFile vertexSize} {u w : Nat}
    (h : file.Edge u w) : u ≠ w :=
  h.elim (file.loopless (u, w)) fun h => (file.loopless (w, u) h).symm

/-- The verdicts on the pairs of different vertices contradict no edge and affirm no other
    pair. -/
def VendClass.Agrees (vend : VendClass) {vertexSize : Nat} (file : EdgeFile vertexSize)
    (s : vend.State) : Prop :=
  ∀ u w, 1 ≤ u → u ≤ vertexSize → 1 ≤ w → w ≤ vertexSize → u ≠ w →
    ∃ type, vend.determine s u w = some type ∧ (type = .neighbor → file.Edge u w) ∧
      (type = .nonNeighbor → ¬ file.Edge u w)

/-- What is built from the lists of a graph can be written, and what is then loaded agrees
    with the graph. -/
def VendClass.Sound (vend : VendClass) {vertexSize : Nat} (file : EdgeFile vertexSize)
    (copies : Nat) : Prop :=
  ∀ db lists, Copies file copies lists → ∃ s text, vend.buildEncoding db lists = some s ∧
    vend.encodePersistent s = some text ∧ ∀ db' lists', ∃ loaded,
      vend.loadEncode db' lists' (some text) = some loaded ∧ vend.Agrees file loaded

section

variable {c : Config} (hk : c.perEncodeBitSize < 2 ^ 31) (hsize : c.vertexSize + 1 < 2 ^ 31)
variable {file : EdgeFile c.vertexSize} {copies : Nat} (hcopies : 1 ≤ copies)

include hk hsize hcopies in
/-- The filters that set bits. A pair that is set twice is set. -/
theorem BFilterBitVend.sound {filter : BitFilter} (hdefined : filter.Defined c) :
    (vendClass c filter).Sound file copies := by
  intro db lists hlists
  have hfresh : (BFilterBitEncode.fresh c).data.length = BFilterBitEncode.hashSize c / 8 :=
    BitSetSIMD.length_ofBitSize _
  have hclear : Holds c filter [] (BFilterBitEncode.fresh c) := by
    have h : Holds c filter [] (BFilterBitEncode.fresh c).clear := holds_clear rfl
    rwa [BFilterBitEncode.fresh, BitSetSIMD.clear_ofBitSize] at h
  have hlen := hlists.length
  obtain ⟨encode, hbuild, hholds⟩ := hclear.buildEncoding hk hdefined
    (show lists.length < 2 ^ 32 by omega)
  obtain ⟨text, hwrite, hload⟩ :=
    BFilterBitEncode.loadFromDb_encodePersistent (hholds.length.trans hfresh) hfresh
  refine ⟨⟨db, lists, encode⟩, text, ?_, hwrite, ?_⟩
  · simp only [vendClass, hbuild, Option.map_some]
  intro db' lists'
  refine ⟨⟨db', lists', encode⟩, ?_, ?_⟩
  · simp only [vendClass, hload, Option.bind_eq_bind, Option.bind_some, Option.pure_def]
  intro u w hu hu' hw hw' hne
  refine ⟨_, if_pos hdefined, fun h => absurd h (nePairTest_ne_neighbor _ u w), ?_⟩
  intro hdenied hedge
  -- the smaller endpoint hands the edge to the filter
  have hpair : ∀ a b, 1 ≤ a → a ≤ c.vertexSize → file.Edge a b → a < b →
      (a, b) ∈ listPairs lists := by
    intro a b ha ha' hab hlt
    rw [listPairs, List.mem_flatMap]
    refine ⟨a, List.mem_range'_1.mpr (by omega), List.mem_map.mpr ⟨b, ?_, rfl⟩⟩
    exact List.mem_filter.mpr ⟨(hlists.mem_iff hcopies a b).mpr hab, decide_eq_true hlt⟩
  have hopen : filter.nePairTest c encode u w = .uncertain := by
    rw [hholds.nePairTest_iff]
    intro p hp
    rcases Nat.lt_or_gt_of_ne hne with hlt | hgt
    · exact ⟨(u, w), hpair u w hu hu' hedge hlt, hp⟩
    · rw [positions_comm] at hp
      exact ⟨(w, u), hpair w u hw hw' (Or.symm hedge) hgt, hp⟩
  rw [hopen] at hdenied
  cases hdenied

/-- Loading writes into the records that are there. -/
theorem EncodeBitSet.length_loadFromDb {file : List Char} {encodes loaded : Records}
    (h : loadFromDb file encodes = some loaded) : loaded.length = encodes.length := by
  unfold loadFromDb at h
  generalize DecimalText.lines file = ls at h
  induction ls generalizing encodes with
  | nil =>
    cases h
    rfl
  | cons line ls ih =>
    rw [List.foldlM_cons] at h
    obtain ⟨next, hstep, hrest⟩ := Option.bind_eq_some_iff.mp h
    rw [ih hrest]
    unfold loadLine at hstep
    simp only [Option.bind_eq_bind, Option.bind_eq_some_iff, Option.pure_def,
      Option.some.injEq] at hstep
    obtain ⟨_, -, _, -, _, -, rfl⟩ := hstep
    exact List.length_set

include hsize in
/-- Records of the right number and size. -/
theorem allocated_of_isRecord {encodes : Records} (hlen : encodes.length = c.vertexSize + 1)
    (hbytes : ∀ v ≤ c.vertexSize, IsRecord c (encodes.record v)) : Allocated c encodes := by
  refine ⟨?_, by omega, ?_⟩
  · rw [hlen, Config.vertexIdUpper, Nat.mod_eq_of_lt (by omega)]
  · intro bitset hmem
    obtain ⟨u, hu, rfl⟩ := List.getElem_of_mem hmem
    have hbits := hbytes u (by omega)
    rw [IsRecord, Records.record, List.getD_eq_getElem _ _ hu, BitSetSIMD.bitLength] at hbits
    omega

include hsize in
/-- What was written is loaded. -/
theorem RecordVend.loadEncode_encodePersistent {encodes : Records} (h : Allocated c encodes) :
    ∃ text, EncodeBitSet.encodePersistent c encodes = some text ∧
      ∀ db, ∃ loaded, loadEncode c db (some text) = some ⟨db, loaded⟩ ∧
        loaded.length = c.vertexSize + 1 ∧
        ∀ v, 1 ≤ v → v ≤ c.vertexSize → loaded.record v = encodes.record v := by
  have hfresh : Allocated c (Records.fresh c) := allocated_fresh (by omega)
  obtain ⟨text, loaded, hwrite, hload, -, hloaded⟩ :=
    EncodeBitSet.loadFromDb_encodePersistent h hfresh
  refine ⟨text, hwrite, fun db => ⟨loaded, ?_, ?_, hloaded⟩⟩
  · have hconstructed := Records.constructed_eq (show c.vertexSize + 1 < 2 ^ 32 by omega)
    simp only [loadEncode, Option.getD_some, hconstructed, hload, Option.map_some]
  · rw [EncodeBitSet.length_loadFromDb hload, Records.length_fresh]

include hsize in
/-- The build goes through for lists of any content. -/
theorem BitHashVend.buildEncoding_eq {lists : List (List Nat)}
    (hlen : lists.length = c.vertexSize + 1) :
    BitHashEncode.buildEncoding c lists =
      some (Records.writeAll c fun u => BitHashEncode.encodeBits c u (lists.getD u [])) := by
  rw [BitHashEncode.buildEncoding, Records.constructed_eq (by omega), hlen, Nat.add_sub_cancel]
  refine (Records.foldlM_updateAt _ id
    (fun u => BitHashEncode.encodeBits c u (lists.getD u [])) _).trans ?_
  rw [if_pos]
  · rfl
  · intro u hu
    rw [List.mem_range'_1] at hu
    rw [Records.length_fresh, id]
    omega

include hsize hcopies in
/-- The table of a vertex. A bit that is set twice is set. -/
theorem BitHashVend.sound : (vendClass c).Sound file copies := by
  intro db lists hlists
  have hbuild := buildEncoding_eq hsize hlists.length
  generalize hencodes : Records.writeAll c
    (fun u => BitHashEncode.encodeBits c u (lists.getD u [])) = encodes at hbuild
  have hrecord : ∀ u, 1 ≤ u → u ≤ c.vertexSize → encodes.record u =
      BitHashEncode.encodeBits c u (lists.getD u []) (BitSetSIMD.ofBitSize c.perEncodeBitSize) := by
    intro u hu hu'
    rw [← hencodes]
    exact Records.record_writeAll _ hu hu'
  have hlen : encodes.length = c.vertexSize + 1 := by
    rw [← hencodes]
    exact Records.length_writeAll c _
  have hbytes : ∀ u ≤ c.vertexSize, IsRecord c (encodes.record u) := by
    intro u hu'
    rcases Nat.eq_zero_or_pos u with rfl | hu
    · rw [← hencodes, Records.record_writeAll_zero]
      exact isRecord_ofBitSize c
    · rw [hrecord u hu hu']
      exact (BitHashEncode.bit_encodeBits u _ (isRecord_ofBitSize c)).1
  obtain ⟨text, hwrite, hloads⟩ := RecordVend.loadEncode_encodePersistent hsize
    (allocated_of_isRecord hsize hlen hbytes)
  refine ⟨⟨db, encodes⟩, text, ?_, hwrite, ?_⟩
  · simp only [vendClass, hbuild, Option.map_some]
  intro db' lists'
  obtain ⟨loaded, hload, hlen', hloaded⟩ := hloads db'
  refine ⟨⟨db', loaded⟩, hload, ?_⟩
  intro u w hu hu' hw hw' hne
  have hopen : ∀ a b, 1 ≤ a → a ≤ c.vertexSize → file.Edge a b → a < b →
      BitHashEncode.nonNeighborTest c loaded a b = .uncertain := by
    intro a b ha ha' hab hlt
    rw [BitHashEncode.nonNeighborTest, hloaded a ha ha', hrecord a ha ha', BitSetSIMD.isOne_eq_bit,
      if_pos]
    rw [(BitHashEncode.bit_encodeBits a _ (isRecord_ofBitSize c)).2]
    exact ⟨b, (hlists.mem_iff hcopies a b).mpr hab, hlt, rfl⟩
  have hrange : Nat.min u w < loaded.length := by
    rw [hlen']
    exact Nat.lt_succ_of_le (Nat.le_trans (Nat.min_le_left u w) hu')
  refine ⟨_, if_pos hrange, ?_, ?_⟩
  · intro haffirmed
    simp only [BitHashEncode.nePairTest, BitHashEncode.nonNeighborTest] at haffirmed
    split at haffirmed <;> split at haffirmed <;> cases haffirmed
  · intro hdenied hedge
    simp only [BitHashEncode.nePairTest] at hdenied
    split at hdenied
    next hlt =>
      rw [hopen u w hu hu' hedge hlt] at hdenied
      cases hdenied
    next hge =>
      rw [hopen w u hw hw' (Or.symm hedge) (by omega)] at hdenied
      cases hdenied

include hk hsize hcopies in
/-- However often the neighbours are repeated in the lists, the filters and the tables that
    are built from them, written and loaded again contradict nothing in the graph. -/
theorem VendFactory.getEncode_sound (others : VendType → Option VendClass) {vendType : VendType}
    (ht : vendType = .bloomFilterBit ∨ (vendType = .bBloomFilter ∧ c.blockNums ≠ 0) ∨
      vendType = .hashBit) :
    ∃ vend, getEncode c others vendType = some vend ∧ vend.Sound file copies := by
  rcases ht with rfl | ⟨rfl, hblocks⟩ | rfl
  · have hdefined : BFilterBitVend.BitFilter.plain.Defined c := trivial
    exact ⟨_, rfl, BFilterBitVend.sound hk hsize hcopies hdefined⟩
  · have hdefined : BFilterBitVend.BitFilter.blocked.Defined c := hblocks
    exact ⟨_, rfl, BFilterBitVend.sound hk hsize hcopies hdefined⟩
  · exact ⟨_, rfl, BitHashVend.sound hsize hcopies⟩

end

/-- Three edges among sixteen vertices. -/
def threeEdges : EdgeFile 16 where
  lines := [some (1, 2), none, some (3, 5), some (2, 16)]
  range := by decide
  loopless := by decide
  distinct := by decide

theorem VendFactory.getEncode_sound_blocked :
    ∃ vend, getEncode sixteenConfig (fun _ => none) .bBloomFilter = some vend ∧
      @VendClass.Sound vend 16 threeEdges 3 :=
  getEncode_sound (c := sixteenConfig) (by decide) (by decide) (by decide) _
    (Or.inr (Or.inl ⟨rfl, by decide⟩))

end Vend
