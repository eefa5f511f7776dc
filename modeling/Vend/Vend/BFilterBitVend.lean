import Vend.Graph.LoadData
import Vend.Vend.FilterVend

/-! # The filter vend under updates

    `BFilterBitVend` with the encoders that set bits, the plain and the blocked one. Bits
    cannot be taken back, so `IsDeletable` is false and `Delete` loads the lists from the
    database, clears the filter and builds it again.

    The database is written by others in between (`Put`). `run_contents` says what the
    filter is after any sequence of these calls: the bits of the pairs that the database
    held at the last deletion, and of the pairs inserted since. Pairs that were inserted
    before the last deletion and that the database does not have are forgotten.
-/

namespace Vend

namespace BFilterBitVend

open FilterVend

/-! ## Section 1: Model -/

/-- The encoders of the class that set bits: `type` 0 and `type` 2. -/
inductive BitFilter where
  | plain
  | blocked
  deriving DecidableEq, Repr

namespace BitFilter

/-- `EdgeSet(vertex1, vertex2)`. -/
def edgeSet (c : Config) : BitFilter → BitSetSIMD → Nat → Nat → BitSetSIMD
  | plain => BFilterBitEncode.edgeSet c bitHashBestNums
  | blocked => BBFilterEncode.edgeSet c bitHashBestNums

/-- `InsertPair(vertex1, vertex2)`. -/
def insertPair (c : Config) : BitFilter → BitSetSIMD → Nat → Nat → BitSetSIMD
  | plain => BFilterBitEncode.insertPair c bitHashBestNums
  | blocked => BBFilterEncode.insertPair c bitHashBestNums

/-- `NEpairTest(vertex1, vertex2)`. -/
def nePairTest (c : Config) : BitFilter → BitSetSIMD → Nat → Nat → PairType
  | plain => BFilterBitEncode.nePairTest c bitHashBestNums
  | blocked => BBFilterEncode.nePairTest c bitHashBestNums

/-- `IsDeletable(vertex1, vertex2)`, as `Encode` has it. -/
def isDeletable (_ : BitFilter) (_vertex1 _vertex2 : Nat) : Bool := false

/-- Calls of `EdgeSet` have a result; `BlockHash` divides by `BLOCK_NUMS`. -/
def Defined (c : Config) : BitFilter → Prop
  | plain => True
  | blocked => c.blockNums ≠ 0

instance (c : Config) (filter : BitFilter) : Decidable (filter.Defined c) := by
  cases filter
  · exact inferInstanceAs (Decidable True)
  · exact inferInstanceAs (Decidable (_ ≠ _))

end BitFilter

/-- What a vend works on: `data_db_`, `adjacency_list_` and the bits of its encoder. -/
structure State where
  db : RocksDb
  adjacencyList : List (List Nat)
  encode : BitSetSIMD

/-- The body of the loop of `LoadDbData`: `at(key).assign(..)`. -/
def assignList (lists : List (List Nat)) (entry : Nat × List Nat) : Option (List (List Nat)) :=
  if entry.1 < lists.length then some (lists.set entry.1 entry.2) else none

/-- `LoadDbData()`. -/
def loadDbData (c : Config) (db : RocksDb) (lists : List (List Nat)) : Option (List (List Nat)) :=
  db.scan.foldlM assignList (LoadData.resize lists c.vertexIdUpper)

/-- `BuildEncoding()` with an adjacency list, on the bits that the encoder has. -/
def buildEncoding (c : Config) (filter : BitFilter) (lists : List (List Nat))
    (encode : BitSetSIMD) : Option BitSetSIMD :=
  FilterVend.buildEncoding (definedIf (filter.Defined c) (filter.edgeSet c)) encode (some lists) []

/-- `Insert(vertex1, vertex2)`. -/
def insert (c : Config) (filter : BitFilter) (s : State) (vertex1 vertex2 : Nat) : Option State :=
  (definedIf (filter.Defined c) (filter.insertPair c) s.encode vertex1 vertex2).map fun encode =>
    { s with encode := encode }

/-- `Delete(vertex1, vertex2)`. `DeletePair` of these encoders is the empty one of `Encode`. -/
def delete (c : Config) (filter : BitFilter) (s : State) (vertex1 vertex2 : Nat) : Option State :=
  if filter.isDeletable vertex1 vertex2 then some s
  else do
    let lists ← loadDbData c s.db s.adjacencyList
    let encode ← buildEncoding c filter lists s.encode.clear
    return ⟨s.db, lists, encode⟩

/-- A call that the vend sees, or a list that is written to its database. -/
inductive Op where
  | put (key : Nat) (value : List Nat)
  | insert (vertex1 vertex2 : Nat)
  | delete (vertex1 vertex2 : Nat)

def step (c : Config) (filter : BitFilter) (s : State) : Op → Option State
  | .put key value => some { s with db := s.db.put key value }
  | .insert vertex1 vertex2 => insert c filter s vertex1 vertex2
  | .delete vertex1 vertex2 => delete c filter s vertex1 vertex2

/-- A sequence of calls. -/
def run (c : Config) (filter : BitFilter) (s : State) (ops : List Op) : Option State :=
  ops.foldlM (step c filter) s

/-! ## Section 2: What the filter should hold -/

/-- The pairs of the database, the smaller id first. -/
def storedPairs (vertexSize : Nat) (db : RocksDb) : List (Nat × Nat) :=
  (List.range' 1 vertexSize).flatMap fun v => larger v (db.list v)

/-- The database, and the pairs that the filter stands for. -/
abbrev Contents := RocksDb × List (Nat × Nat)

/-- A deletion forgets everything that is not in the database. -/
def note (vertexSize : Nat) (s : Contents) : Op → Contents
  | .put key value => (s.1.put key value, s.2)
  | .insert vertex1 vertex2 => (s.1, s.2 ++ [(vertex1, vertex2)])
  | .delete _ _ => (s.1, storedPairs vertexSize s.1)

/-- The pairs after a sequence of calls. -/
def contents (vertexSize : Nat) (s : Contents) (ops : List Op) : Contents :=
  ops.foldl (note vertexSize) s

/-- The bits that belong to a pair. -/
def positions (c : Config) : BitFilter → Nat → Nat → List Nat
  | .plain => BFilterEncode.hashVals (BFilterBitEncode.hashSize c) bitHashBestNums
  | .blocked => BBFilterEncode.positions c bitHashBestNums

/-- The filter has exactly the bits of the pairs. -/
structure Holds (c : Config) (filter : BitFilter) (pairs : List (Nat × Nat))
    (encode : BitSetSIMD) : Prop where
  length : encode.data.length = (BFilterBitEncode.fresh c).data.length
  bit_iff : ∀ p, encode.bit p = true ↔ ∃ pair ∈ pairs, p ∈ positions c filter pair.1 pair.2

/-! ## Section 3: Setting and testing pairs -/

section

variable {c : Config} (hk : c.perEncodeBitSize < 2 ^ 31) {filter : BitFilter}
variable (hdefined : filter.Defined c)

theorem edgeSet_eq (encode : BitSetSIMD) (u v : Nat) :
    filter.edgeSet c encode u v = setPair (positions c filter) encode u v := by
  cases filter <;> rfl

theorem insertPair_eq (encode : BitSetSIMD) (u v : Nat) :
    filter.insertPair c encode u v = setPair (positions c filter) encode u v := by
  cases filter <;> rfl

theorem nePairTest_eq (encode : BitSetSIMD) (u v : Nat) :
    filter.nePairTest c encode u v = testPair (positions c filter) encode u v := by
  cases filter <;> rfl

include hk hdefined in
/-- No bit lies behind the filter. -/
theorem positions_lt (u v : Nat) : ∀ p ∈ positions c filter u v,
    p < (BFilterBitEncode.fresh c).bitLength := by
  rw [BFilterBitEncode.bitLength_fresh hk]
  cases filter with
  | plain =>
    have hpos : 0 < BFilterBitEncode.hashSize c := by
      have hk₀ := Nat.pos_of_ne_zero c.kSize_ne
      rw [BFilterBitEncode.hashSize_eq hk]
      exact Nat.mul_pos (by omega) (Nat.pos_of_ne_zero c.vertexSize_ne)
    rw [← BFilterBitEncode.hashSize_eq hk]
    exact BFilterEncode.hashVals_lt hpos _ u v
  | blocked => exact BBFilterEncode.positions_lt (Nat.one_le_iff_ne_zero.mpr hdefined) _ u v

/-- A cleared filter stands for no pairs. -/
theorem holds_clear {encode : BitSetSIMD}
    (hlen : encode.data.length = (BFilterBitEncode.fresh c).data.length) :
    Holds c filter [] encode.clear := by
  refine ⟨by rw [BitSetSIMD.length_clear]; exact hlen, fun p => ?_⟩
  simp

include hk hdefined in
/-- Setting the bits of one more pair. -/
theorem Holds.setPair {pairs : List (Nat × Nat)} {encode : BitSetSIMD}
    (h : Holds c filter pairs encode) (u v : Nat) :
    Holds c filter (pairs ++ [(u, v)]) (Vend.setPair (positions c filter) encode u v) := by
  have hlt : ∀ p ∈ positions c filter u v, p < encode.bitLength := by
    intro p hp
    have hrange := positions_lt hk hdefined u v p hp
    unfold BitSetSIMD.bitLength at hrange ⊢
    rwa [h.length]
  obtain ⟨hlen, hbit⟩ := BitSetSIMD.bit_setOnes encode hlt
  refine ⟨hlen.trans h.length, fun p => ?_⟩
  rw [Vend.setPair, hbit, Bool.or_eq_true, h.bit_iff, decide_eq_true_eq]
  constructor
  · rintro (⟨pair, hpair, hp⟩ | hp)
    · exact ⟨pair, List.mem_append_left _ hpair, hp⟩
    · exact ⟨(u, v), by simp, hp⟩
  · rintro ⟨pair, hpair, hp⟩
    rcases List.mem_append.mp hpair with hpair | hpair
    · exact Or.inl ⟨pair, hpair, hp⟩
    · rw [List.mem_singleton.mp hpair] at hp
      exact Or.inr hp

include hk hdefined in
/-- The loop of a build. -/
theorem Holds.foldl {pairs : List (Nat × Nat)} {encode : BitSetSIMD}
    (h : Holds c filter pairs encode) (more : List (Nat × Nat)) :
    Holds c filter (pairs ++ more)
      (more.foldl (fun encode pair => filter.edgeSet c encode pair.1 pair.2) encode) := by
  induction more generalizing pairs encode with
  | nil => simpa using h
  | cons pair more ih =>
    rw [List.foldl_cons, edgeSet_eq]
    have hnext := ih (h.setPair hk hdefined pair.1 pair.2)
    rwa [List.append_assoc] at hnext

/-- The verdict of a filter: a pair is denied exactly when one of its bits is not covered. -/
theorem Holds.nePairTest_iff {pairs : List (Nat × Nat)} {encode : BitSetSIMD}
    (h : Holds c filter pairs encode) (u v : Nat) :
    filter.nePairTest c encode u v = .uncertain ↔
      ∀ p ∈ positions c filter u v, ∃ pair ∈ pairs, p ∈ positions c filter pair.1 pair.2 := by
  rw [nePairTest_eq, testPair]
  simp only [List.any_eq_true, Bool.not_eq_true', BitSetSIMD.isOne_eq_bit]
  constructor
  · intro htest p hp
    by_contra hnone
    rw [if_pos ⟨p, hp, by rw [← Bool.not_eq_true, h.bit_iff]; exact hnone⟩] at htest
    cases htest
  · intro hall
    rw [if_neg]
    rintro ⟨p, hp, hzero⟩
    rw [(h.bit_iff p).mpr (hall p hp)] at hzero
    cases hzero

theorem positions_comm (u v : Nat) : positions c filter u v = positions c filter v u := by
  cases filter with
  | plain => exact BFilterEncode.hashVals_comm _ _ u v
  | blocked => exact BBFilterEncode.positions_comm c _ u v

theorem nePairTest_ne_neighbor (encode : BitSetSIMD) (u v : Nat) :
    filter.nePairTest c encode u v ≠ .neighbor := by
  rw [nePairTest_eq, testPair]
  split <;> simp

end

/-! ## Section 4: Building and loading -/

section

variable {c : Config} {filter : BitFilter}

/-- The pairs that a build hands to `EdgeSet`. -/
def listPairs (lists : List (List Nat)) : List (Nat × Nat) :=
  (List.range' 1 (lists.length - 1)).flatMap fun v => larger v (lists.getD v [])

/-- A build adds the pairs of the adjacency list. -/
theorem Holds.buildEncoding (hk : c.perEncodeBitSize < 2 ^ 31) (hdefined : filter.Defined c)
    {pairs : List (Nat × Nat)} {encode : BitSetSIMD} (h : Holds c filter pairs encode)
    {lists : List (List Nat)} (hlen : lists.length < 2 ^ 32) :
    ∃ encode', BFilterBitVend.buildEncoding c filter lists encode = some encode' ∧
      Holds c filter (pairs ++ listPairs lists) encode' := by
  refine ⟨_, ?_, h.foldl hk hdefined (listPairs lists)⟩
  have hloop : BFilterBitVend.buildEncoding c filter lists encode =
      (listPairs lists).foldlM (fun encode pair =>
        definedIf (filter.Defined c) (filter.edgeSet c) encode pair.1 pair.2) encode := by
    simp only [BFilterBitVend.buildEncoding, FilterVend.buildEncoding, if_pos hlen, listPairs,
      foldlM_flatMap, edgeSets_eq]
  rw [hloop, foldlM_definedIf, if_pos (Or.inl hdefined)]

/-- The loop of `LoadDbData` over the entries of a database. -/
theorem foldlM_assignList {n : Nat} (entries : List (Sigma fun _ : Nat => List UInt8))
    (hnodup : entries.NodupKeys) (hkeys : ∀ e ∈ entries, e.1 < n) (lists : List (List Nat))
    (hlen : lists.length = n) :
    ∃ lists', (entries.map fun e => (e.1, RocksDb.stringToValue e.2)).foldlM assignList lists =
        some lists' ∧ lists'.length = n ∧
      ∀ v, lists'.getD v [] = match entries.dlookup v with
        | none => lists.getD v []
        | some data => RocksDb.stringToValue data := by
  induction entries generalizing lists with
  | nil => exact ⟨lists, rfl, hlen, fun v => rfl⟩
  | cons e entries ih =>
    obtain ⟨key, data⟩ := e
    obtain ⟨hfresh, hrest⟩ := List.nodupKeys_cons.mp hnodup
    have hlt : key < lists.length := hlen ▸ hkeys ⟨key, data⟩ (by simp)
    obtain ⟨lists', hrun, hlen', hget⟩ := ih hrest (fun e he => hkeys e (by simp [he]))
      (lists.set key (RocksDb.stringToValue data)) (by simpa using hlen)
    refine ⟨lists', ?_, hlen', ?_⟩
    · rw [List.map_cons, List.foldlM_cons, assignList, if_pos hlt]
      exact hrun
    · intro v
      rw [hget v]
      by_cases hv : v = key
      · subst hv
        rw [List.dlookup_cons_eq, List.dlookup_eq_none.mpr hfresh]
        simp [List.getD_eq_getElem?_getD, hlt]
      · have hother : List.dlookup v (⟨key, data⟩ :: entries) = entries.dlookup v :=
          List.dlookup_cons_ne (β := fun _ : Nat => List UInt8) entries ⟨key, data⟩ hv
        rw [hother]
        cases entries.dlookup v with
        | none => simp [List.getD_eq_getElem?_getD, Ne.symm hv]
        | some data => rfl

/-- `LoadDbData` replaces the lists of the vertices that have a key. -/
theorem loadDbData_spec {db : RocksDb} (hsize : c.vertexSize + 1 < 2 ^ 32)
    (hkeys : ∀ v, db.lookup v ≠ none → v ≤ c.vertexSize) {lists : List (List Nat)}
    (hlists : lists.length = c.vertexSize + 1) :
    ∃ lists', loadDbData c db lists = some lists' ∧ lists'.length = c.vertexSize + 1 ∧
      ∀ v, lists'.getD v [] = if db.lookup v = none then lists.getD v [] else db.list v := by
  have hupper : c.vertexIdUpper = c.vertexSize + 1 := Nat.mod_eq_of_lt hsize
  obtain ⟨hlen, hget⟩ := LoadData.resize_spec (Or.inl hlists)
  have hin : ∀ e ∈ db.entries, e.1 < c.vertexSize + 1 := by
    intro e he
    have hmem : e.1 ∈ db := AList.mem_keys.mpr (List.mem_map_of_mem he)
    exact Nat.lt_succ_of_le (hkeys e.1 fun hnone => AList.lookup_eq_none.mp hnone hmem)
  obtain ⟨lists', hrun, hlen', hget'⟩ := foldlM_assignList db.entries db.nodupKeys hin _ hlen
  refine ⟨lists', by rw [loadDbData, hupper]; exact hrun, hlen', fun v => ?_⟩
  rw [hget' v]
  change (match db.lookup v with | none => _ | some data => _) = _
  cases hlookup : db.lookup v with
  | none => rw [if_pos rfl, hget v]
  | some data =>
    rw [if_neg (by simp), RocksDb.list, RocksDb.get, hlookup]

end

/-! ## Section 5: Any sequence of calls -/

/-- A vend whose adjacency list has room for the vertices and was not filled beyond the keys
    of its database. -/
structure Starts (c : Config) (filter : BitFilter) (s : State) (pairs : List (Nat × Nat)) :
    Prop where
  keys : ∀ v, s.db.lookup v ≠ none → v ≤ c.vertexSize
  length : s.adjacencyList.length = c.vertexSize + 1
  absent : ∀ v, s.db.lookup v = none → s.adjacencyList.getD v [] = []
  holds : Holds c filter pairs s.encode

/-- Only the lists of vertices are written. -/
def Op.Valid (c : Config) : Op → Prop
  | .put key _ => key ≤ c.vertexSize
  | .insert _ _ => True
  | .delete _ _ => True

section

variable {c : Config} (hk : c.perEncodeBitSize < 2 ^ 31) (hsize : c.vertexSize + 1 < 2 ^ 32)
variable {filter : BitFilter} (hdefined : filter.Defined c)

/-- A written key is there afterwards, and no key goes away. -/
theorem lookup_put_none {db : RocksDb} {key v : Nat} {value : List Nat}
    (h : (db.put key value).lookup v = none) : db.lookup v = none := by
  unfold RocksDb.put at h
  split at h
  · exact h
  · by_cases hv : v = key
    · subst hv
      simp at h
    · rwa [AList.lookup_insert_ne hv] at h

theorem lookup_put_ne_none {db : RocksDb} {key v : Nat} {value : List Nat}
    (h : (db.put key value).lookup v ≠ none) : v = key ∨ db.lookup v ≠ none := by
  by_cases hv : v = key
  · exact Or.inl hv
  · rw [RocksDb.lookup_put_ne db hv] at h
    exact Or.inr h

include hk hsize hdefined in
/-- Rebuilding leaves the pairs of the database. -/
theorem exists_delete {s : State} {pairs : List (Nat × Nat)} (h : Starts c filter s pairs)
    (u v : Nat) : ∃ s', delete c filter s u v = some s' ∧ s'.db = s.db ∧
      Starts c filter s' (storedPairs c.vertexSize s.db) := by
  obtain ⟨lists, hload, hlen, hget⟩ := loadDbData_spec hsize h.keys h.length
  obtain ⟨encode, hbuild, hholds⟩ := (holds_clear h.holds.length).buildEncoding hk hdefined
    (show lists.length < 2 ^ 32 by omega)
  have hlist : ∀ v, lists.getD v [] = s.db.list v := by
    intro v
    rw [hget v]
    split
    next hnone => rw [h.absent v hnone, RocksDb.list_of_lookup_none _ hnone]
    next => rfl
  have hpairs : listPairs lists = storedPairs c.vertexSize s.db := by
    simp only [listPairs, storedPairs, hlen, Nat.add_sub_cancel, hlist]
  refine ⟨⟨s.db, lists, encode⟩, ?_, rfl, h.keys, hlen, ?_, ?_⟩
  · simp only [delete, BitFilter.isDeletable, hload, hbuild, Bool.false_eq_true, if_false,
      Option.bind_eq_bind, Option.bind_some, Option.pure_def]
  · intro v hnone
    rw [hlist v, RocksDb.list_of_lookup_none _ hnone]
  · rw [← hpairs]
    exact hholds

include hk hsize hdefined in
/-- One call. -/
theorem exists_step {s : State} {pairs : List (Nat × Nat)} (h : Starts c filter s pairs) {op : Op}
    (hop : op.Valid c) : ∃ s', step c filter s op = some s' ∧
      s'.db = (note c.vertexSize (s.db, pairs) op).1 ∧
      Starts c filter s' (note c.vertexSize (s.db, pairs) op).2 := by
  cases op with
  | put key value =>
    refine ⟨{ s with db := s.db.put key value }, rfl, rfl, ?_, h.length, ?_, h.holds⟩
    · intro v hv
      rcases lookup_put_ne_none hv with rfl | hv
      · exact hop
      · exact h.keys v hv
    · exact fun v hv => h.absent v (lookup_put_none hv)
  | insert u v =>
    have hinsert : step c filter s (.insert u v) =
        some { s with encode := filter.insertPair c s.encode u v } := by
      simp only [step, insert, definedIf, if_pos hdefined, Option.map_some]
    refine ⟨_, hinsert, rfl, h.keys, h.length, h.absent, ?_⟩
    rw [insertPair_eq]
    exact h.holds.setPair hk hdefined u v
  | delete u v => exact exists_delete hk hsize hdefined h u v

include hk hsize hdefined in
/-- After any sequence of calls the filter has the bits of the noted pairs. -/
theorem exists_run {s : State} {pairs : List (Nat × Nat)} (h : Starts c filter s pairs)
    (ops : List Op) (hops : ∀ op ∈ ops, op.Valid c) :
    ∃ s', run c filter s ops = some s' ∧ s'.db = (contents c.vertexSize (s.db, pairs) ops).1 ∧
      Starts c filter s' (contents c.vertexSize (s.db, pairs) ops).2 := by
  induction ops generalizing s pairs with
  | nil => exact ⟨s, rfl, rfl, h⟩
  | cons op ops ih =>
    obtain ⟨middle, hstep, hdb, hmiddle⟩ := exists_step hk hsize hdefined h (hops op (by simp))
    obtain ⟨s', hrun, hdb', hstarts⟩ := ih hmiddle fun op hop => hops op (by simp [hop])
    rw [hdb] at hdb' hstarts
    refine ⟨s', ?_, hdb', hstarts⟩
    rw [run, List.foldlM_cons, hstep]
    exact hrun

end

/-- The verdict after any sequence of insertions, deletions and writes to the database: a
    pair is denied exactly when one of its bits belongs to no noted pair. So no noted pair
    is denied, in either orientation, and nothing is affirmed. -/
theorem run_verdicts {c : Config} (hk : c.perEncodeBitSize < 2 ^ 31)
    (hsize : c.vertexSize + 1 < 2 ^ 32) {filter : BitFilter} (hdefined : filter.Defined c)
    {s : State} {pairs : List (Nat × Nat)} (h : Starts c filter s pairs) (ops : List Op)
    (hops : ∀ op ∈ ops, op.Valid c) :
    ∃ s', run c filter s ops = some s' ∧
      s'.db = (contents c.vertexSize (s.db, pairs) ops).1 ∧
      (∀ u v, filter.nePairTest c s'.encode u v ≠ .neighbor ∧
        (filter.nePairTest c s'.encode u v = .uncertain ↔ ∀ p ∈ positions c filter u v,
          ∃ pair ∈ (contents c.vertexSize (s.db, pairs) ops).2,
            p ∈ positions c filter pair.1 pair.2)) ∧
      ∀ pair ∈ (contents c.vertexSize (s.db, pairs) ops).2,
        filter.nePairTest c s'.encode pair.1 pair.2 = .uncertain ∧
        filter.nePairTest c s'.encode pair.2 pair.1 = .uncertain := by
  obtain ⟨s', hrun, hdb, hstarts⟩ := exists_run hk hsize hdefined h ops hops
  have hiff := hstarts.holds.nePairTest_iff
  refine ⟨s', hrun, hdb, fun u v => ⟨nePairTest_ne_neighbor _ u v, hiff u v⟩, ?_⟩
  intro pair hpair
  refine ⟨(hiff _ _).mpr fun p hp => ⟨pair, hpair, hp⟩, (hiff _ _).mpr fun p hp => ?_⟩
  rw [positions_comm] at hp
  exact ⟨pair, hpair, hp⟩

/-- Sixteen vertices, an empty database and a cleared filter. -/
def emptyState : State :=
  ⟨∅, List.replicate 17 [], BFilterBitEncode.fresh sixteenConfig⟩

theorem starts_emptyState (filter : BitFilter) : Starts sixteenConfig filter emptyState [] where
  keys := by simp [emptyState]
  length := by decide
  absent v _ := by
    simp only [emptyState, List.getD_eq_getElem?_getD, List.getElem?_replicate]
    split <;> rfl
  holds := by
    have hclear : (BFilterBitEncode.fresh sixteenConfig).clear =
        BFilterBitEncode.fresh sixteenConfig := BitSetSIMD.clear_ofBitSize _
    rw [emptyState, ← hclear]
    exact holds_clear rfl

/-- The pair 3-4 is inserted before the deletion, and 2-7 behind it. -/
def fourCalls : List Op := [.put 1 [2], .insert 3 4, .delete 1 5, .insert 2 7]

theorem contents_fourCalls : (contents 16 (∅, []) fourCalls).2 = [(1, 2), (2, 7)] := by
  decide +kernel

theorem run_verdicts_block : ∃ s', run sixteenConfig .blocked emptyState fourCalls = some s' ∧
    BitFilter.blocked.nePairTest sixteenConfig s'.encode 7 2 = .uncertain ∧
    (BitFilter.blocked.nePairTest sixteenConfig s'.encode 3 4 = .uncertain →
      ∀ p ∈ positions sixteenConfig .blocked 3 4,
        ∃ pair ∈ [(1, 2), (2, 7)], p ∈ positions sixteenConfig .blocked pair.1 pair.2) := by
  have hops : ∀ op ∈ fourCalls, op.Valid sixteenConfig := by
    have hone : 1 ≤ sixteenConfig.vertexSize := by decide
    simp [fourCalls, Op.Valid, hone]
  have hdefined : BitFilter.blocked.Defined sixteenConfig := by decide
  obtain ⟨s', hrun, -, hverdicts, hnoted⟩ := run_verdicts (by decide) (by decide) hdefined
    (starts_emptyState .blocked) fourCalls hops
  change ∀ pair ∈ (contents 16 (∅, []) fourCalls).2, _ at hnoted
  change ∀ u v, _ ∧ (_ ↔ ∀ p ∈ _, ∃ pair ∈ (contents 16 (∅, []) fourCalls).2, _) at hverdicts
  rw [contents_fourCalls] at hnoted hverdicts
  exact ⟨s', hrun, (hnoted (2, 7) (by decide)).2, (hverdicts 3 4).2.mp⟩

end BFilterBitVend

end Vend
