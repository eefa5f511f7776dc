import Vend.Execution.CreateList
import Vend.Execution.PairList
import Vend.Execution.QueryExecution
import Vend.Vend.VendFactory

/-! # Experiments

    The program takes executions one after the other, each of them on what the others have
    left on disk: the database of the graph, a file for each encoding and the files with the
    pairs. A build loads the graph and writes the encoding unless its file is there; the
    other executions load the encoding. Insertions and deletions change the encoding in
    memory only. `Graph::Init` and the `Execute` functions of `src/execution` are modelled
    here, for undirected graphs and with the committed macros `IN_MEMORY`, `SAVE_ENCODE` and
    `SAVE_LIST` all 1.

    Graphs that are not queried have a `db_type_` that no constructor sets. An execution is
    given the value that it finds there, and what the random engine would give it.

    `query_exact` is about all orders of executions: an encoding that was built by a sound
    class makes a query report the same edges as the query without an encoding. The lists
    that a class has to cope with depend on how often the graph was saved before its build.
    `createList_ends_iff` says when a query that has no pair file can come to its end.

    `none` is an execution that does not come to its end.
-/

namespace Vend

namespace Experiment

open LoadData
open CreateList (Chance)

/-! ## Section 1: Model -/

/-- The database, and the contents of the files. -/
structure Disk where
  db : RocksDb
  files : AList fun _ : List Char => List Char

/-- Nothing is there. -/
def Disk.blank : Disk := ⟨∅, ∅⟩

/-- The experiments that keep a list of pairs. -/
inductive PairKind where
  | insert
  | delete
  | randomQuery
  | walkQuery
  deriving DecidableEq, Repr

/-- The names of the pair files in `main.cpp`. -/
def PairKind.name : PairKind → List Char
  | insert => "insert_pair.txt".toList
  | delete => "delete_pair.txtnik".toList
  | randomQuery => "random_query_pair.txt".toList
  | walkQuery => "walk_query_pair_v2.txt".toList

/-- `INSERT_LIST_SIZE`, `DELETE_LIST_SIZE` and `QUERY_LIST_SIZE`. -/
def PairKind.listSize : PairKind → Nat
  | insert => 100000
  | delete => 100000
  | randomQuery => 1000000
  | walkQuery => 1000000

/-- `VERTEX_SIZE`, the option `-t`, the paths of the command line and the classes that
    `GetEncode` hands out. -/
structure Setting where
  vertexSize : Nat
  dbType : Int
  vendPrefix : List Char
  pairPathPrefix : List Char
  getEncode : VendType → Option VendClass

namespace Setting

variable (s : Setting)

def vendPath (vendType : VendType) : List Char := VendFactory.getVendPath s.vendPrefix vendType

def pairPath (kind : PairKind) : List Char := s.pairPathPrefix ++ kind.name

/-- `CreateList` of the execution. -/
def createList (kind : PairKind) (chance : Chance) (db : RocksDb) : Option (List (Nat × Nat)) :=
  match kind with
  | .insert => CreateList.random (fun n => n % s.vertexSize + 1) kind.listSize chance
  | .delete => CreateList.random id kind.listSize chance
  | .randomQuery => CreateList.random id kind.listSize chance
  | .walkQuery => CreateList.walk s.vertexSize db.list kind.listSize chance

/-- `Init()` of the pair list. -/
def initPairs (disk : Disk) (kind : PairKind) (chance : Chance) :
    Option (Disk × List (Nat × Nat)) :=
  match disk.files.lookup (s.pairPath kind) with
  | none => do
    let created ← s.createList kind chance disk.db
    let (pairList, file) ← PairList.init none created
    return ({ disk with files := disk.files.insert (s.pairPath kind) file }, pairList)
  | some file => do
    let (pairList, _) ← PairList.init (some file) []
    return (disk, pairList)

/-- The beginning of `Graph::Init()`. Only type 0 opens a database, from which the lists are
    loaded. -/
def openDb (dbType : Int) (disk : Disk) : Option (List (List Nat)) := do
  guard (dbType = 0)
  loadDataFromDb s.vertexSize disk.db []

/-- `Graph::Init()` with a vend: the lists of the graph and the vend. The data file is given
    to builds only. -/
def initVend (vend : VendClass) (vendType : VendType) (dbType : Int)
    (data : Option (List (Option (Nat × Nat)))) (disk : Disk) :
    Option (Disk × List (List Nat) × vend.State) := do
  let lists ← s.openDb dbType disk
  match disk.files.lookup (s.vendPath vendType), data with
  | none, some file =>
    let lists ← loadData s.vertexSize false file ⟨lists, []⟩
    let state ← vend.buildEncoding disk.db lists.adjacencyList
    let text ← vend.encodePersistent state
    return ({ disk with files := disk.files.insert (s.vendPath vendType) text },
      lists.adjacencyList, state)
  | encode, _ =>
    let state ← vend.loadEncode disk.db lists encode
    return (disk, lists, state)

/-- What the executions with pairs begin with: `Init()` of the graph, and of the pairs. -/
def init (vend : VendClass) (vendType : VendType) (dbType : Int) (kind : PairKind)
    (chance : Chance) (disk : Disk) :
    Option (Disk × List (List Nat) × vend.State × List (Nat × Nat)) := do
  let (disk, lists, state) ← s.initVend vend vendType dbType none disk
  let (disk, pairList) ← s.initPairs disk kind chance
  return (disk, lists, state, pairList)

/-- `BuildExecution::Execute()`. -/
def build (disk : Disk) (vendType : VendType) (data : Option (List (Option (Nat × Nat))))
    (dbType : Int) : Option Disk :=
  if vendType = .noVend then do
    guard (dbType = 0)
    let file ← data
    let db ← SaveData.buildNoVend s.vertexSize false file disk.db
    return { disk with db := db }
  else
    match s.getEncode vendType with
    | none => none
    | some vend => do
      let (disk, _) ← s.initVend vend vendType dbType data disk
      return disk

/-- `InsertExecution::Execute()`. -/
def insert (disk : Disk) (vendType : VendType) (dbType : Int) (chance : Chance) : Option Disk :=
  match s.getEncode vendType with
  | none => none
  | some vend => do
    let (disk, _, state, pairList) ← s.init vend vendType dbType .insert chance disk
    let _ ← pairList.foldlM (fun state pair => vend.insert state pair.1 pair.2) state
    return disk

/-- `DeleteExecution::Execute()`. A bloom filter is built again for each pair, and gets
    nine of them. -/
def delete (disk : Disk) (vendType : VendType) (dbType : Int) (chance : Chance) : Option Disk :=
  match s.getEncode vendType with
  | none => none
  | some vend => do
    let (disk, _, state, pairList) ← s.init vend vendType dbType .delete chance disk
    let pairs := if vendType = .bloomFilterBit then pairList.take 9 else pairList
    let _ ← pairs.foldlM (fun state pair => vend.delete state pair.1 pair.2) state
    return disk

/-- What a query reports: its pairs and the counters. -/
structure Report where
  pairList : List (Nat × Nat)
  counters : QueryExecution.Counters

/-- `QueryExecution::Execute()`, with pairs from a walk or at random. -/
def query (disk : Disk) (vendType : VendType) (kind : PairKind) (chance : Chance) :
    Option (Disk × Report) :=
  if vendType = .noVend then do
    let lists ← s.openDb s.dbType disk
    let (disk, pairList) ← s.initPairs disk kind chance
    let counters ← QueryExecution.countNoVend (testEdgeByAdj ⟨lists, []⟩) pairList
    return (disk, ⟨pairList, counters⟩)
  else
    match s.getEncode vendType with
    | none => none
    | some vend => do
      let (disk, lists, state, pairList) ← s.init vend vendType s.dbType kind chance disk
      let counters ←
        QueryExecution.count (vend.determine state) (testEdgeByAdj ⟨lists, []⟩) pairList
      return (disk, ⟨pairList, counters⟩)

end Setting

/-- An execution, with the `db_type_` that it finds and what the random engine would give. -/
inductive Execution where
  | build (vendType : VendType) (data : Option (List (Option (Nat × Nat)))) (dbType : Int)
  | insert (vendType : VendType) (dbType : Int) (chance : Chance)
  | delete (vendType : VendType) (dbType : Int) (chance : Chance)
  | query (vendType : VendType) (kind : PairKind) (chance : Chance)

/-- What an execution leaves on disk. -/
def execute (s : Setting) (disk : Disk) : Execution → Option Disk
  | .build vendType data dbType => s.build disk vendType data dbType
  | .insert vendType dbType chance => s.insert disk vendType dbType chance
  | .delete vendType dbType chance => s.delete disk vendType dbType chance
  | .query vendType kind chance => (s.query disk vendType kind chance).map Prod.fst

/-- Any executions, one after the other. -/
def run (s : Setting) (disk : Disk) (executions : List Execution) : Option Disk :=
  executions.foldlM (execute s) disk

/-! ## Section 2: What a run has done -/

/-- How often the graph was saved, and how often it had been when an encoding was built. -/
structure History where
  saved : Nat
  builtAfter : VendType → Option Nat

def History.none : History := ⟨0, fun _ => Option.none⟩

/-- Only the first build of an encoding writes its file. -/
def History.note (h : History) : Execution → History
  | .build vendType _ _ =>
    if vendType = .noVend then { h with saved := h.saved + 1 }
    else { h with builtAfter := fun t =>
      if t = vendType then some ((h.builtAfter t).getD h.saved) else h.builtAfter t }
  | .insert _ _ _ => h
  | .delete _ _ _ => h
  | .query _ _ _ => h

/-- The history of a run. -/
def history (executions : List Execution) : History := executions.foldl History.note History.none

/-- Pairs of different vertices, and no more than an `int` can count. -/
structure Pairs (vertexSize : Nat) (pairList : List (Nat × Nat)) : Prop where
  length : pairList.length < 2 ^ 31
  range : ∀ pair ∈ pairList, (1 ≤ pair.1 ∧ pair.1 ≤ vertexSize) ∧
    (1 ≤ pair.2 ∧ pair.2 ≤ vertexSize)
  ne : ∀ pair ∈ pairList, pair.1 ≠ pair.2

/-- What the engine gives: the walk shuffles the vertices, the others draw from 1 to
    `VERTEX_SIZE`. -/
def Fair (vertexSize : Nat) (kind : PairKind) (chance : Chance) : Prop :=
  if kind = .walkQuery then chance.order.Perm (List.range' 1 vertexSize)
  else ∀ n, 1 ≤ chance.draws n ∧ chance.draws n ≤ vertexSize

/-- Builds are given the data file of the graph. -/
def Execution.Valid {vertexSize : Nat} (file : EdgeFile vertexSize) : Execution → Prop
  | .build _ data _ => data = some file.lines
  | .insert _ _ chance => Fair vertexSize .insert chance
  | .delete _ _ chance => Fair vertexSize .delete chance
  | .query _ kind chance => Fair vertexSize kind chance

/-! ## Section 3: Files -/

section

variable {s : Setting} {vendType : VendType}

theorem vendPath_ne_pairPath (ht : vendType ≠ .noVend) (kind : PairKind) :
    s.vendPath vendType ≠ s.pairPath kind := by
  apply VendFactory.getVendPath_ne ht
  · cases kind <;> decide
  · intro t
    cases kind <;> cases t <;> decide

theorem pairPath_inj {kind kind' : PairKind} (h : s.pairPath kind = s.pairPath kind') :
    kind = kind' := by
  have hname : kind.name = kind'.name := List.append_cancel_left h
  revert hname
  cases kind <;> cases kind' <;> decide

/-- The text of an encoding that was built after the graph had been saved `saved` times. -/
def Written (s : Setting) (file : EdgeFile s.vertexSize) (saved : Nat) (vendType : VendType)
    (text : List Char) : Prop :=
  ∃ vend db lists state, s.getEncode vendType = some vend ∧ Copies file (2 ^ saved) lists ∧
    vend.buildEncoding db lists = some state ∧ vend.encodePersistent state = some text

/-- What the history says about the file of an encoding. -/
def Encoded (s : Setting) (file : EdgeFile s.vertexSize) (vendType : VendType) (disk : Disk) :
    Option Nat → Prop
  | none => disk.files.lookup (s.vendPath vendType) = none
  | some saved => ∃ text, disk.files.lookup (s.vendPath vendType) = some text ∧
      Written s file saved vendType text

/-- What a run keeps. -/
structure Holds (s : Setting) (file : EdgeFile s.vertexSize) (h : History) (disk : Disk) :
    Prop where
  stored : SaveData.Stored file (2 ^ h.saved - 1) disk.db
  encoded : ∀ t, t ≠ .noVend → Encoded s file t disk (h.builtAfter t)
  pairs : ∀ kind text, disk.files.lookup (s.pairPath kind) = some text →
    ∃ pairList, Pairs s.vertexSize pairList ∧ PairList.listPersistent pairList = some text

theorem holds_blank (file : EdgeFile s.vertexSize) : Holds s file History.none Disk.blank where
  stored := SaveData.stored_empty file
  encoded _ _ := AList.lookup_empty _
  pairs kind text h := by
    rw [Disk.blank, AList.lookup_empty] at h
    cases h

variable {file : EdgeFile s.vertexSize} {h : History} {disk : Disk}
variable (hsize : s.vertexSize + 1 < 2 ^ 31)

/-- A new pair file. -/
theorem Holds.insertPairs (hholds : Holds s file h disk) {kind : PairKind}
    {created : List (Nat × Nat)} (hcreated : Pairs s.vertexSize created) {text : List Char}
    (htext : PairList.listPersistent created = some text) :
    Holds s file h { disk with files := disk.files.insert (s.pairPath kind) text } := by
  refine ⟨hholds.stored, ?_, ?_⟩
  · intro t ht
    have hold := hholds.encoded t ht
    have hsame : (disk.files.insert (s.pairPath kind) text).lookup (s.vendPath t) =
        disk.files.lookup (s.vendPath t) := AList.lookup_insert_ne (vendPath_ne_pairPath ht kind)
    unfold Encoded at hold ⊢
    rwa [hsame]
  · intro kind' text' hlookup
    by_cases hkind : kind' = kind
    · subst hkind
      rw [AList.lookup_insert, Option.some.injEq] at hlookup
      subst hlookup
      exact ⟨created, hcreated, htext⟩
    · rw [AList.lookup_insert_ne fun heq => hkind (pairPath_inj heq)] at hlookup
      exact hholds.pairs kind' text' hlookup

/-- The file of an encoding that was not there. -/
theorem Holds.insertEncode (hholds : Holds s file h disk) (ht : vendType ≠ .noVend)
    {text : List Char} (hwritten : Written s file h.saved vendType text)
    (hnew : disk.files.lookup (s.vendPath vendType) = none)
    (data : Option (List (Option (Nat × Nat)))) (dbType : Int) :
    Holds s file (h.note (.build vendType data dbType))
      { disk with files := disk.files.insert (s.vendPath vendType) text } := by
  rw [History.note, if_neg ht]
  refine ⟨hholds.stored, ?_, ?_⟩
  · intro t ht'
    have hold := hholds.encoded t ht'
    by_cases heq : t = vendType
    · subst heq
      have hnever : h.builtAfter t = none := by
        cases hbuilt : h.builtAfter t with
        | none => rfl
        | some saved =>
          rw [hbuilt] at hold
          obtain ⟨text', hlookup, -⟩ := hold
          rw [hnew] at hlookup
          cases hlookup
      simp only [if_true, hnever, Option.getD_none]
      exact ⟨text, AList.lookup_insert _, hwritten⟩
    · have hsame : (disk.files.insert (s.vendPath vendType) text).lookup (s.vendPath t) =
          disk.files.lookup (s.vendPath t) :=
        AList.lookup_insert_ne fun hpath => heq (VendFactory.getVendPath_inj ht' ht hpath)
      simp only [if_neg heq]
      unfold Encoded at hold ⊢
      rwa [hsame]
  · intro kind text' hlookup
    rw [AList.lookup_insert_ne (vendPath_ne_pairPath ht kind).symm] at hlookup
    exact hholds.pairs kind text' hlookup

/-- The file of an encoding that was there. -/
theorem Holds.keepEncode (hholds : Holds s file h disk) (ht : vendType ≠ .noVend)
    (hold : disk.files.lookup (s.vendPath vendType) ≠ none)
    (data : Option (List (Option (Nat × Nat)))) (dbType : Int) :
    Holds s file (h.note (.build vendType data dbType)) disk := by
  rw [History.note, if_neg ht]
  refine ⟨hholds.stored, ?_, hholds.pairs⟩
  intro t ht'
  have hencoded := hholds.encoded t ht'
  by_cases heq : t = vendType
  · subst heq
    cases hbuilt : h.builtAfter t with
    | none =>
      rw [hbuilt] at hencoded
      exact absurd hencoded hold
    | some saved =>
      rw [hbuilt] at hencoded
      simp only [if_true, hbuilt, Option.getD_some]
      exact hencoded
  · simpa only [if_neg heq] using hencoded

include hsize in
/-- The graph is saved once more. -/
theorem Holds.save (hholds : Holds s file h disk) :
    ∃ disk', s.build disk .noVend (some file.lines) 0 = some disk' ∧
      Holds s file (h.note (.build .noVend (some file.lines) 0)) disk' := by
  obtain ⟨db, hbuild, hstored⟩ := hholds.stored.buildNoVend file hsize
  have hcopies : 2 * (2 ^ h.saved - 1) + 1 = 2 ^ (h.saved + 1) - 1 := by
    have hpos : 1 ≤ 2 ^ h.saved := Nat.one_le_two_pow
    rw [Nat.pow_succ]
    omega
  rw [hcopies] at hstored
  refine ⟨{ disk with db := db }, ?_, ?_⟩
  · simp only [Setting.build, guard, if_true, hbuild, Option.bind_eq_bind, Option.pure_def,
      Option.bind_some]
  · rw [History.note, if_pos rfl]
    exact ⟨hstored, hholds.encoded, hholds.pairs⟩

include hsize in
/-- The lists that a build gets: those of the database, and the file on top. -/
theorem Holds.copies (hholds : Holds s file h disk) :
    ∃ adj lists, loadDataFromDb s.vertexSize disk.db [] = some adj ∧
      loadData s.vertexSize false file.lines ⟨adj, []⟩ = some lists ∧
      Copies file (2 ^ h.saved) lists.adjacencyList := by
  obtain ⟨adj, hdb, hadjlen, hadj⟩ := loadDataFromDb_spec hsize hholds.stored.fits
  obtain ⟨lists, hload, hlen, hlists, -⟩ := loadData_spec false
    (fun p hp => ⟨(file.range p hp).1.2, (file.range p hp).2.2⟩) ⟨adj, []⟩ hsize
    (Or.inl hadjlen) (by simp)
  have hzero := getD_zero_of_loadData false
    (fun p hp => ⟨(file.range p hp).1.2, (file.range p hp).2.2⟩) ⟨adj, []⟩ hsize
    (Or.inl hadjlen) (by simp) hload
  -- index 0 is no vertex, and its list is not sorted
  have hcount : ∀ v w, (lists.adjacencyList.getD v []).count w =
      if file.Edge v w then 2 ^ h.saved else 0 := by
    intro v w
    have hsort : ∀ l : List Nat, (sort l).count w = l.count w :=
      fun l => (List.perm_insertionSort _ l).count_eq w
    have hpos : 1 ≤ 2 ^ h.saved := Nat.one_le_two_pow
    have hcount := hholds.stored.count v w
    have hboth : (lists.adjacencyList.getD v []).count w =
        (adj.getD v []).count w + ((LoadData.pairs file.lines).flatMap (bothEnds v)).count w := by
      rcases Nat.eq_zero_or_pos v with rfl | hv
      · rw [hzero, List.count_append]
      · rw [hlists v hv, hsort, List.count_append]
    rw [hboth, SaveData.count_bothEnds, hadj v, hsort, hcount]
    split
    · omega
    · rfl
  refine ⟨adj, lists, hdb, hload, hlen, ?_, hcount⟩
  intro v
  rcases Nat.eq_zero_or_pos v with rfl | hv
  · have hempty : lists.adjacencyList.getD 0 [] = [] := by
      apply List.eq_nil_iff_forall_not_mem.mpr
      intro w hw
      have hedge : file.Edge 0 w := by
        by_contra hno
        rw [← List.count_pos_iff, hcount 0 w, if_neg hno] at hw
        exact Nat.lt_irrefl 0 hw
      exact absurd (SaveData.EdgeFile.range_of_edge file hedge).1.1 (by decide)
    rw [hempty]
    exact List.Pairwise.nil
  · rw [hlists v hv]
    exact sorted_sort _

/-! ## Section 4: One execution -/

include hsize in
theorem Pairs.words {pairList : List (Nat × Nat)} (hpairs : Pairs s.vertexSize pairList) :
    PairList.Words pairList := by
  intro pair hpair
  obtain ⟨⟨-, h₁⟩, -, h₂⟩ := hpairs.range pair hpair
  omega

/-- The vertices are drawn at random, or they are neighbours in the database. -/
theorem createList_pairs {copies : Nat} {db : RocksDb} (hstored : SaveData.Stored file copies db)
    {kind : PairKind} {chance : Chance} (hfair : Fair s.vertexSize kind chance)
    {created : List (Nat × Nat)} (hcreate : s.createList kind chance db = some created) :
    Pairs s.vertexSize created ∧ created ≠ [] := by
  have hgood : CreateList.Good (fun v => 1 ≤ v ∧ v ≤ s.vertexSize) kind.listSize created ∧
      created.length = kind.listSize := by
    cases kind with
    | insert =>
      refine CreateList.random_good (fun n => ?_) hcreate
      have hpos : 0 < s.vertexSize := Nat.lt_of_lt_of_le (hfair 0).1 (hfair 0).2
      exact ⟨Nat.le_add_left 1 _, Nat.succ_le_of_lt (Nat.mod_lt _ hpos)⟩
    | delete => exact CreateList.random_good (fun n => hfair n) hcreate
    | randomQuery => exact CreateList.random_good (fun n => hfair n) hcreate
    | walkQuery =>
      refine CreateList.walk_good (fun v w hw => ?_) hcreate
      exact (SaveData.EdgeFile.range_of_edge file ((hstored.mem_iff v w).mp hw).2).2
  have hsome : 0 < kind.listSize ∧ kind.listSize < 2 ^ 31 := by cases kind <;> decide
  refine ⟨⟨Nat.lt_of_le_of_lt hgood.1.length hsome.2, hgood.1.mem, hgood.1.ne⟩, ?_⟩
  exact List.ne_nil_of_length_pos (Nat.lt_of_lt_of_eq hsome.1 hgood.2.symm)

/-- The pairs are drawn, and their file is written. -/
theorem initPairs_new {kind : PairKind} (hnew : disk.files.lookup (s.pairPath kind) = none)
    {chance : Chance} {created : List (Nat × Nat)}
    (hcreate : s.createList kind chance disk.db = some created) (hne : created ≠ []) :
    ∃ text, PairList.listPersistent created = some text ∧
      s.initPairs disk kind chance =
        some ({ disk with files := disk.files.insert (s.pairPath kind) text }, created) := by
  have htext : PairList.listPersistent created =
      some (created.map fun pair => PairList.pairLine pair ++ ['\n']).flatten := by
    rw [PairList.listPersistent, guard, if_pos hne]
    rfl
  refine ⟨_, htext, ?_⟩
  simp only [Setting.initPairs, hnew, hcreate, PairList.init, htext, Option.bind_eq_bind,
    Option.bind_some, Option.pure_def]

/-- Whatever would be drawn, the pairs of the file are taken. -/
theorem initPairs_old {kind : PairKind} {text : List Char}
    (hold : disk.files.lookup (s.pairPath kind) = some text) {pairList : List (Nat × Nat)}
    (hload : PairList.loadPairList text = some pairList) (chance : Chance) :
    s.initPairs disk kind chance = some (disk, pairList) := by
  simp only [Setting.initPairs, hold, PairList.init, hload, Option.bind_eq_bind, Option.bind_some,
    Option.pure_def]

include hsize in
/-- The pairs are those of the file, or they have just been written. -/
theorem Holds.initPairs (hholds : Holds s file h disk) {kind : PairKind} {chance : Chance}
    {pairList : List (Nat × Nat)} (hfair : Fair s.vertexSize kind chance) {disk' : Disk}
    (hinit : s.initPairs disk kind chance = some (disk', pairList)) :
    Holds s file h disk' ∧ Pairs s.vertexSize pairList := by
  cases hlookup : disk.files.lookup (s.pairPath kind) with
  | none =>
    cases hcreate : s.createList kind chance disk.db with
    | none => simp [Setting.initPairs, hlookup, hcreate] at hinit
    | some created =>
      obtain ⟨hpairs, hne⟩ := createList_pairs hholds.stored hfair hcreate
      obtain ⟨text, htext, hnew⟩ := initPairs_new hlookup hcreate hne
      rw [hnew] at hinit
      cases hinit
      exact ⟨hholds.insertPairs hpairs htext, hpairs⟩
  | some text =>
    obtain ⟨old, hold, htext⟩ := hholds.pairs kind text hlookup
    have hload := PairList.loadPairList_listPersistent (hold.words hsize) htext
    rw [initPairs_old hlookup hload chance] at hinit
    cases hinit
    exact ⟨hholds, hold⟩

theorem openDb_eq_some {dbType : Int} {lists : List (List Nat)} :
    s.openDb dbType disk = some lists ↔
      dbType = 0 ∧ loadDataFromDb s.vertexSize disk.db [] = some lists := by
  unfold Setting.openDb guard
  by_cases htype : dbType = 0
  · simp [htype]
  · simp [htype]

/-- Without a data file nothing is written. -/
theorem initVend_eq {vend : VendClass} {dbType : Int} {disk' : Disk}
    {lists : List (List Nat)} {state : vend.State}
    (hinit : s.initVend vend vendType dbType none disk = some (disk', lists, state)) :
    disk' = disk := by
  unfold Setting.initVend at hinit
  obtain ⟨adj, -, hrest⟩ := Option.bind_eq_some_iff.mp hinit
  cases hlookup : disk.files.lookup (s.vendPath vendType) <;>
    simp only [hlookup, Option.bind_eq_bind, Option.bind_eq_some_iff, Option.pure_def,
      Option.some.injEq, Prod.mk.injEq] at hrest <;>
    obtain ⟨-, -, hdisk, -⟩ := hrest <;>
    exact hdisk.symm

include hsize in
/-- A build with an encoding. -/
theorem Holds.initVend (hholds : Holds s file h disk) (ht : vendType ≠ .noVend)
    {vend : VendClass} (hvend : s.getEncode vendType = some vend) {dbType : Int} {disk' : Disk}
    {lists : List (List Nat)} {state : vend.State}
    (hinit : s.initVend vend vendType dbType (some file.lines) disk =
      some (disk', lists, state)) :
    Holds s file (h.note (.build vendType (some file.lines) dbType)) disk' := by
  obtain ⟨adj, loaded, hdb, hload, hcopies⟩ := hholds.copies hsize
  obtain ⟨opened, hopen, hinit⟩ := Option.bind_eq_some_iff.mp hinit
  have hdb' := (openDb_eq_some.mp hopen).2
  rw [hdb, Option.some.injEq] at hdb'
  subst hdb'
  cases hlookup : disk.files.lookup (s.vendPath vendType) with
  | none =>
    simp only [hlookup, hload, Option.bind_eq_bind, Option.bind_some, Option.bind_eq_some_iff,
      Option.pure_def, Option.some.injEq, Prod.mk.injEq] at hinit
    obtain ⟨built, hbuilt, text, htext, rfl, -⟩ := hinit
    exact hholds.insertEncode ht ⟨vend, disk.db, _, built, hvend, hcopies, hbuilt, htext⟩ hlookup _ _
  | some text =>
    simp only [hlookup, Option.bind_eq_bind, Option.bind_eq_some_iff, Option.pure_def,
      Option.some.injEq, Prod.mk.injEq] at hinit
    obtain ⟨-, -, rfl, -⟩ := hinit
    exact hholds.keepEncode ht (by simp [hlookup]) _ _

include hsize in
theorem Holds.build (hholds : Holds s file h disk) {dbType : Int} {disk' : Disk}
    (hbuild : s.build disk vendType (some file.lines) dbType = some disk') :
    Holds s file (h.note (.build vendType (some file.lines) dbType)) disk' := by
  by_cases ht : vendType = .noVend
  · subst ht
    obtain rfl : dbType = 0 := by
      by_contra htype
      simp [Setting.build, guard, htype] at hbuild
    obtain ⟨next, hsave, hnext⟩ := hholds.save hsize
    rw [hbuild, Option.some.injEq] at hsave
    rwa [hsave]
  · rw [Setting.build, if_neg ht] at hbuild
    cases hvend : s.getEncode vendType with
    | none => simp [hvend] at hbuild
    | some vend =>
      simp only [hvend, Option.bind_eq_bind] at hbuild
      obtain ⟨⟨middle, lists, state⟩, hinit, hdisk⟩ := Option.bind_eq_some_iff.mp hbuild
      cases hdisk
      exact hholds.initVend hsize ht hvend hinit

include hsize in
/-- The vend is loaded, then the pairs. -/
theorem Holds.init (hholds : Holds s file h disk) {vend : VendClass} {dbType : Int}
    {kind : PairKind} {chance : Chance} (hfair : Fair s.vertexSize kind chance) {disk' : Disk}
    {lists : List (List Nat)} {state : vend.State} {pairList : List (Nat × Nat)}
    (hinit : s.init vend vendType dbType kind chance disk =
      some (disk', lists, state, pairList)) :
    Holds s file h disk' := by
  obtain ⟨⟨middle, lists', state'⟩, hvend, hrest⟩ := Option.bind_eq_some_iff.mp hinit
  obtain ⟨⟨disk'', pairList'⟩, hpairs, hdone⟩ := Option.bind_eq_some_iff.mp hrest
  cases hdone
  rw [initVend_eq hvend] at hpairs
  exact (hholds.initPairs hsize hfair hpairs).1

include hsize in
theorem Holds.insert (hholds : Holds s file h disk) {dbType : Int} {chance : Chance}
    (hfair : Fair s.vertexSize .insert chance) {disk' : Disk}
    (hinsert : s.insert disk vendType dbType chance = some disk') : Holds s file h disk' := by
  unfold Setting.insert at hinsert
  cases hvend : s.getEncode vendType with
  | none => simp [hvend] at hinsert
  | some vend =>
    rw [hvend] at hinsert
    obtain ⟨⟨middle, lists, state, pairList⟩, hinit, hrest⟩ := Option.bind_eq_some_iff.mp hinsert
    obtain ⟨_, -, hdone⟩ := Option.bind_eq_some_iff.mp hrest
    cases hdone
    exact hholds.init hsize hfair hinit

include hsize in
theorem Holds.delete (hholds : Holds s file h disk) {dbType : Int} {chance : Chance}
    (hfair : Fair s.vertexSize .delete chance) {disk' : Disk}
    (hdelete : s.delete disk vendType dbType chance = some disk') : Holds s file h disk' := by
  unfold Setting.delete at hdelete
  cases hvend : s.getEncode vendType with
  | none => simp [hvend] at hdelete
  | some vend =>
    rw [hvend] at hdelete
    obtain ⟨⟨middle, lists, state, pairList⟩, hinit, hrest⟩ := Option.bind_eq_some_iff.mp hdelete
    obtain ⟨_, -, hdone⟩ := Option.bind_eq_some_iff.mp hrest
    cases hdone
    exact hholds.init hsize hfair hinit

include hsize in
theorem Holds.query (hholds : Holds s file h disk) {kind : PairKind} {chance : Chance}
    (hfair : Fair s.vertexSize kind chance) {r : Disk × Setting.Report}
    (hquery : s.query disk vendType kind chance = some r) : Holds s file h r.1 := by
  unfold Setting.query at hquery
  by_cases ht : vendType = .noVend
  · rw [if_pos ht] at hquery
    obtain ⟨lists, -, hrest⟩ := Option.bind_eq_some_iff.mp hquery
    obtain ⟨⟨disk', pairList⟩, hpairs, hrest'⟩ := Option.bind_eq_some_iff.mp hrest
    obtain ⟨counters, -, hdone⟩ := Option.bind_eq_some_iff.mp hrest'
    cases hdone
    exact (hholds.initPairs hsize hfair hpairs).1
  · rw [if_neg ht] at hquery
    cases hvend : s.getEncode vendType with
    | none => simp [hvend] at hquery
    | some vend =>
      rw [hvend] at hquery
      obtain ⟨⟨disk', lists, state, pairList⟩, hinit, hrest⟩ := Option.bind_eq_some_iff.mp hquery
      obtain ⟨counters, -, hdone⟩ := Option.bind_eq_some_iff.mp hrest
      cases hdone
      exact hholds.init hsize hfair hinit

include hsize in
/-- Any execution that comes to its end. -/
theorem Holds.execute (hholds : Holds s file h disk) {execution : Execution}
    (hvalid : execution.Valid file) {disk' : Disk}
    (hexecute : Experiment.execute s disk execution = some disk') :
    Holds s file (h.note execution) disk' := by
  cases execution with
  | build vendType data dbType =>
    obtain rfl : data = some file.lines := hvalid
    exact hholds.build hsize hexecute
  | insert vendType dbType chance => exact hholds.insert hsize hvalid hexecute
  | delete vendType dbType chance => exact hholds.delete hsize hvalid hexecute
  | query vendType kind chance =>
    obtain ⟨r, hquery, rfl⟩ := Option.map_eq_some_iff.mp hexecute
    exact hholds.query hsize hvalid hquery

include hsize in
/-- Any executions that come to their ends. -/
theorem Holds.run (hholds : Holds s file h disk) {executions : List Execution}
    (hvalid : ∀ execution ∈ executions, execution.Valid file) {disk' : Disk}
    (hrun : Experiment.run s disk executions = some disk') :
    Holds s file (executions.foldl History.note h) disk' := by
  induction executions generalizing h disk with
  | nil =>
    cases hrun
    exact hholds
  | cons execution executions ih =>
    obtain ⟨middle, hexecute, hrest⟩ := Option.bind_eq_some_iff.mp hrun
    exact ih (hholds.execute hsize (hvalid execution (by simp)) hexecute)
      (fun e he => hvalid e (by simp [he])) hrest

/-! ## Section 5: Queries -/

theorem holds_history (hsize : s.vertexSize + 1 < 2 ^ 31) {executions : List Execution}
    (hvalid : ∀ execution ∈ executions, execution.Valid file)
    (hrun : run s Disk.blank executions = some disk) :
    Holds s file (history executions) disk :=
  (holds_blank file).run hsize hvalid hrun

include hsize in
/-- Pairs can be had if there is a file or the drawing ends. -/
theorem Holds.exists_initPairs (hholds : Holds s file h disk) {kind : PairKind} {chance : Chance}
    (hfair : Fair s.vertexSize kind chance)
    (hends : disk.files.lookup (s.pairPath kind) ≠ none ∨
      s.createList kind chance disk.db ≠ none) :
    ∃ disk' pairList, s.initPairs disk kind chance = some (disk', pairList) ∧
      Pairs s.vertexSize pairList := by
  have hsome : ∃ r, s.initPairs disk kind chance = some r := by
    cases hlookup : disk.files.lookup (s.pairPath kind) with
    | none =>
      obtain ⟨created, hcreate⟩ :=
        Option.ne_none_iff_exists'.mp (hends.resolve_left fun hfile => hfile hlookup)
      obtain ⟨text, -, hnew⟩ :=
        initPairs_new hlookup hcreate (createList_pairs hholds.stored hfair hcreate).2
      exact ⟨_, hnew⟩
    | some text =>
      obtain ⟨old, hold, htext⟩ := hholds.pairs kind text hlookup
      have hload := PairList.loadPairList_listPersistent (hold.words hsize) htext
      exact ⟨_, initPairs_old hlookup hload chance⟩
  obtain ⟨⟨disk', pairList⟩, hinit⟩ := hsome
  exact ⟨disk', pairList, hinit, (hholds.initPairs hsize hfair hinit).2⟩

include hsize in
/-- The graph is tested correctly once it has been saved. -/
theorem Holds.testEdge (hholds : Holds s file h disk) (hsaved : 1 ≤ h.saved) :
    ∃ lists, loadDataFromDb s.vertexSize disk.db [] = some lists ∧
      ∀ pair : Nat × Nat, pair.1 ≤ s.vertexSize → pair.2 ≤ s.vertexSize →
        testEdgeByAdj ⟨lists, []⟩ pair.1 pair.2 = some (decide (file.Edge pair.1 pair.2)) := by
  obtain ⟨lists, hload, -⟩ := loadDataFromDb_spec hsize hholds.stored.fits
  refine ⟨lists, hload, fun pair h₁ h₂ => ?_⟩
  have htest := hholds.stored.testStored file hsize h₁ h₂
  rw [SaveData.testStored, hload, Option.bind_eq_bind, Option.bind_some] at htest
  have hcopies : 1 ≤ 2 ^ h.saved - 1 := by
    have hpow : 2 ^ 1 ≤ 2 ^ h.saved := Nat.pow_le_pow_right (by decide) hsaved
    omega
  rw [htest]
  simp only [hcopies, true_and]

include hsize in
/-- The first build of a sound class ends. -/
theorem Holds.exists_build (hholds : Holds s file h disk) (ht : vendType ≠ .noVend)
    {vend : VendClass} (hvend : s.getEncode vendType = some vend)
    (hnever : h.builtAfter vendType = none) (hsound : vend.Sound file (2 ^ h.saved)) :
    ∃ disk', s.build disk vendType (some file.lines) 0 = some disk' := by
  obtain ⟨adj, lists, hdb, hload, hcopies⟩ := hholds.copies hsize
  have hopen : s.openDb 0 disk = some adj := openDb_eq_some.mpr ⟨rfl, hdb⟩
  obtain ⟨state, text, hbuild, hwrite, -⟩ := hsound disk.db _ hcopies
  have hnew := hholds.encoded vendType ht
  rw [hnever] at hnew
  have hlookup : disk.files.lookup (s.vendPath vendType) = none := hnew
  unfold Setting.build
  rw [if_neg ht, hvend]
  simp only [Setting.initVend, hopen, hlookup, hload, hbuild, hwrite, Option.bind_eq_bind,
    Option.bind_some, Option.pure_def]
  exact ⟨_, rfl⟩

/-- The pairs of a list that are edges. -/
def edgeCount {vertexSize : Nat} (file : EdgeFile vertexSize) (pairList : List (Nat × Nat)) : Nat :=
  pairList.countP fun pair => decide (file.Edge pair.1 pair.2)

include hsize in
/-- The query without an encoding counts the edges. -/
theorem Holds.queryNoVend (hholds : Holds s file h disk) (htype : s.dbType = 0)
    (hsaved : 1 ≤ h.saved) {kind : PairKind} {chance : Chance} {pairList : List (Nat × Nat)}
    {disk' : Disk} (hinit : s.initPairs disk kind chance = some (disk', pairList))
    (hpairs : Pairs s.vertexSize pairList) :
    s.query disk .noVend kind chance =
      some (disk', ⟨pairList, ⟨edgeCount file pairList, 0, 0, 0⟩⟩) := by
  obtain ⟨lists, hload, htest⟩ := hholds.testEdge hsize hsaved
  have hcount := QueryExecution.countNoVend_spec hpairs.length
    fun pair hpair => htest pair (hpairs.range pair hpair).1.2 (hpairs.range pair hpair).2.2
  have hopen : s.openDb s.dbType disk = some lists := openDb_eq_some.mpr ⟨htype, hload⟩
  unfold Setting.query
  rw [if_pos rfl]
  simp only [hopen, hinit, hcount, Option.bind_eq_bind, Option.bind_some, Option.pure_def]
  rfl

/-- The file of an encoding that was built by a sound class is there, and it is loaded. -/
theorem Holds.exists_loadEncode (hholds : Holds s file h disk) (ht : vendType ≠ .noVend)
    {vend : VendClass} (hvend : s.getEncode vendType = some vend) {saved : Nat}
    (hbuilt : h.builtAfter vendType = some saved) (hsound : vend.Sound file (2 ^ saved))
    (db : RocksDb) (lists : List (List Nat)) :
    ∃ text loaded, disk.files.lookup (s.vendPath vendType) = some text ∧
      vend.loadEncode db lists (some text) = some loaded ∧ vend.Agrees file loaded := by
  have hencoded := hholds.encoded vendType ht
  rw [hbuilt] at hencoded
  obtain ⟨text, hlookup, vend', db', built, state, hvend', hcopies, hbuild, hwrite⟩ := hencoded
  rw [hvend, Option.some.injEq] at hvend'
  subst hvend'
  -- the file holds what the class has written, and it loads what it has written
  obtain ⟨state', text', hbuild', hwrite', hloads⟩ := hsound db' built hcopies
  rw [hbuild, Option.some.injEq] at hbuild'
  subst hbuild'
  rw [hwrite, Option.some.injEq] at hwrite'
  subst hwrite'
  obtain ⟨loaded, hloaded, hagrees⟩ := hloads db lists
  exact ⟨text, loaded, hlookup, hloaded, hagrees⟩

include hsize in
/-- The query with an encoding that agrees with the graph counts the same edges. -/
theorem Holds.queryVend (hholds : Holds s file h disk) (htype : s.dbType = 0)
    (hsaved : 1 ≤ h.saved) (ht : vendType ≠ .noVend) {vend : VendClass}
    (hvend : s.getEncode vendType = some vend) {saved : Nat}
    (hbuilt : h.builtAfter vendType = some saved) (hsound : vend.Sound file (2 ^ saved))
    {kind : PairKind} {chance : Chance} {pairList : List (Nat × Nat)} {disk' : Disk}
    (hinit : s.initPairs disk kind chance = some (disk', pairList))
    (hpairs : Pairs s.vertexSize pairList) :
    ∃ counters, s.query disk vendType kind chance = some (disk', ⟨pairList, counters⟩) ∧
      counters.res = edgeCount file pairList ∧
      counters.res + counters.trueFalse + counters.fItems = pairList.length := by
  obtain ⟨lists, hload, htest⟩ := hholds.testEdge hsize hsaved
  obtain ⟨text, loaded, hlookup, hloaded, hagrees⟩ :=
    hholds.exists_loadEncode ht hvend hbuilt hsound disk.db lists
  have hopen : s.openDb s.dbType disk = some lists := openDb_eq_some.mpr ⟨htype, hload⟩
  have hinitVend : s.init vend vendType s.dbType kind chance disk =
      some (disk', lists, loaded, pairList) := by
    simp only [Setting.init, Setting.initVend, hopen, hlookup, hloaded, hinit, Option.bind_eq_bind,
      Option.bind_some, Option.pure_def]
  generalize hverdicts : (fun pair : Nat × Nat =>
    (vend.determine loaded pair.1 pair.2).getD .uncertain) = type
  have hverdict : ∀ pair ∈ pairList, vend.determine loaded pair.1 pair.2 = some (type pair) ∧
      QueryExecution.Agrees type (fun pair => decide (file.Edge pair.1 pair.2)) pair := by
    intro pair hpair
    obtain ⟨⟨h₁, h₁'⟩, h₂, h₂'⟩ := hpairs.range pair hpair
    obtain ⟨verdict, hdetermine, hneighbor, hnon⟩ :=
      hagrees pair.1 pair.2 h₁ h₁' h₂ h₂' (hpairs.ne pair hpair)
    have heq : type pair = verdict := by
      rw [← hverdicts]
      simp only [hdetermine, Option.getD_some]
    rw [hdetermine, QueryExecution.Agrees, heq]
    exact ⟨rfl, fun h => decide_eq_true (hneighbor h), fun h => decide_eq_false (hnon h)⟩
  have hcount := QueryExecution.count_spec hpairs.length (fun pair hpair => (hverdict pair hpair).1)
    fun pair hpair => htest pair (hpairs.range pair hpair).1.2 (hpairs.range pair hpair).2.2
  refine ⟨_, ?_, QueryExecution.res_totals fun pair hpair => (hverdict pair hpair).2,
    QueryExecution.length_totals⟩
  unfold Setting.query
  rw [if_neg ht, hvend]
  simp only [hinitVend, hcount, Option.bind_eq_bind, Option.bind_some, Option.pure_def]

end

/-- After any builds, insertions, deletions and queries in any order: once the graph has been
    saved, a query with an encoding that was built by a class which is sound for the lists
    that it got ends, if there is a pair file or the drawing ends, and it reports the edges
    that the query without an encoding reports on the same pairs. -/
theorem query_exact {s : Setting} {file : EdgeFile s.vertexSize}
    (hsize : s.vertexSize + 1 < 2 ^ 31) (htype : s.dbType = 0) {executions : List Execution}
    (hvalid : ∀ execution ∈ executions, execution.Valid file) {disk : Disk}
    (hrun : run s Disk.blank executions = some disk) (hsaved : 1 ≤ (history executions).saved)
    {vendType : VendType} (ht : vendType ≠ .noVend) {vend : VendClass}
    (hvend : s.getEncode vendType = some vend) {saved : Nat}
    (hbuilt : (history executions).builtAfter vendType = some saved)
    (hsound : vend.Sound file (2 ^ saved)) {kind : PairKind} {chance : Chance}
    (hfair : Fair s.vertexSize kind chance)
    (hends : disk.files.lookup (s.pairPath kind) ≠ none ∨
      s.createList kind chance disk.db ≠ none) :
    ∃ disk' pairList counters,
      s.query disk vendType kind chance = some (disk', ⟨pairList, counters⟩) ∧
      s.query disk .noVend kind chance =
        some (disk', ⟨pairList, ⟨edgeCount file pairList, 0, 0, 0⟩⟩) ∧
      counters.res = edgeCount file pairList ∧
      counters.res + counters.trueFalse + counters.fItems = pairList.length := by
  have hholds := holds_history hsize hvalid hrun
  obtain ⟨disk', pairList, hinit, hpairs⟩ := hholds.exists_initPairs hsize hfair hends
  obtain ⟨counters, hquery, hres, hlen⟩ :=
    hholds.queryVend hsize htype hsaved ht hvend hbuilt hsound hinit hpairs
  exact ⟨disk', pairList, counters, hquery, hholds.queryNoVend hsize htype hsaved hinit hpairs,
    hres, hlen⟩

/-- Sixteen vertices, the three classes and no others. -/
def sixteen : Setting where
  vertexSize := 16
  dbType := 0
  vendPrefix := []
  pairPathPrefix := []
  getEncode := VendFactory.getEncode sixteenConfig fun _ => none

/-- The blocked filter is built between two builds of the graph. -/
def threeBuilds : List Execution :=
  [.build .noVend (some threeEdges.lines) 0, .build .bBloomFilter (some threeEdges.lines) 0,
    .build .noVend (some threeEdges.lines) 0]

theorem query_exact_sixteen : ∃ disk disk' pairList counters,
    run sixteen Disk.blank threeBuilds = some disk ∧
    sixteen.query disk .bBloomFilter .randomQuery ⟨[], CreateList.alternate 1 2, 1000000⟩ =
      some (disk', ⟨pairList, counters⟩) ∧
    counters.res = edgeCount threeEdges pairList := by
  have hsize : sixteen.vertexSize + 1 < 2 ^ 31 := by decide
  have hblank : Holds sixteen threeEdges History.none Disk.blank := holds_blank _
  have hblocks : sixteenConfig.blockNums ≠ 0 := by decide
  have hdefined : BFilterBitVend.BitFilter.blocked.Defined sixteenConfig := hblocks
  have hvend : sixteen.getEncode .bBloomFilter =
      some (BFilterBitVend.vendClass sixteenConfig .blocked) := rfl
  have hsound : (BFilterBitVend.vendClass sixteenConfig .blocked).Sound threeEdges (2 ^ 1) :=
    BFilterBitVend.sound (c := sixteenConfig) (by decide) (by decide) (by decide) hdefined
  -- the three builds end
  obtain ⟨disk₁, hbuild₁, hholds₁⟩ := hblank.save hsize
  obtain ⟨disk₂, hbuild₂⟩ := hholds₁.exists_build hsize (by decide) hvend rfl hsound
  obtain ⟨disk₃, hbuild₃, -⟩ := (hholds₁.build hsize hbuild₂).save hsize
  have hrun : run sixteen Disk.blank threeBuilds = some disk₃ := by
    simp only [run, threeBuilds, List.foldlM_cons, List.foldlM_nil, execute, hbuild₁, hbuild₂,
      hbuild₃, Option.bind_eq_bind, Option.bind_some, Option.pure_def]
  have hvalid : ∀ execution ∈ threeBuilds, @Execution.Valid 16 threeEdges execution := by
    simp [threeBuilds, Execution.Valid]
  -- 1 and 2 are drawn over and over
  have hdraws := CreateList.alternate_eq 1 2
  have hfair : Fair 16 .randomQuery ⟨[], CreateList.alternate 1 2, 1000000⟩ := by
    intro n
    rcases hdraws n with h | h <;> simp [h]
  have hcreate : ∀ db, sixteen.createList .randomQuery
      ⟨[], CreateList.alternate 1 2, 1000000⟩ db ≠ none :=
    fun db => CreateList.exists_random (Nat.le_refl _) (CreateList.alternate_ne (by decide))
  obtain ⟨disk', pairList, counters, hquery, -, hres, -⟩ := query_exact hsize rfl hvalid hrun
    (by decide) (by decide) hvend rfl hsound hfair (Or.inr (hcreate disk₃.db))
  exact ⟨_, disk', pairList, counters, hrun, hquery, hres⟩

/-! ## Section 6: When the drawing ends -/

/-- Different vertices are drawn again and again, or no two vertices are different. -/
theorem createList_random_ends_iff {s : Setting} {file : EdgeFile s.vertexSize} {copies : Nat}
    {db : RocksDb} (hstored : SaveData.Stored file copies db) {kind : PairKind}
    (hkind : kind ≠ .walkQuery) (order : List Nat) :
    (∃ draws rounds, Fair s.vertexSize kind ⟨order, draws, rounds⟩ ∧
      s.createList kind ⟨order, draws, rounds⟩ db ≠ none) ↔ 2 ≤ s.vertexSize := by
  constructor
  · rintro ⟨draws, rounds, hfair, hends⟩
    obtain ⟨created, hcreate⟩ := Option.ne_none_iff_exists'.mp hends
    obtain ⟨hpairs, hne⟩ := createList_pairs hstored hfair hcreate
    obtain ⟨pair, hpair⟩ := List.exists_mem_of_ne_nil created hne
    have hrange := hpairs.range pair hpair
    have hdiffer := hpairs.ne pair hpair
    omega
  · intro htwo
    refine ⟨CreateList.alternate 1 2, kind.listSize, ?_, ?_⟩
    · rw [Fair, if_neg hkind]
      intro n
      rcases CreateList.alternate_eq 1 2 n with h | h <;> simp only [h] <;> omega
    · cases kind with
      | insert =>
        -- a number that is drawn goes to the next vertex, and the last one to vertex 1
        have hnext : 1 % s.vertexSize + 1 ≠ 2 % s.vertexSize + 1 := by
          rcases Nat.eq_or_lt_of_le htwo with h | h
          · rw [← h]
            decide
          · rw [Nat.mod_eq_of_lt htwo, Nat.mod_eq_of_lt h]
            decide
        exact CreateList.exists_random (Nat.le_refl _)
          (@CreateList.alternate_ne (fun n => n % s.vertexSize + 1) 1 2 hnext)
      | delete =>
        exact CreateList.exists_random (Nat.le_refl _) (CreateList.alternate_ne (by decide))
      | randomQuery =>
        exact CreateList.exists_random (Nat.le_refl _) (CreateList.alternate_ne (by decide))
      | walkQuery => exact absurd rfl hkind

/-- A walk through the vertices of the graph. -/
theorem createList_walk_ends_iff {s : Setting} {file : EdgeFile s.vertexSize}
    (hsize : s.vertexSize + 1 < 2 ^ 31) {copies : Nat} (hcopies : 1 ≤ copies)
    (hlen : s.vertexSize * copies < 2 ^ 31) {db : RocksDb}
    (hstored : SaveData.Stored file copies db) {order : List Nat}
    (horder : order.Perm (List.range' 1 s.vertexSize)) :
    (∃ draws rounds, s.createList .walkQuery ⟨order, draws, rounds⟩ db ≠ none) ↔
      ∃ v a b, file.Edge v a ∧ file.Edge v b ∧ a ≠ b := by
  have hmem : ∀ v w, w ∈ db.list v ↔ file.Edge v w :=
    fun v w => (hstored.mem_iff v w).trans (and_iff_right hcopies)
  have hends := @CreateList.walk_ends_iff PairKind.walkQuery.listSize db.list s.vertexSize hsize
    (by decide) (fun v => Nat.lt_of_le_of_lt (hstored.length_le v) hlen) order
  refine hends.trans ⟨?_, ?_⟩
  · rintro ⟨v, -, a, ha, b, hb, hne⟩
    exact ⟨v, a, b, (hmem v a).mp ha, (hmem v b).mp hb, hne⟩
  · rintro ⟨v, a, b, ha, hb, hne⟩
    have hrange := (SaveData.EdgeFile.range_of_edge file ha).1
    have hv : v ∈ order := by
      rw [horder.mem_iff, List.mem_range'_1]
      omega
    exact ⟨v, hv, a, (hmem v a).mpr ha, b, (hmem v b).mpr hb, hne⟩

/-- On a database with the graph and for every shuffled order, some draws let `CreateList` come
    to its end if and only if there are two vertices or, for a walk, some vertex has two
    different neighbours. -/
theorem createList_ends_iff {s : Setting} {file : EdgeFile s.vertexSize}
    (hsize : s.vertexSize + 1 < 2 ^ 31) {copies : Nat} (hcopies : 1 ≤ copies)
    (hlen : s.vertexSize * copies < 2 ^ 31) {db : RocksDb}
    (hstored : SaveData.Stored file copies db) {order : List Nat}
    (horder : order.Perm (List.range' 1 s.vertexSize)) (kind : PairKind) :
    (∃ draws rounds, Fair s.vertexSize kind ⟨order, draws, rounds⟩ ∧
      s.createList kind ⟨order, draws, rounds⟩ db ≠ none) ↔
      if kind = .walkQuery then ∃ v a b, file.Edge v a ∧ file.Edge v b ∧ a ≠ b
      else 2 ≤ s.vertexSize := by
  by_cases hkind : kind = .walkQuery
  · subst hkind
    rw [if_pos rfl, ← createList_walk_ends_iff hsize hcopies hlen hstored horder]
    refine exists_congr fun draws => exists_congr fun rounds => and_iff_right ?_
    exact (if_pos rfl).mpr horder
  · rw [if_neg hkind]
    exact createList_random_ends_iff hstored hkind order

/-- The vertices of the edge 1-2. -/
def twoVertices : Setting := { sixteen with vertexSize := 2 }

/-- No walk comes to its end there, and random queries can. -/
theorem createList_ends_iff_onePair : ∃ db,
    SaveData.buildNoVend 2 false onePair.lines ∅ = some db ∧
    (∀ draws rounds, twoVertices.createList .walkQuery ⟨[2, 1], draws, rounds⟩ db = none) ∧
    ∃ draws rounds, twoVertices.createList .randomQuery ⟨[2, 1], draws, rounds⟩ db ≠ none := by
  obtain ⟨db, hbuild, hstored⟩ := (SaveData.stored_empty onePair).buildNoVend onePair (by decide)
  have horder : [2, 1].Perm (List.range' 1 2) := by decide
  have hends := fun kind => @createList_ends_iff twoVertices onePair (by decide) 1 (by decide)
    (by decide) db hstored _ horder kind
  refine ⟨db, hbuild, ?_, ?_⟩
  · have halone : ∀ v a b, onePair.Edge v a → onePair.Edge v b → a = b := by
      intro v a b ha hb
      have hpairs : LoadData.pairs onePair.lines = [(1, 2)] := rfl
      rw [EdgeFile.Edge, hpairs] at ha hb
      simp only [List.mem_singleton, Prod.mk.injEq] at ha hb
      omega
    intro draws rounds
    by_contra hsome
    obtain ⟨v, a, b, ha, hb, hne⟩ := (hends .walkQuery).mp ⟨draws, rounds, horder, hsome⟩
    exact hne (halone v a b ha hb)
  · obtain ⟨draws, rounds, -, hsome⟩ := (hends .randomQuery).mpr (Nat.le_refl 2)
    exact ⟨draws, rounds, hsome⟩

end Experiment

end Vend
