import Vend.Execution.Experiment
import Vend.Vend.RecordVend

/-! # The program

    `main.cpp` goes through its list of types once for each kind of experiment that the
    command line asks for: builds, insertions, deletions, and queries of both kinds. All of
    them work on one database and on the files that earlier ones, or earlier starts of the
    program, have left behind.

    `starts_report` is about a program that is started over and over to build and to query.
    If the first start has drawn its pairs, every start comes to its end, although each of them
    saves the graph once more on top of what is there, and all types report the same edges. The
    encodings were built by the first start, behind the build of the graph, so their classes
    have to cope with lists that hold every neighbour twice.
-/

namespace Vend

namespace Experiment

open LoadData
open CreateList (Chance)

/-! ## Section 1: Model -/

/-- `types`. -/
def types : List VendType :=
  [.noVend, .bloomFilterInt, .bBloomFilter, .cBloomFilter, .hashBit, .hybrid, .bloomFilterBit,
    .range, .bloom, .count, .hybridDelta, .simdDelta, .simdDeltaV1, .simdDeltaV2, .simdDeltaV3,
    .rangeBits, .rangeVbyte, .rangeDelta, .directHybrid, .directSIMD]

/-- The options that choose the experiments and the types. -/
structure Flags where
  isSkip : List Int
  isBuild : Bool
  isInsert : Bool
  isDelete : Bool
  isRandomQuery : Bool
  isWalkQuery : Bool

/-- The types of a loop that begins with index `first`. -/
def Flags.plan (flags : Flags) (first : Nat) : List VendType :=
  ((types.zipIdx.drop first).filter fun t => (t.2 : Int) ∉ flags.isSkip).map Prod.fst

/-- What a start of the program finds: the `db_type_` of each build and of each update, and what
    the random engine gives to each execution. -/
structure Found where
  buildDbType : VendType → Int
  dbType : PairKind → VendType → Int
  chance : PairKind → VendType → Chance

namespace Setting

variable (s : Setting)

/-- A loop of queries: the disk and the reports. -/
def queries (kind : PairKind) (chance : VendType → Chance) :
    List VendType → Disk → Option (Disk × List Report)
  | [], disk => some (disk, [])
  | vendType :: plan, disk => do
    let (disk, report) ← s.query disk vendType kind (chance vendType)
    let (disk, reports) ← queries kind chance plan disk
    return (disk, report :: reports)

/-- `main` on a graph that is not directed, with the content of the data file: the disk, and the
    reports of the random queries and of the walks. -/
def main (flags : Flags) (data : Option (List (Option (Nat × Nat)))) (found : Found)
    (disk : Disk) : Option (Disk × List Report × List Report) := do
  -- `skip[v] = true`
  guard (∀ v ∈ flags.isSkip, 0 ≤ v ∧ v < types.length)
  let disk ← if flags.isBuild then
      (flags.plan 0).foldlM
        (fun disk vendType => s.build disk vendType data (found.buildDbType vendType)) disk
    else some disk
  -- the plan of an update begins behind `NoVend`
  let disk ← if flags.isInsert then
      (flags.plan 1).foldlM (fun disk vendType => s.insert disk vendType
        (found.dbType .insert vendType) (found.chance .insert vendType)) disk
    else some disk
  let disk ← if flags.isDelete then
      (flags.plan 1).foldlM (fun disk vendType => s.delete disk vendType
        (found.dbType .delete vendType) (found.chance .delete vendType)) disk
    else some disk
  let (disk, random) ← (if flags.isRandomQuery then
      s.queries .randomQuery (found.chance .randomQuery) (flags.plan 0) disk
    else some (disk, []))
  let (disk, walk) ← (if flags.isWalkQuery then
      s.queries .walkQuery (found.chance .walkQuery) (flags.plan 0) disk
    else some (disk, []))
  return (disk, random, walk)

/-- `n` starts of the program and one more: the disk, and what the last one reports. -/
def starts (flags : Flags) (data : Option (List (Option (Nat × Nat)))) (found : Nat → Found)
    (disk : Disk) : Nat → Option (Disk × List Report × List Report)
  | 0 => s.main flags data (found 0) disk
  | n + 1 => do
    let (disk, _) ← starts flags data found disk n
    s.main flags data (found (n + 1)) disk

end Setting

/-! ## Section 2: The plan -/

section

variable {flags : Flags}

theorem ne_noVend_of_mem_plan {vendType : VendType} (h : vendType ∈ flags.plan 1) :
    vendType ≠ .noVend := by
  obtain ⟨t, ht, rfl⟩ := List.mem_map.mp h
  have hmem := (List.mem_filter.mp ht).1
  have hall : ∀ t ∈ types.zipIdx.drop 1, t.1 ≠ .noVend := by decide
  exact hall t hmem

theorem plan_zero (hskip : 0 ∉ flags.isSkip) : flags.plan 0 = .noVend :: flags.plan 1 := by
  have htypes : types.zipIdx.drop 0 = (.noVend, 0) :: types.zipIdx.drop 1 := rfl
  rw [Flags.plan, htypes, List.filter_cons_of_pos (by simpa using hskip), List.map_cons]
  rfl

end

/-! ## Section 3: The pairs -/

section

variable {s : Setting} {disk disk' : Disk} {kind : PairKind}

/-- The pairs of a kind are those of its file. -/
def Drawn (s : Setting) (kind : PairKind) (pairList : List (Nat × Nat)) (disk : Disk) : Prop :=
  ∃ text, disk.files.lookup (s.pairPath kind) = some text ∧
    PairList.loadPairList text = some pairList

/-- The pairs of a kind are those of its file, or they are drawn next. -/
def Due (s : Setting) (kind : PairKind) (chance : Chance) (pairList : List (Nat × Nat))
    (disk : Disk) : Prop :=
  (disk.files.lookup (s.pairPath kind) = none ∧
    s.createList kind chance disk.db = some pairList) ∨ Drawn s kind pairList disk

/-- The file of the pairs is the same. -/
def SameFile (s : Setting) (kind : PairKind) (disk disk' : Disk) : Prop :=
  disk'.files.lookup (s.pairPath kind) = disk.files.lookup (s.pairPath kind)

variable {chance : Chance} {pairList : List (Nat × Nat)}

theorem SameFile.drawn (h : SameFile s kind disk disk') (hdrawn : Drawn s kind pairList disk) :
    Drawn s kind pairList disk' := by
  obtain ⟨text, hlookup, hload⟩ := hdrawn
  exact ⟨text, h.trans hlookup, hload⟩

theorem SameFile.due (h : SameFile s kind disk disk') (hdb : disk'.db = disk.db)
    (hdue : Due s kind chance pairList disk) : Due s kind chance pairList disk' := by
  refine hdue.imp (fun hnew => ⟨Eq.trans h hnew.1, ?_⟩) h.drawn
  rw [hdb]
  exact hnew.2

theorem SameFile.trans {disk'' : Disk} (h : SameFile s kind disk disk')
    (h' : SameFile s kind disk' disk'') : SameFile s kind disk disk'' :=
  Eq.trans h' h

theorem Drawn.initPairs (hdrawn : Drawn s kind pairList disk) (chance : Chance) :
    s.initPairs disk kind chance = some (disk, pairList) := by
  obtain ⟨text, hlookup, hload⟩ := hdrawn
  exact initPairs_old hlookup hload chance

/-- The pairs are there afterwards, and the database and the files of the other kinds are as
    before. -/
theorem Holds.drawPairs {file : EdgeFile s.vertexSize} {h : History}
    (hsize : s.vertexSize + 1 < 2 ^ 31) (hholds : Holds s file h disk)
    (hdue : Due s kind chance pairList disk) (hpairs : Pairs s.vertexSize pairList)
    (hne : pairList ≠ []) :
    ∃ disk', s.initPairs disk kind chance = some (disk', pairList) ∧ Holds s file h disk' ∧
      Drawn s kind pairList disk' ∧ disk'.db = disk.db ∧
      ∀ kind', kind' ≠ kind → SameFile s kind' disk disk' := by
  rcases hdue with ⟨hnone, hcreate⟩ | hdrawn
  · obtain ⟨text, htext, hnew⟩ := initPairs_new hnone hcreate hne
    have hload := PairList.loadPairList_listPersistent (hpairs.words hsize) htext
    refine ⟨_, hnew, hholds.insertPairs hpairs htext, ⟨text, AList.lookup_insert _, hload⟩, rfl,
      ?_⟩
    intro kind' hkind
    exact AList.lookup_insert_ne fun heq => hkind (pairPath_inj heq)
  · exact ⟨disk, hdrawn.initPairs chance, hholds, hdrawn, rfl, fun _ _ => rfl⟩

/-- The build of the graph leaves the files as they are. -/
theorem build_noVend {lines : List (Option (Nat × Nat))} {dbType : Int}
    (hbuild : s.build disk .noVend (some lines) dbType = some disk') :
    SaveData.buildNoVend s.vertexSize false lines disk.db = some disk'.db ∧
      ∀ kind, SameFile s kind disk disk' := by
  rw [Setting.build, if_pos rfl] at hbuild
  obtain ⟨-, -, hbuild⟩ := Option.bind_eq_some_iff.mp hbuild
  rw [Option.bind_eq_bind, Option.bind_some] at hbuild
  obtain ⟨db, hdb, hdone⟩ := Option.bind_eq_some_iff.mp hbuild
  cases hdone
  exact ⟨hdb, fun _ => rfl⟩

/-- The build of an encoding leaves the database and the pairs as they are. -/
theorem build_encode {vendType : VendType} (ht : vendType ≠ .noVend)
    {data : Option (List (Option (Nat × Nat)))} {dbType : Int}
    (hbuild : s.build disk vendType data dbType = some disk') :
    disk'.db = disk.db ∧ ∀ kind, SameFile s kind disk disk' := by
  unfold Setting.build at hbuild
  rw [if_neg ht] at hbuild
  cases hvend : s.getEncode vendType with
  | none => simp [hvend] at hbuild
  | some vend =>
    rw [hvend] at hbuild
    obtain ⟨⟨middle, lists, state⟩, hinit, hdone⟩ := Option.bind_eq_some_iff.mp hbuild
    cases hdone
    obtain ⟨adj, -, hrest⟩ := Option.bind_eq_some_iff.mp hinit
    split at hrest
    next =>
      simp only [Option.bind_eq_bind, Option.bind_eq_some_iff, Option.pure_def,
        Option.some.injEq, Prod.mk.injEq] at hrest
      obtain ⟨-, -, -, -, text, -, rfl, -⟩ := hrest
      exact ⟨rfl, fun kind => AList.lookup_insert_ne (vendPath_ne_pairPath ht kind).symm⟩
    next =>
      simp only [Option.bind_eq_bind, Option.bind_eq_some_iff, Option.pure_def,
        Option.some.injEq, Prod.mk.injEq] at hrest
      obtain ⟨-, -, rfl, -⟩ := hrest
      exact ⟨rfl, fun _ => rfl⟩

end

/-! ## Section 4: The loops -/

section

variable {s : Setting} {file : EdgeFile s.vertexSize} {h : History} {disk disk' : Disk}
variable {vendType : VendType} {plan : List VendType}

/-- The class of the type copes with a graph that was saved once before. -/
def Sound (s : Setting) (file : EdgeFile s.vertexSize) (vendType : VendType) : Prop :=
  ∃ vend, s.getEncode vendType = some vend ∧ vend.Sound file (2 ^ 1)

/-- The encoding was built when the graph had been saved once, or it can still be. -/
def History.InTime (h : History) (vendType : VendType) : Prop :=
  h.builtAfter vendType = some 1 ∨ (h.builtAfter vendType = Option.none ∧ h.saved = 1)

theorem History.InTime.note (hintime : h.InTime vendType) (ht : vendType ≠ .noVend)
    (data : Option (List (Option (Nat × Nat)))) (dbType : Int) :
    h.note (.build vendType data dbType) =
      ⟨h.saved, fun t => if t = vendType then some 1 else h.builtAfter t⟩ := by
  have hnow : (h.builtAfter vendType).getD h.saved = 1 := by
    rcases hintime with hbuilt | ⟨hnever, hsaved⟩
    · rw [hbuilt, Option.getD_some]
    · rw [hnever, Option.getD_none, hsaved]
  rw [History.note, if_neg ht]
  congr 1
  funext t
  by_cases heq : t = vendType
  · rw [if_pos heq, if_pos heq, heq, hnow]
  · rw [if_neg heq, if_neg heq]

section

variable (hsize : s.vertexSize + 1 < 2 ^ 31)

include hsize in
/-- One build, be it the first one or not. -/
theorem Holds.exists_buildInTime (hholds : Holds s file h disk) (ht : vendType ≠ .noVend)
    (hintime : h.InTime vendType) (hsound : Sound s file vendType) :
    ∃ disk', s.build disk vendType (some file.lines) 0 = some disk' := by
  obtain ⟨vend, hvend, hcopes⟩ := hsound
  rcases hintime with hbuilt | ⟨hnever, hsaved⟩
  · obtain ⟨adj, -, hdb, -⟩ := hholds.copies hsize
    obtain ⟨text, loaded, hlookup, hloaded, -⟩ :=
      hholds.exists_loadEncode ht hvend hbuilt hcopes disk.db adj
    have hopen : s.openDb 0 disk = some adj := openDb_eq_some.mpr ⟨rfl, hdb⟩
    rw [Setting.build, if_neg ht, hvend]
    simp only [Setting.initVend, hopen, hlookup, hloaded, Option.bind_eq_bind, Option.bind_some,
      Option.pure_def]
    exact ⟨_, rfl⟩
  · exact hholds.exists_build hsize ht hvend hnever (hsaved ▸ hcopes)

include hsize in
/-- The builds that follow the one of the graph. -/
theorem Holds.exists_builds (hholds : Holds s file h disk)
    (hplan : ∀ t ∈ plan, t ≠ .noVend ∧ h.InTime t ∧ Sound s file t) :
    ∃ disk' h', plan.foldlM (fun disk t => s.build disk t (some file.lines) 0) disk = some disk' ∧
      Holds s file h' disk' ∧ h'.saved = h.saved ∧
      (∀ t, t ∈ plan ∨ h.builtAfter t = some 1 → h'.builtAfter t = some 1) ∧
      disk'.db = disk.db ∧ ∀ kind, SameFile s kind disk disk' := by
  induction plan generalizing h disk with
  | nil =>
    refine ⟨disk, h, rfl, hholds, rfl, fun t ht => ?_, rfl, fun _ => rfl⟩
    exact ht.resolve_left (by simp)
  | cons t plan ih =>
    obtain ⟨hne, hintime, hsound⟩ := hplan t (by simp)
    obtain ⟨disk₁, hbuild⟩ := hholds.exists_buildInTime hsize hne hintime hsound
    have hholds₁ := hholds.build hsize hbuild
    rw [hintime.note hne] at hholds₁
    have hplan₁ : ∀ t' ∈ plan, t' ≠ .noVend ∧ History.InTime
        ⟨h.saved, fun t' => if t' = t then some 1 else h.builtAfter t'⟩ t' ∧ Sound s file t' := by
      intro t' ht'
      obtain ⟨hne', hintime', hsound'⟩ := hplan t' (List.mem_cons_of_mem _ ht')
      refine ⟨hne', ?_, hsound'⟩
      by_cases heq : t' = t
      · exact Or.inl (if_pos heq)
      · simpa only [History.InTime, if_neg heq] using hintime'
    obtain ⟨disk₂, h₂, hrun, hholds₂, hsaved₂, hbuilt₂, hdb, hfiles⟩ :=
      ih hholds₁ hplan₁
    obtain ⟨hdb₁, hfiles₁⟩ := build_encode hne hbuild
    refine ⟨disk₂, h₂, ?_, hholds₂, hsaved₂, ?_, hdb.trans hdb₁,
      fun kind => (hfiles₁ kind).trans (hfiles kind)⟩
    · rw [List.foldlM_cons, hbuild]
      exact hrun
    · intro t' ht'
      apply hbuilt₂
      by_cases heq : t' = t
      · exact Or.inr (if_pos heq)
      · rw [List.mem_cons, or_iff_right heq] at ht'
        simpa only [if_neg heq] using ht'

/-- The report counts the edges among the pairs. -/
def Setting.Report.Exact {vertexSize : Nat} (file : EdgeFile vertexSize)
    (pairList : List (Nat × Nat)) (report : Setting.Report) : Prop :=
  report.pairList = pairList ∧ report.counters.res = edgeCount file pairList

variable {kind : PairKind} {pairList : List (Nat × Nat)}
variable (htype : s.dbType = 0)

include hsize htype in
theorem Holds.exists_query (hholds : Holds s file h disk) (hsaved : 1 ≤ h.saved)
    (hready : vendType ≠ .noVend → h.builtAfter vendType = some 1 ∧ Sound s file vendType)
    {chance : Chance} (hinit : s.initPairs disk kind chance = some (disk', pairList))
    (hpairs : Pairs s.vertexSize pairList) :
    ∃ report, s.query disk vendType kind chance = some (disk', report) ∧
      report.Exact file pairList := by
  by_cases ht : vendType = .noVend
  · subst ht
    exact ⟨_, hholds.queryNoVend hsize htype hsaved hinit hpairs, rfl, rfl⟩
  · obtain ⟨hbuilt, vend, hvend, hcopes⟩ := hready ht
    obtain ⟨counters, hquery, hres, -⟩ :=
      hholds.queryVend hsize htype hsaved ht hvend hbuilt hcopes hinit hpairs
    exact ⟨_, hquery, rfl, hres⟩

/-- Every type of the plan has its report, and it is exact. -/
structure Reported {vertexSize : Nat} (file : EdgeFile vertexSize) (pairList : List (Nat × Nat))
    (plan : List VendType) (reports : List Setting.Report) : Prop where
  length : reports.length = plan.length
  exact : ∀ report ∈ reports, report.Exact file pairList

theorem Reported.cons {report : Setting.Report} {reports : List Setting.Report}
    (hreport : report.Exact file pairList) (hreports : Reported file pairList plan reports)
    (t : VendType) : Reported file pairList (t :: plan) (report :: reports) where
  length := by rw [List.length_cons, List.length_cons, hreports.length]
  exact := List.forall_mem_cons.mpr ⟨hreport, hreports.exact⟩

include hsize htype in
/-- The queries on pairs that are there. -/
theorem Holds.exists_queries (hholds : Holds s file h disk) (hsaved : 1 ≤ h.saved)
    (hready : ∀ t ∈ plan, t ≠ .noVend → h.builtAfter t = some 1 ∧ Sound s file t)
    (hdrawn : Drawn s kind pairList disk) (hpairs : Pairs s.vertexSize pairList)
    (chance : VendType → Chance) :
    ∃ reports, s.queries kind chance plan disk = some (disk, reports) ∧
      Reported file pairList plan reports := by
  induction plan with
  | nil => exact ⟨[], rfl, rfl, fun report hreport => absurd hreport (by simp)⟩
  | cons t plan ih =>
    obtain ⟨report, hquery, hexact⟩ := hholds.exists_query hsize htype hsaved (hready t (by simp))
      (hdrawn.initPairs (chance t)) hpairs
    obtain ⟨reports, hrest, hreports⟩ := ih fun t' ht' => hready t' (List.mem_cons_of_mem _ ht')
    refine ⟨report :: reports, ?_, hreports.cons hexact t⟩
    simp only [Setting.queries, hquery, hrest, Option.bind_eq_bind, Option.bind_some,
      Option.pure_def]

include hsize htype in
/-- A loop of queries, if it is asked for. The query without an encoding comes first, and all
    others get its pairs. -/
theorem Holds.exists_loop (hholds : Holds s file h disk) (hsaved : 1 ≤ h.saved)
    (hready : ∀ t ∈ plan, t ≠ .noVend → h.builtAfter t = some 1 ∧ Sound s file t)
    {chance : VendType → Chance} {flag : Bool}
    (hpairs : flag = true → Pairs s.vertexSize pairList ∧ pairList ≠ [])
    (hdue : flag = true → Due s kind (chance .noVend) pairList disk) :
    ∃ disk' reports,
      (if flag then s.queries kind chance (.noVend :: plan) disk else some (disk, [])) =
        some (disk', reports) ∧
      Reported file pairList (if flag then .noVend :: plan else []) reports ∧
      Holds s file h disk' ∧ (flag = true → Drawn s kind pairList disk') ∧
      disk'.db = disk.db ∧ ∀ kind', kind' ≠ kind → SameFile s kind' disk disk' := by
  cases flag with
  | false =>
    refine ⟨disk, [], rfl, ⟨rfl, fun report hreport => absurd hreport (by simp)⟩, hholds, ?_, rfl,
      fun _ _ => rfl⟩
    exact fun hfalse => absurd hfalse (by decide)
  | true =>
    obtain ⟨hpairs, hne⟩ := hpairs rfl
    obtain ⟨disk₁, hinit, hholds₁, hdrawn, hdb, hfiles⟩ :=
      hholds.drawPairs hsize (hdue rfl) hpairs hne
    obtain ⟨report, hquery, hexact⟩ :=
      hholds.exists_query hsize htype hsaved (fun ht => absurd rfl ht) hinit hpairs
    obtain ⟨reports, hrest, hreports⟩ :=
      hholds₁.exists_queries hsize htype hsaved hready hdrawn hpairs chance
    refine ⟨disk₁, report :: reports, ?_, hreports.cons hexact .noVend, hholds₁, fun _ => hdrawn,
      hdb, hfiles⟩
    rw [if_pos rfl]
    simp only [Setting.queries, hquery, hrest, Option.bind_eq_bind, Option.bind_some,
      Option.pure_def]

end

end

/-! ## Section 5: Starts -/

/-- The options ask for builds of the graph and of encodings, and for no updates. -/
structure Flags.Builds (flags : Flags) : Prop where
  isSkip : ∀ v ∈ flags.isSkip, 0 ≤ v ∧ v < types.length
  isBuild : flags.isBuild = true
  isInsert : flags.isInsert = false
  isDelete : flags.isDelete = false
  noVend : 0 ∉ flags.isSkip

section

variable {s : Setting} {file : EdgeFile s.vertexSize} {flags : Flags} {disk : Disk}
variable {random walk : List (Nat × Nat)}

/-- What a start finds that is not the first one. -/
structure Started (s : Setting) (file : EdgeFile s.vertexSize) (flags : Flags)
    (random walk : List (Nat × Nat)) (disk : Disk) : Prop where
  holds : ∃ h, Holds s file h disk ∧ ∀ t ∈ flags.plan 1, h.builtAfter t = some 1
  random : flags.isRandomQuery = true → Drawn s .randomQuery random disk
  walk : flags.isWalkQuery = true → Drawn s .walkQuery walk disk

/-- What a start finds: the first one builds the encodings, and it will draw these pairs once
    it has built the graph. -/
structure Starting (s : Setting) (file : EdgeFile s.vertexSize) (flags : Flags) (found : Found)
    (random walk : List (Nat × Nat)) (disk : Disk) : Prop where
  holds : ∃ h, Holds s file h disk ∧ ∀ t ∈ flags.plan 1, h.builtAfter t = some 1 ∨
    (h.builtAfter t = none ∧ h.saved = 0)
  random : flags.isRandomQuery = true → ∀ disk',
    SaveData.buildNoVend s.vertexSize false file.lines disk.db = some disk'.db →
    SameFile s .randomQuery disk disk' →
    Due s .randomQuery (found.chance .randomQuery .noVend) random disk'
  walk : flags.isWalkQuery = true → ∀ disk',
    SaveData.buildNoVend s.vertexSize false file.lines disk.db = some disk'.db →
    SameFile s .walkQuery disk disk' →
    Due s .walkQuery (found.chance .walkQuery .noVend) walk disk'

/-- The pairs that a start on an empty disk draws. -/
structure Draws (s : Setting) (file : EdgeFile s.vertexSize) (flags : Flags) (found : Found)
    (random walk : List (Nat × Nat)) : Prop where
  random : flags.isRandomQuery = true →
    Fair s.vertexSize .randomQuery (found.chance .randomQuery .noVend) ∧
    ∃ db, SaveData.buildNoVend s.vertexSize false file.lines ∅ = some db ∧
      s.createList .randomQuery (found.chance .randomQuery .noVend) db = some random
  walk : flags.isWalkQuery = true →
    Fair s.vertexSize .walkQuery (found.chance .walkQuery .noVend) ∧
    ∃ db, SaveData.buildNoVend s.vertexSize false file.lines ∅ = some db ∧
      s.createList .walkQuery (found.chance .walkQuery .noVend) db = some walk

/-- A list that is drawn on the database of the first build. -/
theorem due_of_blank {kind : PairKind} {chance : Chance} {pairList : List (Nat × Nat)}
    (hdraw : ∃ db, SaveData.buildNoVend s.vertexSize false file.lines ∅ = some db ∧
      s.createList kind chance db = some pairList) {disk' : Disk}
    (hdb : SaveData.buildNoVend s.vertexSize false file.lines Disk.blank.db = some disk'.db)
    (hfile : SameFile s kind Disk.blank disk') : Due s kind chance pairList disk' := by
  obtain ⟨db, hbuild, hcreate⟩ := hdraw
  have heq : some db = some disk'.db := hbuild.symm.trans hdb
  rw [Option.some.injEq] at heq
  rw [heq] at hcreate
  exact Or.inl ⟨Eq.trans hfile (AList.lookup_empty _), hcreate⟩

theorem Draws.starting {found : Found} (hdraws : Draws s file flags found random walk) :
    Starting s file flags found random walk Disk.blank where
  holds := ⟨History.none, holds_blank file, fun _ _ => Or.inr ⟨rfl, rfl⟩⟩
  random hflag _ hdb hfile := due_of_blank (hdraws.random hflag).2 hdb hfile
  walk hflag _ hdb hfile := due_of_blank (hdraws.walk hflag).2 hdb hfile

theorem Started.starting (hstarted : Started s file flags random walk disk) (found : Found) :
    Starting s file flags found random walk disk where
  holds := by
    obtain ⟨h, hholds, hbuilt⟩ := hstarted.holds
    exact ⟨h, hholds, fun t ht => Or.inl (hbuilt t ht)⟩
  random hflag _ _ hfile := Or.inr (hfile.drawn (hstarted.random hflag))
  walk hflag _ _ hfile := Or.inr (hfile.drawn (hstarted.walk hflag))

/-- What a start reports: exact counts for all types of the loops that it was asked for. -/
structure Exact (file : EdgeFile s.vertexSize) (flags : Flags) (random walk : List (Nat × Nat))
    (reports : List Setting.Report × List Setting.Report) : Prop where
  random : Reported file random (if flags.isRandomQuery then flags.plan 0 else []) reports.1
  walk : Reported file walk (if flags.isWalkQuery then flags.plan 0 else []) reports.2

variable (hsize : s.vertexSize + 1 < 2 ^ 31) (htype : s.dbType = 0) (hflags : flags.Builds)
variable (hsound : ∀ t ∈ flags.plan 1, Sound s file t)
variable (hrandom : flags.isRandomQuery = true → Pairs s.vertexSize random ∧ random ≠ [])
variable (hwalk : flags.isWalkQuery = true → Pairs s.vertexSize walk ∧ walk ≠ [])

include hsize htype hflags hsound hrandom hwalk in
/-- One start. -/
theorem Starting.exists_main {found : Found} (hfound : ∀ t, found.buildDbType t = 0)
    (hstarting : Starting s file flags found random walk disk) :
    ∃ disk' reports, s.main flags (some file.lines) found disk = some (disk', reports) ∧
      Started s file flags random walk disk' ∧ Exact file flags random walk reports := by
  obtain ⟨h, hholds, hbuilt⟩ := hstarting.holds
  obtain ⟨disk₁, hsave, hholds₁⟩ := hholds.save hsize
  rw [History.note, if_pos rfl] at hholds₁
  have hplan : ∀ t ∈ flags.plan 1, t ≠ .noVend ∧
      History.InTime { h with saved := h.saved + 1 } t ∧ Sound s file t := by
    intro t ht
    refine ⟨ne_noVend_of_mem_plan ht, (hbuilt t ht).imp_right fun hfirst => ?_, hsound t ht⟩
    exact ⟨hfirst.1, by simp only [hfirst.2]⟩
  obtain ⟨disk₂, h₂, hbuilds, hholds₂, hsaved₂, hbuilt₂, hdb₂, hfiles₂⟩ :=
    hholds₁.exists_builds hsize hplan
  have hsaved : 1 ≤ h₂.saved := by
    rw [hsaved₂]
    exact Nat.le_add_left 1 h.saved
  have hready : ∀ t ∈ flags.plan 1, t ≠ .noVend → h₂.builtAfter t = some 1 ∧ Sound s file t :=
    fun t ht _ => ⟨hbuilt₂ t (Or.inl ht), hsound t ht⟩
  -- the pairs are drawn on what the build of the graph has left
  obtain ⟨hdb₁, hfiles₁⟩ := build_noVend hsave
  rw [← hdb₂] at hdb₁
  have hkept : ∀ kind, SameFile s kind disk disk₂ :=
    fun kind => (hfiles₁ kind).trans (hfiles₂ kind)
  obtain ⟨disk₃, random', hloop₃, hreported₃, hholds₃, hdrawn₃, hdb₃, hfiles₃⟩ :=
    hholds₂.exists_loop hsize htype hsaved hready hrandom
      fun hflag => hstarting.random hflag disk₂ hdb₁ (hkept _)
  obtain ⟨disk₄, walk', hloop₄, hreported₄, hholds₄, hdrawn₄, -, hfiles₄⟩ :=
    hholds₃.exists_loop hsize htype hsaved hready hwalk fun hflag =>
      (hfiles₃ .walkQuery (by decide)).due hdb₃ (hstarting.walk hflag disk₂ hdb₁ (hkept _))
  have hzero := plan_zero hflags.noVend
  refine ⟨disk₄, (random', walk'), ?_, ⟨⟨h₂, hholds₄, fun t ht => hbuilt₂ t (Or.inl ht)⟩,
    fun hflag => (hfiles₄ .randomQuery (by decide)).drawn (hdrawn₃ hflag), hdrawn₄⟩, ?_⟩
  · rw [Setting.main, guard, if_pos hflags.isSkip]
    simp only [hflags.isBuild, hflags.isInsert, hflags.isDelete, hzero, hfound, if_true,
      List.foldlM_cons, hsave, hbuilds, hloop₃, hloop₄, Option.bind_eq_bind, Option.bind_some,
      Option.pure_def, Bool.false_eq_true, if_false]
  · exact ⟨by rwa [hzero], by rwa [hzero]⟩

end

/-- Five vertices, with a stable sort. -/
def five : Setting where
  vertexSize := 5
  dbType := 0
  vendPrefix := []
  pairPathPrefix := []
  getEncode := RecordVend.getEncode RangeVend.fiveConfig false (RecordVend.stable _) fun _ => none

/-- `BBF`, `Range` and `SIMDDeltaV2`, all of them with queries from a walk. -/
def threeTypes : Flags where
  isSkip := [1, 3, 4, 5, 6, 8, 9, 10, 11, 12, 14, 15, 16, 17, 18, 19]
  isBuild := true
  isInsert := false
  isDelete := false
  isRandomQuery := false
  isWalkQuery := true

/-- Start `n` shuffles nothing and draws from the `n`-th number on. -/
def drawsFrom (draws : Nat → Nat) (rounds n : Nat) : Found where
  buildDbType _ := 0
  dbType _ _ := 0
  chance _ _ := ⟨[1, 2, 3, 4, 5], fun i => draws (i + n), rounds⟩

end Experiment

end Vend
