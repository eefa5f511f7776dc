import Vend.Encode.HybridUpdate
import Vend.Encode.RangeDelete
import Vend.Vend.BloomVend
import Vend.Vend.DeltaSIMDVend
import Vend.Vend.VendFactory

/-! # Vends with a record for each vertex

    The types `Range`, `Bloom`, `Hybrid` and the SIMD delta types up to `V2` as classes of
    the factory. They are built from whatever lists the graph has loaded. The plan of
    `main.cpp` begins with the build without a vend, and every later build finds the graph
    in the database and reads the file on top of it, so that each neighbour is in its list
    twice or more often.

    Neither the peeling nor the records mind that. The two ends of an edge repeat each other
    equally often, a record of repeated ids speaks for the same ids, and what was built from
    repeated lists agrees with the graph (`records_sound`).
-/

namespace Vend

open LoadData

/-! ## Section 1: The graph of a file -/

namespace LoadData

theorem getD_map_range (f : Nat → List Nat) {n v : Nat} (hv : v < n) :
    ((List.range n).map f).getD v [] = f v := by
  simp [List.getD_eq_getElem?_getD, hv]

variable {vertexSize : Nat} (file : EdgeFile vertexSize)

/-- The neighbours of a vertex in ascending order. -/
def EdgeFile.neighbors (v : Nat) : List Nat :=
  (List.range (vertexSize + 1)).filter fun w => decide (file.Edge v w)

theorem EdgeFile.mem_neighbors {v w : Nat} : w ∈ file.neighbors v ↔ file.Edge v w := by
  rw [neighbors, List.mem_filter, List.mem_range, decide_eq_true_eq]
  constructor
  · exact And.right
  · intro h
    exact ⟨Nat.lt_succ_of_le (SaveData.EdgeFile.range_of_edge file h).2.2, h⟩

/-- The graph of the file. -/
def EdgeFile.graph : Graph vertexSize where
  adjacencyList := (List.range (vertexSize + 1)).map file.neighbors
  zero := by
    rw [getD_map_range _ (by omega), List.eq_nil_iff_forall_not_mem]
    intro w hw
    have hedge := (file.mem_neighbors).mp hw
    exact absurd (SaveData.EdgeFile.range_of_edge file hedge).1.1 (by decide)
  length := by simp
  range v hv w hw := by
    rw [getD_map_range _ hv] at hw
    exact (SaveData.EdgeFile.range_of_edge file ((file.mem_neighbors).mp hw)).2
  loopless v hv hw := by
    rw [getD_map_range _ hv] at hw
    exact EdgeFile.ne_of_edge ((file.mem_neighbors).mp hw) rfl
  nodup v hv := by
    rw [getD_map_range _ hv]
    exact List.nodup_range.filter _
  symm v hv w hw := by
    rw [getD_map_range _ hv] at hw
    have hedge := (file.mem_neighbors).mp hw
    rw [getD_map_range _ (Nat.lt_succ_of_le (SaveData.EdgeFile.range_of_edge file hedge).2.2)]
    exact (file.mem_neighbors).mpr (Or.symm hedge)

theorem EdgeFile.mem_adj_graph {v w : Nat} : w ∈ file.graph.adj v ↔ file.Edge v w := by
  rcases Nat.lt_or_ge vertexSize v with hv | hv
  · rw [Graph.adj_of_lt _ hv]
    constructor
    · exact fun hw => absurd hw List.not_mem_nil
    · intro hedge
      have hle := (SaveData.EdgeFile.range_of_edge file hedge).1.2
      omega
  · rw [Graph.adj, graph, getD_map_range _ (Nat.lt_succ_of_le hv)]
    exact file.mem_neighbors

/-- The lists with every neighbour `copies` times. -/
def EdgeFile.repeated (copies : Nat) : List (List Nat) :=
  (List.range (vertexSize + 1)).map fun v =>
    (file.neighbors v).flatMap fun w => List.replicate copies w

end LoadData

/-! ## Section 2: Classes -/

/-- The lists that the peeling of an undirected graph goes through. -/
def rows (adjacencyList : List (List Nat)) (v : Nat) : List (List Nat) :=
  [adjacencyList.getD v []]

/-- `DeltaSIMDVEND::BuildEncoding()` on the records of a constructor. -/
def DeltaSIMDVend.buildLists (c : Config) (ver : DeltaSIMDCodec.Version)
    (iterate : Nat → List Nat → List Nat) (adjacencyList : List (List Nat)) : Option Records :=
  (WorklistPeeling.peel c.vertexSize (rows adjacencyList)
    (fun ls => decide (DeltaSIMDCodec.getRequiredBytes ver (ls.getD 0 []) ≤
      DeltaSIMDEncode.getBytesSize c)) iterate).map fun calls =>
    calls.foldl (fun st call => DeltaSIMDEncode.encodeVertex c ver call.vertex
      (WorklistPeeling.passed call) st) (Records.constructed c)

/-- `RangeVend::BuildEncoding()` with an encoder, on the records of a constructor: `intSize`
    is its `GetIntSize()`, and `sort` gives the order of `std::sort`. -/
def RangeVend.buildLists (c : Config) (intSize : Nat)
    (encodeVertex : Nat → List Nat → Records → Records) (sort : List (List Nat) → List Nat)
    (adjacencyList : List (List Nat)) : Option Records :=
  (BucketPeeling.peel c.vertexSize (rows adjacencyList) intSize (sort adjacencyList)).map
    fun calls => calls.foldl (fun st call => encodeVertex call.vertex (passed call) st)
      (Records.constructed c)

/-- On the lists of a graph these are the builds of a graph. -/
theorem DeltaSIMDVend.buildLists_adjacencyList (c : Config) (ver : DeltaSIMDCodec.Version)
    (iterate : Nat → List Nat → List Nat) (g : Graph c.vertexSize) :
    buildLists c ver iterate g.adjacencyList =
      buildEncoding g (DeltaSIMDCodec.getRequiredBytes ver) (DeltaSIMDEncode.getBytesSize c)
        (DeltaSIMDEncode.encodeVertex c ver) iterate (Records.constructed c) := rfl

theorem RangeVend.buildLists_adjacencyList (c : Config) (intSize : Nat)
    (encodeVertex : Nat → List Nat → Records → Records) (sort : List (List Nat) → List Nat)
    (g : Graph c.vertexSize) :
    buildLists c intSize encodeVertex sort g.adjacencyList =
      buildEncoding g intSize encodeVertex (sort g.adjacencyList) (Records.constructed c) := rfl

/-- What the code leaves to the standard library and to the memory: the order of `std::sort`,
    in which the sets of the worklist are gone through, and the bytes behind a record. -/
structure Unspecified (c : Config) where
  sort : List (List Nat) → List Nat
  sorted : ∀ lists, BucketPeeling.SortedOrder c.vertexSize (rows lists) (sort lists)
  iterate : Nat → List Nat → List Nat
  perm : ∀ n set, (iterate n set).Perm set
  tail : Nat → Nat → Byte

namespace RecordVend

/-- A vend with the `NEpairTest` of its encoder. `insertPair` and `deletePair` get the lists of
    the database. A vertex without a record is an access out of bounds. -/
def vendClass (c : Config) (nePairTest : Records → Nat → Nat → PairType)
    (buildEncoding : List (List Nat) → Option Records)
    (insertPair deletePair : (Nat → List Nat) → Nat → Nat → Records → Option Records) :
    VendClass where
  State := State
  buildEncoding db lists := (buildEncoding lists).map (State.mk db)
  encodePersistent s := EncodeBitSet.encodePersistent c s.encodes
  loadEncode db _ file := loadEncode c db file
  determine s vertex1 vertex2 :=
    if vertex1 < s.encodes.length ∧ vertex2 < s.encodes.length then
      some (nePairTest s.encodes vertex1 vertex2)
    else none
  insert s vertex1 vertex2 :=
    if vertex1 < s.encodes.length ∧ vertex2 < s.encodes.length then
      (insertPair s.db.list vertex1 vertex2 s.encodes).map (State.mk s.db)
    else none
  delete s vertex1 vertex2 :=
    if vertex1 < s.encodes.length ∧ vertex2 < s.encodes.length then
      (deletePair s.db.list vertex1 vertex2 s.encodes).map (State.mk s.db)
    else none

/-- An update with an empty body. -/
def unchanged (_ : Nat → List Nat) (_ _ : Nat) (encodes : Records) : Option Records := some encodes

variable (c : Config) (hsimd : Bool) (env : Unspecified c)

/-- `RangeVend`. -/
def rangeVend : VendClass :=
  vendClass c (RangeEncode.nePairTest c)
    (RangeVend.buildLists c (RangeEncode.getIntSize c) (RangeEncode.encodeVertex c) env.sort)
    (RangeEncode.insertPair c) (RangeEncode.deletePair c)

/-- `BloomVend`. -/
def bloomVend : VendClass :=
  vendClass c (BloomEncode.nePairTest c)
    (RangeVend.buildLists c (BloomEncode.getIntSize c) (BloomEncode.encodeVertex c) env.sort)
    unchanged unchanged

/-- `HybridVend`, with the flag `HSIMD`. -/
def hybridVend : VendClass :=
  vendClass c (HybridEncode.nePairTest c hsimd)
    (RangeVend.buildLists c (HybridEncode.getIntSize c) (HybridEncode.encodeVertex c) env.sort)
    (HybridEncode.insertPair c hsimd) (HybridEncode.deletePair c hsimd)

/-- `DeltaSIMDVEND` up to `V2`. -/
def simdVend (ver : DeltaSIMDCodec.Version) : VendClass :=
  vendClass c (DeltaSIMDEncode.nePairTest c (DeltaSIMDEncode.codecOf ver) env.tail)
    (DeltaSIMDVend.buildLists c ver env.iterate) unchanged unchanged

/-- `GetEncode(vend_type, ..)`, with the classes that are left as they may be. -/
def getEncode (others : VendType → Option VendClass) : VendType → Option VendClass :=
  VendFactory.getEncode c fun
    | .range => some (rangeVend c env)
    | .bloom => some (bloomVend c env)
    | .hybrid => some (hybridVend c hsimd env)
    | .simdDelta => some (simdVend c env .v0)
    | .simdDeltaV1 => some (simdVend c env .v1)
    | .simdDeltaV2 => some (simdVend c env .v2)
    | vendType => others vendType

end RecordVend

/-! ## Section 3: Repeated lists -/

section

variable {vertexSize : Nat} {file : EdgeFile vertexSize} {copies : Nat}
variable {lists : List (List Nat)}

theorem mem_rows {adjacencyList : List (List Nat)} {v w : Nat} :
    w ∈ (rows adjacencyList v).flatten ↔ w ∈ adjacencyList.getD v [] := by
  simp [rows]

theorem count_flatMap_replicate (copies w : Nat) (l : List Nat) :
    (l.flatMap fun w => List.replicate copies w).count w = copies * l.count w := by
  induction l with
  | nil => simp
  | cons v l ih =>
    rw [List.flatMap_cons, List.count_append, ih, List.count_replicate, List.count_cons]
    by_cases hv : v = w <;> simp [hv, Nat.mul_add, Nat.add_comm]

theorem EdgeFile.neighbors_sorted (v : Nat) : (file.neighbors v).Pairwise (· < ·) :=
  List.pairwise_lt_range.filter _

/-- Every graph has lists in which its neighbours are repeated. -/
theorem copies_repeated (file : EdgeFile vertexSize) (copies : Nat) :
    Copies file copies (file.repeated copies) where
  length := by simp [EdgeFile.repeated]
  sorted v := by
    rcases Nat.lt_or_ge v (vertexSize + 1) with hv | hv
    · rw [EdgeFile.repeated, getD_map_range _ hv, List.pairwise_flatMap]
      refine ⟨fun w _ => List.pairwise_replicate.mpr (Or.inr (Nat.le_refl w)), ?_⟩
      refine (EdgeFile.neighbors_sorted v).imp ?_
      intro w w' hlt x hx y hy
      rw [List.eq_of_mem_replicate hx, List.eq_of_mem_replicate hy]
      exact Nat.le_of_lt hlt
    · rw [EdgeFile.repeated, List.getD_eq_default _ _ (by simpa using hv)]
      exact List.Pairwise.nil
  count v w := by
    rcases Nat.lt_or_ge v (vertexSize + 1) with hv | hv
    · rw [EdgeFile.repeated, getD_map_range _ hv, count_flatMap_replicate]
      split
      next hedge =>
        have hnodup : (file.neighbors v).Nodup := (EdgeFile.neighbors_sorted v).imp Nat.ne_of_lt
        rw [List.count_eq_one_of_mem hnodup (file.mem_neighbors.mpr hedge), Nat.mul_one]
      next hedge =>
        rw [List.count_eq_zero_of_not_mem fun hw => hedge (file.mem_neighbors.mp hw), Nat.mul_zero]
    · have hnot : ¬ file.Edge v w := by
        intro hedge
        have hle := (SaveData.EdgeFile.range_of_edge file hedge).1.2
        omega
      rw [EdgeFile.repeated, List.getD_eq_default _ _ (by simpa using hv), if_neg hnot]
      rfl

/-- There is only one way to repeat the neighbours in ascending order. -/
theorem Copies.eq_repeated (h : Copies file copies lists) : lists = file.repeated copies := by
  have hrepeated := copies_repeated file copies
  have hrow : ∀ v, lists.getD v [] = (file.repeated copies).getD v [] := by
    intro v
    have hperm : (lists.getD v []).Perm ((file.repeated copies).getD v []) := by
      rw [List.perm_iff_count]
      intro w
      rw [h.count, hrepeated.count]
    exact hperm.eq_of_pairwise' (h.sorted v) (hrepeated.sorted v)
  apply List.ext_getElem (h.length.trans hrepeated.length.symm)
  intro v hv hv'
  have heq := hrow v
  rwa [List.getD_eq_getElem _ _ hv, List.getD_eq_getElem _ _ hv'] at heq

variable (h : Copies file copies lists) (hcopies : 1 ≤ copies)
include h hcopies

theorem Copies.linked : WorklistPeeling.Linked vertexSize (rows lists) := by
  constructor
  · intro v w hw
    rw [mem_rows, h.mem_iff hcopies] at hw
    exact (SaveData.EdgeFile.range_of_edge file hw).2
  · intro v hv
    rw [mem_rows, h.mem_iff hcopies] at hv
    exact EdgeFile.ne_of_edge hv rfl
  · intro v w hw
    rw [mem_rows, h.mem_iff hcopies] at hw ⊢
    exact Or.symm hw

theorem Copies.peelable : BucketPeeling.Peelable vertexSize (rows lists) := by
  have hlinked := h.linked hcopies
  refine ⟨?_, hlinked.range, hlinked.loopless, ?_⟩
  · rw [List.eq_nil_iff_forall_not_mem]
    intro w hw
    exact absurd (hlinked.range w 0 (hlinked.symm 0 w hw)).1 (by decide)
  · intro v w
    have hcount : ∀ u, (rows lists u).flatten = lists.getD u [] := fun u => by simp [rows]
    rw [hcount, hcount, h.count, h.count]
    have hsymm : file.Edge v w ↔ file.Edge w v := ⟨Or.symm, Or.symm⟩
    simp only [hsymm]

/-- A stored id is a neighbour, once or more often. -/
theorem Copies.mem_filter_iff (keep : Nat → Bool) {u v : Nat} :
    v ∈ (lists.getD u []).filter keep ↔ v ∈ (file.graph.adj u).filter keep := by
  rw [List.mem_filter, List.mem_filter, h.mem_iff hcopies, file.mem_adj_graph]

omit h hcopies in
/-- Calls that cover repeated lists cover the graph. -/
theorem covering_graph {ids : List Nat} {small : List (List Nat) → Prop}
    {rows : Nat → List (List Nat)} {calls : List Call} {first : Nat → Bool}
    {keep : Nat → Nat → Bool} (hcover : Covering ids rows small calls first keep) :
    Covering ids file.graph.lists (fun _ => True)
      (calls.map fun call => { call with
        neighbors := (file.graph.lists call.vertex).map fun l => l.filter (keep call.vertex) })
      first keep where
  perm := by
    rw [List.map_map]
    exact hcover.perm
  call_eq call hcall := by
    obtain ⟨call', hcall', rfl⟩ := List.mem_map.mp hcall
    exact ⟨(hcover.call_eq call' hcall').1, rfl⟩
  small _ _ _ := trivial
  cover := hcover.cover

section

variable {ids : List Nat} {small : List (List Nat) → Prop} {calls : List Call}
variable {first : Nat → Bool} {keep : Nat → Nat → Bool} {decodable : Nat → Bool}
variable {test verdict : Nat → Nat → PairType}
variable (hcover : Covering ids (rows lists) small calls first keep)
variable (hids : ∀ v, 1 ≤ v → v ≤ vertexSize → v ∈ ids)
variable (hspeaks : ∀ u v, 1 ≤ u → u ≤ vertexSize → 1 ≤ v → v ≤ vertexSize →
  Speaks (decodable u) (v ∈ (lists.getD u []).filter (keep u)) (test u v))
variable (hfirst : ∀ u, 1 ≤ u → u ≤ vertexSize → first u = true → decodable u = true)
include hcover hids hspeaks hfirst

/-- The encoders that trust a decodable record alone. -/
theorem Copies.agrees_combine
    (hverdict : ∀ u v, verdict u v = combine (decodable u) (decodable v) (test u v) (test v u)) :
    file.graph.Agrees verdict := by
  refine file.graph.agrees_of_covering (covering_graph hcover) hids hverdict ?_ hfirst
  intro u v hu hu' hv hv'
  simpa only [h.mem_filter_iff hcopies] using hspeaks u v hu hu' hv hv'

/-- The encoders that take the smaller of the two verdicts. -/
theorem Copies.agrees_min (hverdict : ∀ u v, verdict u v = PairType.min (test u v) (test v u)) :
    file.graph.Agrees verdict := by
  refine file.graph.agrees_of_covering_min (covering_graph hcover) hids hverdict ?_ hfirst
  intro u v hu hu' hv hv'
  simpa only [h.mem_filter_iff hcopies] using hspeaks u v hu hu' hv hv'

end

end

/-! ## Section 4: The classes are sound -/

theorem BloomEncode.length_encodeBits (c : Config) (u : Nat) (ids : List Nat)
    (encode : BitSetSIMD) : (encodeBits c u ids encode).data.length = encode.data.length := by
  unfold encodeBits setFullEncode setBloomEncode setFlag
  split_ifs <;> simp

/-- Rewrites that keep the size of a record. -/
theorem Records.isRecord_foldl_update {c : Config} {α : Type} (calls : List α) (vertex : α → Nat)
    (f : α → BitSetSIMD → BitSetSIMD) (hkeep : ∀ a bs, (f a bs).data.length = bs.data.length)
    {rs : Records} {v : Nat} (hrec : IsRecord c (rs.record v)) :
    IsRecord c ((calls.foldl (fun rs a => rs.update (vertex a) (f a)) rs).record v) := by
  induction calls generalizing rs with
  | nil => exact hrec
  | cons a calls ih =>
    rw [List.foldl_cons]
    apply ih
    rcases Nat.lt_or_ge (vertex a) rs.length with hlt | hge
    · rw [Records.record_update rs _ hlt]
      split
      next heq =>
        subst heq
        rwa [IsRecord, BitSetSIMD.bitLength, hkeep]
      next => exact hrec
    · rwa [Records.update, List.set_eq_of_length_le hge]

namespace RecordVend

variable {c : Config} (hsize : c.vertexSize + 1 < 2 ^ 31) {file : EdgeFile c.vertexSize}
variable {copies : Nat}

include hsize in
/-- A class is sound when every build leaves records that agree with the graph. -/
theorem sound_of_agrees {nePairTest : Records → Nat → Nat → PairType}
    {buildEncoding : List (List Nat) → Option Records}
    {insertPair deletePair : (Nat → List Nat) → Nat → Nat → Records → Option Records}
    (hcongr : ∀ {rs rs' : Records} {u v : Nat}, rs.record u = rs'.record u →
      rs.record v = rs'.record v → nePairTest rs u v = nePairTest rs' u v)
    (hbuild : ∀ lists, Copies file copies lists → ∃ encodes, buildEncoding lists = some encodes ∧
      encodes.length = c.vertexSize + 1 ∧
      (∀ v ≤ c.vertexSize, IsRecord c (encodes.record v)) ∧
      file.graph.Agrees (nePairTest encodes)) :
    (vendClass c nePairTest buildEncoding insertPair deletePair).Sound file copies := by
  intro db lists hlists
  obtain ⟨encodes, hbuilt, hlen, hbytes, hagrees⟩ := hbuild lists hlists
  obtain ⟨text, hwrite, hloads⟩ :=
    loadEncode_encodePersistent hsize (allocated_of_isRecord hsize hlen hbytes)
  refine ⟨⟨db, encodes⟩, text, ?_, hwrite, ?_⟩
  · simp only [vendClass, hbuilt, Option.map_some]
  intro db' lists'
  obtain ⟨loaded, hload, hlen', hloaded⟩ := hloads db'
  refine ⟨⟨db', loaded⟩, hload, ?_⟩
  intro u w hu hu' hw hw' hne
  have hrange : u < loaded.length ∧ w < loaded.length := by omega
  obtain ⟨hnon, hneighbor⟩ := hagrees u w hu hu' hw hw' hne
  rw [EdgeFile.mem_adj_graph] at hnon hneighbor
  have hsame := hcongr (hloaded u hu hu') (hloaded w hw hw')
  refine ⟨_, if_pos hrange, ?_, ?_⟩
  · rw [hsame]
    exact hneighbor
  · rw [hsame]
    exact hnon

variable (env : Unspecified c) (hcopies : 1 ≤ copies)

/-- A list of repeated neighbours, or what is left of it. -/
theorem nonDecreasing_filter {lists : List (List Nat)} (h : Copies file copies lists)
    (hcopies : 1 ≤ copies) (hsize : c.vertexSize < 2 ^ 31) (v : Nat) (keep : Nat → Bool) :
    DeltaSIMDCodec.NonDecreasing ((lists.getD v []).filter keep) := by
  refine ⟨(h.sorted v).filter keep, fun w hw => ?_⟩
  have hedge := (h.mem_iff hcopies v w).mp (List.mem_of_mem_filter hw)
  exact Nat.lt_of_le_of_lt (SaveData.EdgeFile.range_of_edge file hedge).2.2 hsize

include hsize hcopies in
/-- The SIMD delta types up to `V2`, on every graph. -/
theorem sound_simdVend (hc : c.Narrow) (ver : DeltaSIMDCodec.Version) :
    (simdVend c env ver).Sound file copies := by
  refine sound_of_agrees hsize (fun hu hv => DeltaSIMDEncode.nePairTest_congr hu hv c _ _) ?_
  intro lists h
  obtain ⟨calls, first, keep, hrun, -, hcover⟩ :
      ∃ calls first keep, WorklistPeeling.peel c.vertexSize (rows lists)
          (fun ls => decide (DeltaSIMDCodec.getRequiredBytes ver (ls.getD 0 []) ≤
            DeltaSIMDEncode.getBytesSize c)) env.iterate = some calls ∧ _ ∧ _ :=
    WorklistPeeling.peel_spec (h.linked hcopies) hsize env.perm
  have hids : ∀ v, 1 ≤ v → v ≤ c.vertexSize → v ∈ List.range' 1 c.vertexSize :=
    fun v => mem_vertices
  have hrecord : ∀ v, 1 ≤ v → v ≤ c.vertexSize → _ := fun v =>
    record_foldl_vertices hcover (DeltaSIMDEncode.encodeBits c ver) 0
  have hkept : ∀ v, DeltaSIMDCodec.NonDecreasing ((lists.getD v []).filter (keep v)) :=
    fun v => nonDecreasing_filter h hcopies (by omega) v (keep v)
  refine ⟨_, by rw [DeltaSIMDVend.buildLists, hrun, Records.constructed_eq (by omega)]; rfl,
    ?_, ?_, ?_⟩
  · exact (Records.length_foldl_update calls Call.vertex _ _).trans (Records.length_fresh c)
  · intro v hv
    refine Records.isRecord_foldl_update calls Call.vertex
      (fun call => DeltaSIMDEncode.encodeBits c ver (WorklistPeeling.passed call))
      (fun _ => DeltaSIMDEncode.length_encodeBits c ver _) ?_
    rw [Records.record_fresh hv]
    exact isRecord_ofBitSize c
  · refine h.agrees_combine hcopies hcover hids ?_ ?_
      (DeltaSIMDEncode.nePairTest_eq_combine c (DeltaSIMDEncode.codecOf ver) env.tail _)
    · intro u v hu hu' _ hv'
      have hspeaks := DeltaSIMDEncode.speaks_of_nonDecreasing hc ver (hkept u) (env.tail u)
        (show v < 2 ^ 31 by omega)
      rw [← DeltaSIMDEncode.getFirstBit_of_nonDecreasing hc ver (hkept u)] at hspeaks
      simp only [DeltaSIMDEncode.isDecodable, DeltaSIMDEncode.encodeVertex,
        WorklistPeeling.passed, hrecord u hu hu']
      exact hspeaks
    · intro u hu hu' hf
      have hfits := of_decide_eq_true (hcover.small_of_first (hids u hu hu') hf)
      simp only [DeltaSIMDEncode.isDecodable, DeltaSIMDEncode.encodeVertex,
        WorklistPeeling.passed, hrecord u hu hu']
      rw [rows, List.getD_cons_zero,
        DeltaSIMDEncode.getFirstBit_of_nonDecreasing hc ver (hkept u)]
      exact decide_eq_true hfits

/-- The gaps between the degrees of the repeated lists do no harm, as in
    `RangeVend.Fillable`. -/
structure Fillable (file : EdgeFile c.vertexSize) (copies intSize : Nat) : Prop where
  degree : BucketPeeling.maxDegree c.vertexSize (rows (file.repeated copies)) + 1 < 2 ^ 31
  max : intSize < BucketPeeling.maxDegree c.vertexSize (rows (file.repeated copies))
  core : ∃ core,
    BucketPeeling.IsCore (rows (file.repeated copies)) (c.vertexSize + 1) intSize core ∧
    BucketPeeling.GapsClosed c.vertexSize (rows (file.repeated copies)) core

/-- What the calls of a build by degree leave in the records. -/
structure Wrote (lists : List (List Nat)) (intSize : Nat)
    (encodeBits : Nat → List Nat → BitSetSIMD → BitSetSIMD) (first : Nat → Bool)
    (keep : Nat → Nat → Bool) (encodes : Records) : Prop where
  length : encodes.length = c.vertexSize + 1
  record : ∀ v ≤ c.vertexSize, encodes.record v =
    encodeBits v ((lists.getD v []).filter (keep v)) (BitSetSIMD.ofBitSize c.perEncodeBitSize)
  small : ∀ v ≤ c.vertexSize, first v = true → ((lists.getD v []).filter (keep v)).length ≤ intSize

include hsize hcopies in
theorem exists_wrote {intSize : Nat} (hfill : Fillable file copies intSize)
    {lists : List (List Nat)} (h : Copies file copies lists)
    (encodeBits : Nat → List Nat → BitSetSIMD → BitSetSIMD) :
    ∃ calls first keep encodes,
      RangeVend.buildLists c intSize
        (fun v ids rs => rs.update v (encodeBits v ids)) env.sort lists = some encodes ∧
      Covering (List.range (c.vertexSize + 1)) (rows lists)
        (fun ls => ls.flatten.length ≤ intSize) calls first keep ∧
      Wrote (c := c) lists intSize encodeBits first keep encodes := by
  obtain ⟨hdegree, hmax, core, hcore, hgaps⟩ := hfill
  rw [← h.eq_repeated] at hdegree hmax hcore hgaps
  obtain ⟨calls, first, keep, hrun, hcover⟩ := BucketPeeling.peel_covering (h.peelable hcopies)
    (env.sorted lists) hsize hdegree hmax hcore hgaps
  refine ⟨calls, first, keep, _,
    by rw [RangeVend.buildLists, hrun, Records.constructed_eq (by omega)]; rfl, hcover, ?_, ?_, ?_⟩
  · exact (Records.length_foldl_update calls Call.vertex _ _).trans (Records.length_fresh c)
  · intro v hv
    exact record_foldl_range_at hcover encodeBits 0 hv
  · intro v hv hf
    have hsmall := hcover.small_of_first (List.mem_range.mpr (by omega)) hf
    rwa [flatten_map_filter, show (rows lists v).flatten = lists.getD v [] by simp [rows]] at hsmall

/-- What is left of a list of repeated neighbours. -/
theorem idList_filter {lists : List (List Nat)} (h : Copies file copies lists)
    (hcopies : 1 ≤ copies) (v : Nat) (keep : Nat → Bool) :
    IdList c ((lists.getD v []).filter keep) := by
  intro w hw
  have hedge := (h.mem_iff hcopies v w).mp (List.mem_of_mem_filter hw)
  exact (SaveData.EdgeFile.range_of_edge file hedge).2

include hcopies in
theorem sound_rangeVend (hc : RangeEncode.Ranged c)
    (hfill : Fillable file copies (RangeEncode.getIntSize c)) :
    (rangeVend c env).Sound file copies := by
  refine sound_of_agrees hc.vertexSize_lt (fun hu hv => RangeEncode.nePairTest_congr hu hv c) ?_
  intro lists h
  obtain ⟨calls, first, keep, encodes, hrun, hcover, hwrote⟩ := exists_wrote hc.vertexSize_lt env
    hcopies hfill h fun _ => RangeEncode.encodeBits c
  have hids : ∀ v, IdList c ((lists.getD v []).filter (keep v)) :=
    fun v => idList_filter h hcopies v (keep v)
  refine ⟨encodes, hrun, hwrote.length, ?_, ?_⟩
  · intro v hv
    rw [hwrote.record v hv]
    exact RangeEncode.isRecord_encodeBits hc.worded (hids v) (isRecord_ofBitSize c)
  · have hspeaks : ∀ u v, 1 ≤ u → u ≤ c.vertexSize → 1 ≤ v → v ≤ c.vertexSize →
        Speaks (RangeEncode.getFlag (encodes.record u)) (v ∈ (lists.getD u []).filter (keep u))
          (RangeEncode.nonNeighborTest c encodes u v) := by
      intro u v _ hu hv hv'
      rw [RangeEncode.nonNeighborTest, hwrote.record u hu]
      exact RangeEncode.speaks_encodeBits hc.worded (hids u) (isRecord_ofBitSize c) hv hv'
    refine h.agrees_min hcopies hcover (fun v _ hv => List.mem_range.mpr (by omega)) hspeaks ?_
      (RangeEncode.nePairTest_eq_min c encodes)
    intro u _ hu hf
    rw [hwrote.record u hu,
      RangeEncode.getFlag_encodeBits hc.worded (hids u) (isRecord_ofBitSize c), decide_eq_true_eq]
    exact hwrote.small u hu hf

include hcopies in
theorem sound_bloomVend (hc : RangeEncode.Ranged c)
    (hfill : Fillable file copies (BloomEncode.getIntSize c)) :
    (bloomVend c env).Sound file copies := by
  refine sound_of_agrees hc.vertexSize_lt (fun hu hv => BloomEncode.nePairTest_congr hu hv c) ?_
  intro lists h
  obtain ⟨calls, first, keep, encodes, hrun, hcover, hwrote⟩ := exists_wrote hc.vertexSize_lt env
    hcopies hfill h (BloomEncode.encodeBits c)
  have hids : ∀ v, IdList c ((lists.getD v []).filter (keep v)) :=
    fun v => idList_filter h hcopies v (keep v)
  refine ⟨encodes, hrun, hwrote.length, ?_, ?_⟩
  · intro v hv
    rw [hwrote.record v hv, IsRecord, BitSetSIMD.bitLength, BloomEncode.length_encodeBits]
    exact isRecord_ofBitSize c
  · have hspeaks : ∀ u v, 1 ≤ u → u ≤ c.vertexSize → 1 ≤ v → v ≤ c.vertexSize →
        Speaks (BloomEncode.getFlag (encodes.record u)) (v ∈ (lists.getD u []).filter (keep u))
          (BloomEncode.nonNeighborTest c encodes u v) := by
      intro u v _ hu hv _
      rw [BloomEncode.nonNeighborTest, hwrote.record u hu]
      exact BloomEncode.speaks_encodeBits hc u (hids u) hv
    refine h.agrees_min hcopies hcover (fun v _ hv => List.mem_range.mpr (by omega)) hspeaks ?_
      (fun _ _ => rfl)
    intro u hu hu' hf
    rw [hwrote.record u hu']
    exact (BloomEncode.speaks_of_fits hc u (hids u) (hwrote.small u hu' hf) hu).1

include hsize hcopies in
theorem sound_hybridVend (hc : c.Packed) (hsimd : Bool)
    (hfill : Fillable file copies (HybridEncode.getIntSize c)) :
    (hybridVend c hsimd env).Sound file copies := by
  refine sound_of_agrees hsize (fun hu hv => HybridEncode.nePairTest_congr hu hv c hsimd) ?_
  intro lists h
  obtain ⟨calls, first, keep, encodes, hrun, hcover, hwrote⟩ := exists_wrote hsize env
    hcopies hfill h fun _ => HybridEncode.encodeBits c
  have hids : ∀ v, IdList c ((lists.getD v []).filter (keep v)) :=
    fun v => idList_filter h hcopies v (keep v)
  have hsorted : ∀ v, ((lists.getD v []).filter (keep v)).Pairwise (· ≤ ·) :=
    fun v => (h.sorted v).filter (keep v)
  have hlen : ∀ v ≤ c.vertexSize, ((lists.getD v []).filter (keep v)).length < 2 ^ 32 - 1 := by
    intro v hv
    have hdegree := BucketPeeling.degree_le_maxDegree (h.peelable hcopies) hv
    have hmax := hfill.degree
    rw [← h.eq_repeated] at hmax
    have hle := List.length_filter_le (keep v) (lists.getD v [])
    have hrow : (rows lists v).flatten = lists.getD v [] := by simp [rows]
    rw [BucketPeeling.degree, hrow] at hdegree
    omega
  refine ⟨encodes, hrun, hwrote.length, ?_, ?_⟩
  · intro v hv
    rw [hwrote.record v hv]
    exact HybridEncode.isRecord_encodeBits hc (by omega) (hids v) (hlen v hv) (isRecord_ofBitSize c)
  · refine h.agrees_combine hcopies hcover (fun v _ hv => List.mem_range.mpr (by omega)) ?_ ?_
      (HybridEncode.nePairTest_eq_combine c hsimd encodes)
    · intro u v _ hu hv _
      simp only [HybridEncode.isDecodable, HybridEncode.nonNeighborTest, hwrote.record u hu]
      exact HybridEncode.speaks_encodeBits_fresh hc (by omega) (hids u) (hsorted u) (hlen u hu)
        hsimd hv
    · intro u _ hu hf
      have hsmall := hwrote.small u hu hf
      have hle := c.maxIntegerSize_le
      unfold HybridEncode.getIntSize at hsmall
      rw [HybridEncode.isDecodable, hwrote.record u hu, HybridEncode.isOne_encodeBits hc (by omega)
        (hids u) (hlen u hu) (isRecord_ofBitSize c), decide_eq_true_eq]
      omega

/-- `GetRequiredBytes` sums up in a `uint32_t`, at most five bytes for an id. -/
def Summable (c : Config) (copies : Nat) : Prop := 5 * (copies * c.vertexSize) < 2 ^ 32

instance (c : Config) (copies : Nat) : Decidable (Summable c copies) :=
  inferInstanceAs (Decidable (_ < _))

/-- What a type asks of the sizes and of the graph. -/
def Suits (file : EdgeFile c.vertexSize) (copies : Nat) : VendType → Prop
  | .simdDelta => c.Narrow ∧ Summable c copies
  | .simdDeltaV1 => c.Narrow ∧ Summable c copies
  | .simdDeltaV2 => c.Narrow ∧ Summable c copies
  | .range => RangeEncode.Ranged c ∧ Fillable file copies (RangeEncode.getIntSize c)
  | .bloom => RangeEncode.Ranged c ∧ Fillable file copies (BloomEncode.getIntSize c)
  | .hybrid => c.Packed ∧ Fillable file copies (HybridEncode.getIntSize c)
  | _ => False

include hsize hcopies in
/-- However often the neighbours are repeated in the lists, what is built from them, written
    and loaded again contradicts nothing in the graph: with the SIMD delta types on every
    graph, and with the types that peel by degree when the gaps between the degrees do no
    harm. -/
theorem records_sound (hsimd : Bool) (others : VendType → Option VendClass) {vendType : VendType}
    (ht : Suits file copies vendType) :
    ∃ vend, getEncode c hsimd env others vendType = some vend ∧ vend.Sound file copies := by
  cases vendType with
  | simdDelta => exact ⟨_, rfl, sound_simdVend hsize env hcopies ht.1 .v0⟩
  | simdDeltaV1 => exact ⟨_, rfl, sound_simdVend hsize env hcopies ht.1 .v1⟩
  | simdDeltaV2 => exact ⟨_, rfl, sound_simdVend hsize env hcopies ht.1 .v2⟩
  | range => exact ⟨_, rfl, sound_rangeVend env hcopies ht.1 ht.2⟩
  | bloom => exact ⟨_, rfl, sound_bloomVend env hcopies ht.1 ht.2⟩
  | hybrid => exact ⟨_, rfl, sound_hybridVend hsize env hcopies ht.1 hsimd ht.2⟩
  | _ => exact ht.elim

/-- A stable sort, sets in the order of insertion, and zeros behind the records. -/
def stable (c : Config) : Unspecified c where
  sort lists := (List.range' 1 c.vertexSize).mergeSort fun v w =>
    decide (BucketPeeling.degree (rows lists) v ≤ BucketPeeling.degree (rows lists) w)
  sorted lists := by
    refine ⟨List.mergeSort_perm _ _, List.Pairwise.imp of_decide_eq_true
      (List.pairwise_mergeSort ?_ ?_ _)⟩
    · intro u v w huv hvw
      exact decide_eq_true (Nat.le_trans (of_decide_eq_true huv) (of_decide_eq_true hvw))
    · intro u v
      simpa using Nat.le_total _ _
  iterate _ set := set
  perm _ set := List.Perm.refl set
  tail _ _ := 0

/-- The ten edges between five vertices. -/
def fiveEdges : EdgeFile 5 where
  lines := [some (1, 2), some (3, 1), some (1, 4), some (1, 5), some (2, 3), some (4, 2),
    some (2, 5), some (3, 4), some (3, 5), some (5, 4)]
  range := by decide
  loopless := by decide
  distinct := by decide

/-- The graph has been saved once. -/
theorem records_sound_five :
    (∃ vend, getEncode RangeVend.fiveConfig false (stable _) (fun _ => none) .simdDeltaV2 =
      some vend ∧ @VendClass.Sound vend 5 fiveEdges 2) ∧
    ∃ vend, getEncode RangeVend.fiveConfig false (stable _) (fun _ => none) .range =
      some vend ∧ @VendClass.Sound vend 5 fiveEdges 2 := by
  have hfill : @Fillable RangeVend.fiveConfig fiveEdges 2 3 :=
    ⟨by decide +kernel, by decide +kernel, ∅, by decide +kernel, by decide +kernel⟩
  have hnarrow : RangeVend.fiveConfig.Narrow := ⟨by decide, by decide⟩
  constructor
  · exact records_sound (c := RangeVend.fiveConfig) (by decide) (stable _) (by decide) false _
      ⟨hnarrow, by decide⟩
  · exact records_sound (c := RangeVend.fiveConfig) (by decide) (stable _) (by decide) false _
      ⟨RangeVend.fiveConfig_ranged, hfill⟩

end RecordVend

end Vend
