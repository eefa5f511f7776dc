import Vend.Encode.BitsComp
import Vend.Encode.VbyteDeltaComp
import Vend.Vend.CoreVerdict

/-! # Range vend with compression

    The build of `RangeCompEncode` by `RangeCompVend::BuildEncoding`, for the vend types
    `RangeBits`, `RangeVbyte` and `RangeDelta`. A build has a result when no vertex is
    encoded with an access behind the end of a list or of a record.

    What a vertex needs is `Exact`: its list is written with all accesses inside, and the
    record is exact up to `Uncertain`. The three methods have it for different lists, and
    so the three results differ. `RangeDelta` always builds; `RangeBits` does when no list can
    fill a record to its last bit; `RangeVbyte` builds exactly the graphs whose core is empty.
-/

namespace Vend

/-! ## Section 1: Model -/

namespace RangeCompVend

open RangeCompEncode WorklistPeeling BitSetSIMD

/-- `BuildEncoding()`. -/
def buildEncodingAt (c : Config) (codec : CompressionAt) (g : Graph c.vertexSize)
    (iterate : Nat → List Nat → List Nat) (encodes : Records) : Option Records := do
  let calls ← encodeCalls g codec.getRequiredBits (maxBits c) iterate
  calls.foldlM (fun encodes call => encodeVertexAt c codec call.vertex (passed call) encodes)
    encodes

/-- `NEpairTest(vertex1, vertex2)`, as `RangeEncode` has it. -/
def nePairTestAt (codec : CompressionAt) (encodes : Records) (vertex1 vertex2 : Nat) :
    Option PairType := do
  let type1 ← nonNeighborTestAt codec encodes vertex2 vertex1
  let type2 ← nonNeighborTestAt codec encodes vertex1 vertex2
  return PairType.min type1 type2

/-! ## Section 2: The calls on their records -/

/-- `EncodeVertex` writes `ids` into a cleared record with all accesses inside. The record is
    exact up to `Uncertain`, which it says only when the list does not fit. -/
def Exact (c : Config) (codec : CompressionAt) (ids : List Nat) : Prop :=
  ∃ bs, encodeBitsAt c codec ids (ofBitSize c.perEncodeBitSize) = some bs ∧
    ∀ w, 1 ≤ w → w ≤ c.vertexSize → ∃ type, testBitsAt codec bs w = some type ∧
      (type = .neighbor → w ∈ ids) ∧ (type = .nonNeighbor → w ∉ ids) ∧
      (type = .uncertain → maxBits c < codec.getRequiredBits ids)

section

variable {c : Config} {codec : CompressionAt}

/-- One call changes the record of its vertex only. -/
theorem record_encodeVertexAt_ne {v w : Nat} {ids : List Nat} {encodes encodes' : Records}
    (h : encodeVertexAt c codec v ids encodes = some encodes') (hne : w ≠ v) :
    encodes'.record w = encodes.record w ∧ encodes'.length = encodes.length := by
  unfold encodeVertexAt at h
  split at h
  · obtain ⟨bs, -, rfl⟩ := Option.map_eq_some_iff.mp h
    simp [Records.record, List.getD_eq_getElem?_getD, Ne.symm hne]
  · cases h

theorem length_encodeVertexAt {v : Nat} {ids : List Nat} {encodes encodes' : Records}
    (h : encodeVertexAt c codec v ids encodes = some encodes') :
    encodes'.length = encodes.length :=
  (record_encodeVertexAt_ne h (Nat.succ_ne_self v)).2

/-- The calls of a build, each with its own vertex. -/
abbrev run (c : Config) (codec : CompressionAt) (calls : List Call) (encodes : Records) :
    Option Records :=
  calls.foldlM (fun encodes call => encodeVertexAt c codec call.vertex (passed call) encodes)
    encodes

/-- A run that goes through leaves in every record what its call writes. -/
theorem record_of_run {calls : List Call} {encodes encodes' : Records}
    (hnodup : (calls.map Call.vertex).Nodup) (h : run c codec calls encodes = some encodes') :
    (∀ v, v ∉ calls.map Call.vertex → encodes'.record v = encodes.record v) ∧
    ∀ call ∈ calls, encodeBitsAt c codec (passed call) (encodes.record call.vertex) =
      some (encodes'.record call.vertex) := by
  induction calls generalizing encodes with
  | nil =>
    obtain rfl : encodes = encodes' := Option.some_inj.mp h
    exact ⟨fun _ _ => rfl, by simp⟩
  | cons first calls ih =>
    rw [List.map_cons, List.nodup_cons] at hnodup
    obtain ⟨hnot, hnodup'⟩ := hnodup
    obtain ⟨middle, hfirst, hrest⟩ : ∃ middle,
        encodeVertexAt c codec first.vertex (passed first) encodes = some middle ∧
          run c codec calls middle = some encodes' := by
      rw [run, List.foldlM_cons] at h
      exact Option.bind_eq_some_iff.mp h
    obtain ⟨hother, hwritten⟩ := ih hnodup' hrest
    refine ⟨?_, ?_⟩
    · intro v hv
      rw [List.map_cons, List.mem_cons, not_or] at hv
      rw [hother v hv.2, (record_encodeVertexAt_ne hfirst hv.1).1]
    · intro call hcall
      rcases List.mem_cons.mp hcall with rfl | hcall'
      · -- the calls behind leave the record of the first one alone
        rw [hother _ hnot]
        exact (exists_record_of_encodeVertexAt hfirst).2
      · have hne : call.vertex ≠ first.vertex :=
          fun heq => hnot (heq ▸ List.mem_map_of_mem hcall')
        rw [← (record_encodeVertexAt_ne hfirst hne).1]
        exact hwritten call hcall'

/-- When every call goes through on the record it finds, so does the run. -/
theorem exists_run {calls : List Call} {encodes : Records}
    (hnodup : (calls.map Call.vertex).Nodup)
    (hlt : ∀ call ∈ calls, call.vertex < encodes.length)
    (hbits : ∀ call ∈ calls, ∃ bs,
      encodeBitsAt c codec (passed call) (encodes.record call.vertex) = some bs) :
    ∃ encodes', run c codec calls encodes = some encodes' := by
  induction calls generalizing encodes with
  | nil => exact ⟨encodes, rfl⟩
  | cons first calls ih =>
    rw [List.map_cons, List.nodup_cons] at hnodup
    obtain ⟨hnot, hnodup'⟩ := hnodup
    obtain ⟨bs, hbs⟩ := hbits first (by simp)
    obtain ⟨middle, hfirst, -⟩ := encodeVertexAt_eq_some (hlt first (by simp)) hbs
    have hlt' : ∀ call ∈ calls, call.vertex < middle.length := by
      intro call hcall
      rw [length_encodeVertexAt hfirst]
      exact hlt call (by simp [hcall])
    have hbits' : ∀ call ∈ calls, ∃ bs,
        encodeBitsAt c codec (passed call) (middle.record call.vertex) = some bs := by
      intro call hcall
      have hne : call.vertex ≠ first.vertex :=
        fun heq => hnot (heq ▸ List.mem_map_of_mem hcall)
      rw [(record_encodeVertexAt_ne hfirst hne).1]
      exact hbits call (by simp [hcall])
    obtain ⟨encodes', hrest⟩ := ih hnodup' hlt' hbits'
    exact ⟨encodes', by rw [run, List.foldlM_cons, hfirst]; exact hrest⟩

end

/-! ## Section 3: The build -/

/-- Every pair of vertices gets an answer, and the answers leave open at most the pairs of the
    core. -/
def Answers {c : Config} (codec : CompressionAt) (g : Graph c.vertexSize) (encodes : Records)
    (core : Nat → Prop) : Prop :=
  ∃ verdict, (∀ u v, 1 ≤ u → u ≤ c.vertexSize → 1 ≤ v → v ≤ c.vertexSize →
      nePairTestAt codec encodes u v = some (verdict u v)) ∧
    g.DecidedOutside core verdict

section

variable {c : Config} {codec : CompressionAt} {g : Graph c.vertexSize}
variable {calls : List Call} {first : Nat → Bool} {keep : Nat → Nat → Bool}
variable (hcover : Covering (List.range' 1 c.vertexSize) g.lists
  (fun ls => decide (codec.getRequiredBits (ls.getD 0 []) ≤ maxBits c) = true) calls first keep)
include hcover

/-- A call passes the neighbours that its vertex keeps. -/
theorem passed_eq {call : Call} (hcall : call ∈ calls) :
    passed call = (g.adj call.vertex).filter (keep call.vertex) := by
  rw [passed, (hcover.call_eq call hcall).2]
  rfl

/-- The vertices of the calls, and the cleared record that each of them finds. -/
theorem calls_spec (hsize : c.vertexSize + 1 < 2 ^ 31) :
    (calls.map Call.vertex).Nodup ∧
    (∀ v, 1 ≤ v → v ≤ c.vertexSize → ∃ call ∈ calls, call.vertex = v) ∧
    ∀ call ∈ calls, call.vertex < (Records.constructed c).length ∧
      (Records.constructed c).record call.vertex = ofBitSize c.perEncodeBitSize := by
  refine ⟨hcover.perm.nodup_iff.mpr List.nodup_range', ?_, ?_⟩
  · intro v hv hv'
    exact List.mem_map.mp (hcover.perm.mem_iff.mpr (mem_vertices hv hv'))
  · intro call hcall
    have hmem := hcover.perm.mem_iff.mp (List.mem_map_of_mem hcall)
    rw [List.mem_range'_1] at hmem
    rw [Records.constructed_eq (by omega)]
    exact ⟨Records.lt_length_fresh (by omega), Records.record_fresh (by omega)⟩

/-- The build of exact records. -/
theorem answers_of_exact (hsize : c.vertexSize + 1 < 2 ^ 31)
    (hexact : ∀ call ∈ calls, Exact c codec (passed call)) :
    ∃ encodes, run c codec calls (Records.constructed c) = some encodes ∧
      Answers codec g encodes fun v => first v = false := by
  obtain ⟨hnodup, hcalled, hfound⟩ := calls_spec hcover hsize
  have hbits : ∀ call ∈ calls, ∃ bs, encodeBitsAt c codec (passed call)
      ((Records.constructed c).record call.vertex) = some bs := by
    intro call hcall
    obtain ⟨bs, hbs, -⟩ := hexact call hcall
    exact ⟨bs, by rw [(hfound call hcall).2]; exact hbs⟩
  obtain ⟨encodes, hrun⟩ := exists_run hnodup (fun call hcall => (hfound call hcall).1) hbits
  obtain ⟨-, hwritten⟩ := record_of_run hnodup hrun
  -- the record of a vertex is exact about the neighbours that it keeps
  have htest : ∀ u w, 1 ≤ u → u ≤ c.vertexSize → 1 ≤ w → w ≤ c.vertexSize → ∃ type,
      nonNeighborTestAt codec encodes u w = some type ∧
        Speaks (first u) (w ∈ (g.adj u).filter (keep u)) type := by
    intro u w hu hu' hw hw'
    obtain ⟨call, hcall, rfl⟩ := hcalled u hu hu'
    obtain ⟨bs, hbs, hanswers⟩ := hexact call hcall
    have hrecord : encodes.record call.vertex = bs := by
      have heq := hwritten call hcall
      rw [(hfound call hcall).2, hbs] at heq
      exact (Option.some_inj.mp heq).symm
    obtain ⟨type, htype, hneighbor, hnot, huncertain⟩ := hanswers w hw hw'
    rw [passed_eq hcover hcall] at hneighbor hnot huncertain
    refine ⟨type, by rw [nonNeighborTestAt, hrecord]; exact htype, hneighbor, ?_, ?_⟩
    · exact fun hstored hnon => hnot hnon hstored
    · intro hfirst hopen
      have hfits := of_decide_eq_true (hcover.small_of_first (mem_vertices hu hu') hfirst)
      exact absurd hfits (Nat.not_le_of_gt (huncertain hopen))
  refine ⟨encodes, hrun, fun u v => PairType.min ((nonNeighborTestAt codec encodes u v).getD
    .uncertain) ((nonNeighborTestAt codec encodes v u).getD .uncertain), ?_, ?_⟩
  · intro u v hu hu' hv hv'
    obtain ⟨type₁, htype₁, -⟩ := htest u v hu hu' hv hv'
    obtain ⟨type₂, htype₂, -⟩ := htest v u hv hv' hu hu'
    have hmin : nePairTestAt codec encodes u v = some (PairType.min type₂ type₁) := by
      rw [nePairTestAt, htype₁, htype₂]
      rfl
    simp only [hmin, htype₁, htype₂, PairType.min_comm, Option.getD_some]
  · apply Graph.decidedOutside_min hcover (fun v => mem_vertices) (fun _ _ => rfl)
    intro u v hu hu' hv hv'
    obtain ⟨type, htype, hspeaks⟩ := htest u v hu hu' hv hv'
    rw [htype]
    exact hspeaks

end

section

variable {c : Config} {codec : CompressionAt} {g : Graph c.vertexSize}
variable {iterate : Nat → List Nat → List Nat} {full : List Nat → Nat}

/-- The calls of a build whose sizes do not wrap around. -/
theorem exists_calls (hsize : c.vertexSize + 1 < 2 ^ 31) (hsorted : g.Sorted)
    (hiterate : ∀ n set, (iterate n set).Perm set)
    (hmodular : Modular c.vertexSize codec.getRequiredBits full)
    (hfull : ∀ v, full (g.adj v) < 2 ^ 32) :
    ∃ calls first keep,
      (∀ encodes, buildEncodingAt c codec g iterate encodes = run c codec calls encodes) ∧
      Covering (List.range' 1 c.vertexSize) g.lists
        (fun ls => decide (codec.getRequiredBits (ls.getD 0 []) ≤ maxBits c) = true)
        calls first keep ∧
      PeelsGraph g codec.getRequiredBits (maxBits c) calls ∧
      ∀ v, 1 ≤ v → v ≤ c.vertexSize →
        (first v = false ↔ Core g codec.getRequiredBits (maxBits c) v) := by
  obtain ⟨calls, first, keep, hrun, hcover, hcore, -⟩ :=
    encodeCalls_core (hmodular.shrinks hsorted hfull) hsize hiterate
  obtain ⟨calls', -, -, hrun', hpeels, -⟩ :
      ∃ calls' first keep, WorklistPeeling.encodeCalls g codec.getRequiredBits (maxBits c) iterate =
        some calls' ∧ _ := encodeCalls_spec hsize hiterate
  obtain rfl : calls' = calls := Option.some_inj.mp (hrun'.symm.trans hrun)
  refine ⟨calls', first, keep, fun encodes => ?_, hcover, hpeels, hcore⟩
  have hcalls : encodeCalls g codec.getRequiredBits (maxBits c) iterate = some calls' := hrun
  simp only [buildEncodingAt, hcalls, Option.bind_eq_bind, Option.bind_some]

/-- When every list that a call can pass is written exactly, the build goes through, and
    outside the core its answers are the graph. -/
theorem buildEncodingAt_of_exact (hsize : c.vertexSize + 1 < 2 ^ 31) (hsorted : g.Sorted)
    (hiterate : ∀ n set, (iterate n set).Perm set)
    (hmodular : Modular c.vertexSize codec.getRequiredBits full)
    (hfull : ∀ v, full (g.adj v) < 2 ^ 32)
    (hexact : ∀ v (keep : Nat → Bool), Exact c codec ((g.adj v).filter keep)) :
    ∃ encodes, buildEncodingAt c codec g iterate (Records.constructed c) = some encodes ∧
      Answers codec g encodes (Core g codec.getRequiredBits (maxBits c)) := by
  obtain ⟨calls, first, keep, hbuild, hcover, -, hcore⟩ :=
    exists_calls hsize hsorted hiterate hmodular hfull
  obtain ⟨encodes, hrun, verdict, hverdict, hdecided⟩ := answers_of_exact hcover hsize
    fun call hcall => passed_eq hcover hcall ▸ hexact call.vertex (keep call.vertex)
  refine ⟨encodes, by rw [hbuild, hrun], verdict, hverdict, ?_⟩
  exact hdecided.imp fun v hv hv' hopen => (hcore v hv hv').mp hopen

end

/-! ## Section 4: The three methods -/

section

variable {c : Config}

/-- The kept neighbours are a list of distinct ids. -/
theorem kept_spec {g : Graph c.vertexSize} (hsorted : g.Sorted) (v : Nat) (keep : Nat → Bool) :
    IdList c ((g.adj v).filter keep) ∧ ((g.adj v).filter keep).Pairwise (· < ·) :=
  ⟨fun _ hid => Graph.mem_range (List.mem_of_mem_filter hid), (hsorted v).filter keep⟩

/-- A verdict that tells a stored id from another one. -/
theorem verdict_spec (stored long : Prop) [Decidable stored] :
    (verdict (decide stored) = .neighbor → stored) ∧
    (verdict (decide stored) = .nonNeighbor → ¬ stored) ∧
    (verdict (decide stored) = .uncertain → long) := by
  refine ⟨fun h => of_decide_eq_true (verdict_eq_neighbor.mp h), fun h hstored => ?_,
    fun h => absurd h (verdict_ne_uncertain _)⟩
  rw [decide_eq_true hstored] at h
  cases h

theorem exact_delta (hk : 3 ≤ c.kSize) (hk' : c.kSize ≤ 64) (hsize : c.vertexSize + 1 < 2 ^ 28)
    {ids : List Nat} (hids : IdList c ids) (hdistinct : ids.Pairwise (· < ·)) :
    Exact c (VbyteDeltaComp.codec c) ids := by
  have hc : RangeEncode.Worded c := ⟨hk, hk', by omega⟩
  have hbits : (VbyteDeltaComp.codec c).getRequiredBits ids = VbyteDeltaComp.fullBits ids :=
    VbyteDeltaComp.getRequiredBits_distinct hsize hids hdistinct
  rw [Exact, hbits]
  rcases Nat.lt_or_ge (maxBits c) (VbyteDeltaComp.fullBits ids) with hlong | hfit
  · obtain ⟨bs, idx, n, hencode, htwo, hend, hstores⟩ := VbyteDeltaComp.exists_encodeBitsAt_block
      hc hsize hids hdistinct hlong (isRecord_ofBitSize c)
    refine ⟨bs, hencode, fun w hw _ => ?_⟩
    obtain ⟨type, htest, hneighbor, hnot⟩ := VbyteDeltaComp.testBitsAt_block hc hsize hids
      hdistinct htwo hend hstores hw
    exact ⟨type, htest, hneighbor, hnot, fun _ => hlong⟩
  · obtain ⟨bs, hencode, hstores⟩ := VbyteDeltaComp.exists_encodeBitsAt_full hc hsize hids
      hdistinct hfit (isRecord_ofBitSize c)
    refine ⟨bs, hencode, fun w hw _ => ?_⟩
    exact ⟨_, VbyteDeltaComp.testBitsAt_full hc hsize hids hdistinct hstores hw,
      verdict_spec (w ∈ ids) _⟩

/-- The search counts the elements of a list whose size does not wrap around in an `int`. -/
theorem length_add_two_lt (hc : BitsComp.Packed c) {ids : List Nat} (hids : IdList c ids)
    (hdistinct : ids.Pairwise (· < ·)) (hfull : ids.length * c.vertexBitSize < 2 ^ 32) :
    ids.length + 2 < 2 ^ 31 := by
  have hle := (GapCost.sublist_range' hdistinct hids).length_le
  rw [List.length_range'] at hle
  have hlt := hc.vertexSize_lt
  rcases Nat.lt_or_ge c.vertexBitSize 3 with hnarrow | hwide
  · -- fields of two bits hold two ids
    have hpow := Nat.pow_le_pow_right (show 0 < 2 by decide) (Nat.le_of_lt_succ hnarrow)
    omega
  · have hmul := Nat.mul_le_mul_left ids.length hwide
    omega

/-- `RangeBits` writes a list exactly unless it fills the record to the last bit. -/
theorem exact_bits (hc : BitsComp.Packed c) {ids : List Nat} (hids : IdList c ids)
    (hdistinct : ids.Pairwise (· < ·)) (hfull : ids.length * c.vertexBitSize < 2 ^ 32)
    (hne : ids.length * c.vertexBitSize ≠ maxBits c) : Exact c (BitsComp.codec c) ids := by
  have hlt := hc.worded.vertexSize_lt
  have hsorted := hdistinct.imp Nat.le_of_lt
  have hmod : ids.length * c.vertexBitSize % 2 ^ 32 = ids.length * c.vertexBitSize :=
    Nat.mod_eq_of_lt hfull
  have hrecord : ∃ bs, encodeBitsAt c (BitsComp.codec c) ids (ofBitSize c.perEncodeBitSize) =
      some bs ∧ BitsComp.Answers c ids bs := by
    rcases Nat.lt_or_gt_of_ne hne with hless | hmore
    · obtain ⟨bs, hbs, -⟩ := BitsComp.encodeBitsAt_of_fits hc.toFielded hids
        (isRecord_ofBitSize c) (Nat.le_of_lt hless)
      exact ⟨bs, hbs, (BitsComp.answers_iff_of_fits hc hids hsorted (isRecord_ofBitSize c)
        (Nat.le_of_lt hless) hbs).mpr (Or.inl hless)⟩
    · have hmany : BitsComp.maxNums c ≤ ids.length :=
        Nat.div_le_of_le_mul (by rw [Nat.mul_comm]; omega)
      have hshort := length_add_two_lt hc hids hdistinct hfull
      have hsearch : BitsComp.SearchFits c (0 :: ids ++ [c.vertexSize + 1]) := by
        apply BitsComp.searchFits_of_lt hc (by simp; omega)
        simpa using hshort
      obtain ⟨k, bs, hbs, hend, hholds⟩ := BitsComp.encodeBitsAt_of_searchFits hc hids
        (isRecord_ofBitSize c) hsorted (by omega) hsearch
      exact ⟨bs, hbs, BitsComp.answers_inner hc hids hsorted hmore hend hholds⟩
  obtain ⟨bs, hbs, hanswers⟩ := hrecord
  refine ⟨bs, hbs, fun w hw hw' => ?_⟩
  obtain ⟨type, htype, hneighbor, hnot, huncertain⟩ := hanswers w hw hw'
  refine ⟨type, htype, hneighbor, hnot, fun hopen => ?_⟩
  exact Nat.lt_of_lt_of_eq (huncertain hopen) hmod.symm

/-- `RangeVbyte` writes a list that fits exactly. -/
theorem exact_vbyte (hc : RangeEncode.Worded c) (hsize : c.vertexSize + 1 < 2 ^ 28)
    {ids : List Nat} (hids : IdList c ids) (hdistinct : ids.Pairwise (· < ·))
    (hfit : VbyteComp.fullBits ids ≤ maxBits c) : Exact c (VbyteComp.codec c) ids := by
  obtain ⟨bs, hbs, hstores⟩ := VbyteComp.exists_encodeBitsAt hc hfit (isRecord_ofBitSize c)
  refine ⟨bs, hbs, fun w hw hw' => ?_⟩
  exact ⟨_, hstores.testBitsAt hc hids (hdistinct.imp Nat.le_of_lt) hsize hw,
    verdict_spec (w ∈ ids) _⟩

end

/-! ## Section 5: The builds of the three vend types -/

/-- Six vertices, three words to a record and fields of three bits. -/
def threeWords : Config := .ofSizes 3 6 2 (by decide)

/-- The complete graph on four vertices, and an edge. -/
def sixVertices : Graph 6 where
  adjacencyList := [[], [2, 3, 4], [1, 3, 4], [1, 2, 4], [1, 2, 3], [6], [5]]
  zero := by decide
  length := by decide
  range := by decide
  loopless := by decide
  nodup := by decide
  symm := by decide

theorem sixVertices_sorted : sixVertices.Sorted := Graph.sorted_of_forall_lt (by decide)

/-- `RangeDelta` builds every graph, in whatever order the sets are gone through. -/
theorem rangeDelta_decided {c : Config} {g : Graph c.vertexSize} (hsorted : g.Sorted)
    {iterate : Nat → List Nat → List Nat} (hiterate : ∀ n set, (iterate n set).Perm set)
    (hk : 3 ≤ c.kSize) (hk' : c.kSize ≤ 64)
    (hsize : c.vertexSize + 1 < 2 ^ 28) :
    ∃ encodes, buildEncodingAt c (VbyteDeltaComp.codec c) g iterate (Records.constructed c) =
        some encodes ∧
      Answers (VbyteDeltaComp.codec c) g encodes
        (Core g VbyteDeltaComp.getRequiredBits (maxBits c)) := by
  apply buildEncodingAt_of_exact (by omega) hsorted hiterate (@modular_delta c)
  · intro v
    have hle := (modular_delta (c := c)).mono _ _ (GapCost.sublist_range' (hsorted v)
      fun w hw => Graph.mem_range hw) List.pairwise_lt_range'
    rw [VbyteDeltaComp.fullBits_range'] at hle
    omega
  · intro v keep
    obtain ⟨hids, hdistinct⟩ := kept_spec hsorted v keep
    exact exact_delta hk hk' hsize hids hdistinct

theorem rangeDelta_decided_six :
    ∃ encodes, buildEncodingAt threeWords (VbyteDeltaComp.codec threeWords) sixVertices
        (fun _ set => set.reverse) (Records.constructed threeWords) = some encodes ∧
      Answers (c := threeWords) (VbyteDeltaComp.codec threeWords) sixVertices encodes
        (Core sixVertices VbyteDeltaComp.getRequiredBits (maxBits threeWords)) :=
  rangeDelta_decided (c := threeWords) sixVertices_sorted (fun _ set => List.reverse_perm set)
    (by decide) (by decide) (by decide)

/-- `RangeBits` builds every graph when the fields of a record do not fill it to its last
    bit. -/
theorem rangeBits_decided {c : Config} {g : Graph c.vertexSize} (hsorted : g.Sorted)
    {iterate : Nat → List Nat → List Nat} (hiterate : ∀ n set, (iterate n set).Perm set)
    (hc : BitsComp.Packed c) (hsize : c.vertexSize + 1 < 2 ^ 31)
    (hfull : ∀ v, (g.adj v).length * c.vertexBitSize < 2 ^ 32)
    (hrest : ¬ c.vertexBitSize ∣ maxBits c) :
    ∃ encodes, buildEncodingAt c (BitsComp.codec c) g iterate (Records.constructed c) =
        some encodes ∧
      Answers (BitsComp.codec c) g encodes
        (Core g (BitsComp.getRequiredBits c) (maxBits c)) := by
  apply buildEncodingAt_of_exact hsize hsorted hiterate (@modular_bits c) hfull
  intro v keep
  obtain ⟨hids, hdistinct⟩ := kept_spec hsorted v keep
  apply exact_bits hc hids hdistinct
  · have hle := Nat.mul_le_mul_right c.vertexBitSize (List.length_filter_le keep (g.adj v))
    exact Nat.lt_of_le_of_lt hle (hfull v)
  · intro heq
    exact hrest ⟨_, by rw [← heq, Nat.mul_comm]⟩

theorem rangeBits_decided_six : ¬ threeWords.vertexBitSize ∣ maxBits threeWords ∧
    ∃ encodes, buildEncodingAt threeWords (BitsComp.codec threeWords) sixVertices
        (fun _ set => set) (Records.constructed threeWords) = some encodes ∧
      Answers (c := threeWords) (BitsComp.codec threeWords) sixVertices encodes
        (Core sixVertices (BitsComp.getRequiredBits threeWords) (maxBits threeWords)) := by
  have hpacked : BitsComp.Packed threeWords := ⟨⟨by decide, by decide, by decide⟩, by decide⟩
  have hrest : ¬ threeWords.vertexBitSize ∣ maxBits threeWords := by decide
  have hfull : ∀ v, (sixVertices.adj v).length * threeWords.vertexBitSize < 2 ^ 32 := by
    intro v
    rcases Nat.lt_or_ge 6 v with hv | hv
    · rw [Graph.adj_of_lt _ hv]
      decide
    · revert v
      decide
  exact ⟨hrest, rangeBits_decided (c := threeWords) sixVertices_sorted
    (fun _ set => List.Perm.refl set) hpacked (by decide) hfull hrest⟩

section

variable {c : Config} (hc : RangeEncode.Worded c) {g : Graph c.vertexSize} (hsorted : g.Sorted)
variable (hfull : ∀ v, VbyteComp.fullBits (g.adj v) < 2 ^ 32)
variable {calls : List Call} {first : Nat → Bool} {keep : Nat → Nat → Bool}
variable (hcover : Covering (List.range' 1 c.vertexSize) g.lists
  (fun ls => decide ((VbyteComp.codec c).getRequiredBits (ls.getD 0 []) ≤ maxBits c) = true)
  calls first keep)
variable (hpeels : PeelsGraph g VbyteComp.getRequiredBits (maxBits c) calls)
include hsorted hfull hcover

/-- The size of a passed list does not wrap around. -/
theorem getRequiredBits_passed {call : Call} (hcall : call ∈ calls) :
    VbyteComp.getRequiredBits (passed call) = VbyteComp.fullBits (passed call) := by
  have hle := (modular_vbyte (c := c)).mono _ _ (List.filter_sublist (p := keep call.vertex))
    (hsorted call.vertex)
  rw [passed_eq hcover hcall, VbyteComp.getRequiredBits_eq]
  exact Nat.mod_eq_of_lt (Nat.lt_of_le_of_lt hle (hfull call.vertex))

include hc hpeels

/-- A list that does not fit stops the build. -/
theorem first_of_run (hsize : c.vertexSize + 1 < 2 ^ 31) {encodes : Records}
    (hrun : run c (VbyteComp.codec c) calls (Records.constructed c) = some encodes) {v : Nat}
    (hv : 1 ≤ v) (hv' : v ≤ c.vertexSize) : first v = true := by
  obtain ⟨hnodup, hcalled, hfound⟩ := calls_spec hcover hsize
  by_contra hopen
  obtain ⟨call, hcall, rfl⟩ := hcalled v hv hv'
  have hlong : maxBits c < VbyteComp.getRequiredBits (passed call) :=
    hpeels.final call hcall (by rw [(hcover.call_eq call hcall).1]; simpa using hopen)
  rw [getRequiredBits_passed hsorted hfull hcover hcall] at hlong
  have hwritten := (record_of_run hnodup hrun).2 call hcall
  rw [(hfound call hcall).2,
    VbyteComp.encodeBitsAt_eq_none hc hlong (isRecord_ofBitSize c)] at hwritten
  cases hwritten

/-- When all vertices are peeled off, all lists fit. -/
theorem exact_of_first (hsize : c.vertexSize + 1 < 2 ^ 28)
    (hall : ∀ v, 1 ≤ v → v ≤ c.vertexSize → first v = true) :
    ∀ call ∈ calls, Exact c (VbyteComp.codec c) (passed call) := by
  intro call hcall
  obtain ⟨hv, hv'⟩ := hpeels.range call hcall
  have hfits : VbyteComp.getRequiredBits (passed call) ≤ maxBits c :=
    of_decide_eq_true (hcover.small call hcall
      (by rw [(hcover.call_eq call hcall).1]; exact hall _ hv hv'))
  rw [getRequiredBits_passed hsorted hfull hcover hcall] at hfits
  rw [passed_eq hcover hcall] at hfits ⊢
  obtain ⟨hids, hdistinct⟩ := kept_spec hsorted call.vertex (keep call.vertex)
  exact exact_vbyte hc hsize hids hdistinct hfits

end

/-- `RangeVbyte` builds exactly the graphs that are peeled off completely, and then every
    verdict is the truth. -/
theorem rangeVbyte_build_iff {c : Config} {g : Graph c.vertexSize} (hsorted : g.Sorted)
    {iterate : Nat → List Nat → List Nat} (hiterate : ∀ n set, (iterate n set).Perm set)
    (hk : 3 ≤ c.kSize) (hk' : c.kSize ≤ 64)
    (hsize : c.vertexSize + 1 < 2 ^ 28) (hfull : ∀ v, VbyteComp.fullBits (g.adj v) < 2 ^ 32) :
    ((∃ encodes, buildEncodingAt c (VbyteComp.codec c) g iterate (Records.constructed c) =
        some encodes) ↔
      ∀ v, 1 ≤ v → v ≤ c.vertexSize → ¬ Core g VbyteComp.getRequiredBits (maxBits c) v) ∧
    ∀ encodes, buildEncodingAt c (VbyteComp.codec c) g iterate (Records.constructed c) =
        some encodes →
      ∀ u v, 1 ≤ u → u ≤ c.vertexSize → 1 ≤ v → v ≤ c.vertexSize → u ≠ v →
        nePairTestAt (VbyteComp.codec c) encodes u v =
          some (if v ∈ g.adj u then .neighbor else .nonNeighbor) := by
  have hc : RangeEncode.Worded c := ⟨hk, hk', by omega⟩
  have hsize' : c.vertexSize + 1 < 2 ^ 31 := by omega
  obtain ⟨calls, first, keep, hbuild, hcover, hpeels, hcore⟩ :
      ∃ calls first keep,
        (∀ encodes, buildEncodingAt c (VbyteComp.codec c) g iterate encodes = _) ∧ _ :=
    exists_calls hsize' hsorted hiterate (@modular_vbyte c) hfull
  simp only [hbuild]
  constructor
  · constructor
    · rintro ⟨encodes, hrun⟩ v hv hv' hin
      have hopen := (hcore v hv hv').mpr hin
      rw [first_of_run hc hsorted hfull hcover hpeels hsize' hrun hv hv'] at hopen
      cases hopen
    · intro hnone
      have hall : ∀ v, 1 ≤ v → v ≤ c.vertexSize → first v = true := by
        intro v hv hv'
        by_contra hopen
        exact hnone v hv hv' ((hcore v hv hv').mp (by simpa using hopen))
      obtain ⟨encodes, hrun, -⟩ := answers_of_exact hcover hsize'
        (exact_of_first hc hsorted hfull hcover hpeels hsize hall)
      exact ⟨encodes, hrun⟩
  · intro encodes hrun u v hu hu' hv hv' hne
    have hall : ∀ v, 1 ≤ v → v ≤ c.vertexSize → first v = true :=
      fun v => first_of_run hc hsorted hfull hcover hpeels hsize' hrun
    obtain ⟨encodes', hrun', verdict, hverdict, hdecided⟩ := answers_of_exact hcover hsize'
      (exact_of_first hc hsorted hfull hcover hpeels hsize hall)
    obtain rfl : encodes' = encodes := Option.some_inj.mp (hrun'.symm.trans hrun)
    have hclosed : ¬ (first u = false ∧ first v = false) := by
      rw [hall u hu hu']
      simp
    rw [hverdict u v hu hu' hv hv', hdecided.eq_of_not_core hu hu' hv hv' hne hclosed]

/-- No vertex is left when everything is built. -/
theorem rangeVbyte_build_six :
    (∃ encodes, buildEncodingAt threeWords (VbyteComp.codec threeWords) sixVertices
        (fun _ set => set) (Records.constructed threeWords) = some encodes) ↔
      ∀ v, 1 ≤ v → v ≤ 6 →
        ¬ Core sixVertices VbyteComp.getRequiredBits (maxBits threeWords) v := by
  have hfull : ∀ v, VbyteComp.fullBits (sixVertices.adj v) < 2 ^ 32 := by
    intro v
    rcases Nat.lt_or_ge 6 v with hv | hv
    · rw [Graph.adj_of_lt _ hv]
      decide
    · revert v
      decide
  exact (rangeVbyte_build_iff (c := threeWords) (g := sixVertices) sixVertices_sorted
    (fun _ set => List.Perm.refl set) (by decide) (by decide) (by decide) hfull).1

end RangeCompVend

end Vend
