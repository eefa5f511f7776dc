import Vend.Encode.BitHashEncode
import Vend.Encode.CBFilterEncode
import Vend.Graph.Graph
import Vend.Lib.Run

/-! # Bit-hash filter under updates

    `BitHashVend::BuildEncoding` with the adjacency list in memory, and
    `BitHashEncode::InsertPair` and `DeletePair` on the records it leaves.

    An edge has one bit, in the record of its smaller endpoint. `InsertPair` sets it
    without looking at the list of the endpoint; `DeletePair` cannot clear it, since another
    neighbour may have the same bit, and writes the record anew from the database, which
    still holds the edge. The invariant of a run says of every record which bits are set
    (`Exact`), so the records depend on the current graph only.
-/

namespace Vend

namespace BitHashEncode

open BitSetSIMD

/-! ## Section 1: Model -/

/-- `InsertPair(vertex1, vertex2)`. -/
def insertPair (c : Config) (vertex1 vertex2 : Nat) (encodes : Records) : Records :=
  if vertex1 < vertex2 then encodes.update vertex1 fun encode => encode.setOne (hash c vertex2)
  else encodes.update vertex2 fun encode => encode.setOne (hash c vertex1)

/-- `DeletePair(vertex1, vertex2)`, with `db` for `DbQuery`. -/
def deletePair (c : Config) (db : Nat → List Nat) (vertex1 vertex2 : Nat) (encodes : Records) :
    Records :=
  let pair := CBFilterEncode.ordered vertex1 vertex2
  let neighbors := (db pair.1).erase pair.2
  encodeVertex c pair.1 neighbors (encodes.update pair.1 clear)

/-- `BitHashVend::BuildEncoding()` with an adjacency list, on a fresh encoder. -/
def buildEncoding (c : Config) (adjacencyList : List (List Nat)) : Option Records :=
  (List.range' 1 (adjacencyList.length - 1)).foldlM (fun encodes vertex1 =>
    encodes.updateAt vertex1 (encodeBits c vertex1 (adjacencyList.getD vertex1 [])))
    (Records.constructed c)

/-! ## Section 2: Runs -/

/-- The calls that change the graph. -/
inductive Update where
  | insert (u v : Nat)
  | delete (u v : Nat)

/-- `InsertPair` on an absent pair or `DeletePair` on a present one. The database is
    changed right after the call. -/
def Step (c : Config) (s : UpdateState c) : Update → UpdateState c → Prop
  | .insert u v, s' => IsPair c u v ∧ v ∉ s.2.get u ∧
      s'.1 = insertPair c u v s.1 ∧ s.2.Adds u v s'.2
  | .delete u v, s' => IsPair c u v ∧ v ∈ s.2.get u ∧
      s'.1 = deletePair c s.2.get u v s.1 ∧ s.2.Removes u v s'.2

/-- The records that the build leaves for a graph, and the graph in the database. -/
def Start (c : Config) (s : UpdateState c) : Prop :=
  ∃ g : Graph c.vertexSize, buildEncoding c g.adjacencyList = some s.1 ∧
    ∀ x y, y ∈ s.2.get x ↔ y ∈ g.adj x

/-- The states that the runs lead to. -/
def Reached (c : Config) : UpdateState c → Prop :=
  Run.Reachable (Start c) (Step c) fun _ _ => True

/-- Every edge is answered with `Uncertain`, and the bits of a record are those of the
    larger neighbours of its vertex. -/
def Exact (c : Config) (s : UpdateState c) : Prop :=
  (∀ x y, y ∈ s.2.get x →
    nePairTest c s.1 x y = .uncertain ∧ nePairTest c s.1 y x = .uncertain) ∧
  ∀ u, 1 ≤ u → u ≤ c.vertexSize → ∀ p,
    (s.1.record u).isOne p = true ↔ ∃ w ∈ s.2.get u, u < w ∧ p = w % c.perEncodeBitSize

/-- What a run keeps. Record 0 belongs to no vertex and stays clear. -/
structure Inv (c : Config) (s : UpdateState c) : Prop where
  length : s.1.length = c.vertexSize + 1
  isRecord : ∀ u ≤ c.vertexSize, IsRecord c (s.1.record u)
  bits : ∀ u ≤ c.vertexSize, ∀ p, (s.1.record u).bit p = true ↔
    1 ≤ u ∧ ∃ w ∈ s.2.get u, u < w ∧ p = hash c w

/-! ## Section 3: One record -/

section

variable {c : Config}

theorem hash_lt (w : Nat) : hash c w < c.perEncodeBitSize := by
  have hper := c.perEncodeBitSize_ge
  exact Nat.mod_lt _ (by omega)

/-- `EncodeVertex` sets the bits of the larger neighbours and no others. -/
theorem bit_encodeBits (u : Nat) (neighbors : List Nat) {encode : BitSetSIMD}
    (hrec : IsRecord c encode) :
    IsRecord c (encodeBits c u neighbors encode) ∧
    ∀ p, (encodeBits c u neighbors encode).bit p = true ↔
      ∃ w ∈ neighbors, u < w ∧ p = hash c w := by
  have heq : encodeBits c u neighbors encode =
      ((neighbors.filter (u < ·)).map (hash c)).foldl setOne encode.clear := by
    rw [encodeBits, List.foldl_map, List.foldl_filter]
    simp only [decide_eq_true_eq]
  have hlt : ∀ p ∈ (neighbors.filter (u < ·)).map (hash c), p < encode.clear.bitLength := by
    intro p hp
    obtain ⟨w, -, rfl⟩ := List.mem_map.mp hp
    have hlen : encode.bitLength = c.perEncodeBitSize := hrec
    rw [bitLength, length_clear, ← bitLength, hlen]
    exact hash_lt w
  obtain ⟨hlen, hbit⟩ := bit_setOnes encode.clear hlt
  rw [heq]
  refine ⟨?_, fun p => ?_⟩
  · rw [IsRecord, bitLength, hlen, length_clear]
    exact hrec
  · rw [hbit p, bit_clear, Bool.false_or, decide_eq_true_eq, List.mem_map]
    constructor
    · rintro ⟨w, hw, rfl⟩
      rw [List.mem_filter, decide_eq_true_eq] at hw
      exact ⟨w, hw.1, hw.2, rfl⟩
    · rintro ⟨w, hw, huw, rfl⟩
      exact ⟨w, List.mem_filter.mpr ⟨hw, decide_eq_true huw⟩, rfl⟩

/-! ## Section 4: The build -/

/-- The build goes through when there is a record for every vertex. -/
theorem buildEncoding_eq (hv : c.vertexSize + 1 < 2 ^ 32) (g : Graph c.vertexSize) :
    buildEncoding c g.adjacencyList = some ((List.range' 1 c.vertexSize).foldl (fun encodes u =>
      encodes.update u (encodeBits c u (g.adj u))) (Records.fresh c)) := by
  rw [buildEncoding, Records.constructed_eq hv, g.length, Nat.add_sub_cancel]
  refine (Records.foldlM_updateAt _ id (fun u => encodeBits c u (g.adj u)) _).trans ?_
  rw [if_pos]
  · rfl
  · intro u hu
    rw [List.mem_range'_1] at hu
    rw [Records.length_fresh, id]
    omega

theorem vertexSize_lt_of_build {g : Graph c.vertexSize} {encodes : Records}
    (h : buildEncoding c g.adjacencyList = some encodes) : c.vertexSize + 1 < 2 ^ 32 := by
  by_contra hv
  have hne := c.vertexSize_ne
  rw [buildEncoding, Records.constructed_eq_nil hv, g.length, Nat.add_sub_cancel] at h
  have hnone := (Records.foldlM_updateAt (List.range' 1 c.vertexSize) id
    (fun u => encodeBits c u (g.adj u)) []).symm.trans h
  rw [if_neg] at hnone
  · cases hnone
  · intro hall
    have := hall 1 (List.mem_range'_1.mpr (by omega))
    simp at this

theorem inv_of_start {s : UpdateState c} (h : Start c s) : Inv c s := by
  obtain ⟨g, hbuild, hdb⟩ := h
  rw [buildEncoding_eq (vertexSize_lt_of_build hbuild) g, Option.some_inj] at hbuild
  have hwrite : s.1 = Records.writeAll c fun u => encodeBits c u (g.adj u) := hbuild.symm
  have hrecord : ∀ u, 1 ≤ u → u ≤ c.vertexSize →
      s.1.record u = encodeBits c u (g.adj u) (ofBitSize c.perEncodeBitSize) := by
    intro u hu hu'
    rw [hwrite]
    exact Records.record_writeAll (fun u => encodeBits c u (g.adj u)) hu hu'
  have hzero : s.1.record 0 = ofBitSize c.perEncodeBitSize := by
    rw [hwrite]
    exact Records.record_writeAll_zero c _
  refine ⟨?_, ?_, ?_⟩
  · rw [hwrite, Records.length_writeAll]
  · intro u hu
    rcases Nat.eq_zero_or_pos u with rfl | hpos
    · rw [hzero]
      exact isRecord_ofBitSize c
    · rw [hrecord u hpos hu]
      exact (bit_encodeBits u _ (isRecord_ofBitSize c)).1
  · intro u hu p
    rcases Nat.eq_zero_or_pos u with rfl | hpos
    · simp [hzero]
    · rw [hrecord u hpos hu, (bit_encodeBits u _ (isRecord_ofBitSize c)).2]
      simp only [hdb, and_iff_right (show 1 ≤ u from hpos)]

/-! ## Section 5: One update -/

/-- Rewriting one record, given what it is to hold. -/
theorem Inv.update {s : UpdateState c} (h : Inv c s) {db : Db c.vertexSize} {a : Nat}
    (ha : 1 ≤ a ∧ a ≤ c.vertexSize) (f : BitSetSIMD → BitSetSIMD)
    (hother : ∀ u, u ≠ a → ∀ w, u < w → (w ∈ db.get u ↔ w ∈ s.2.get u))
    (hrec : IsRecord c (f (s.1.record a)))
    (hbits : ∀ p, (f (s.1.record a)).bit p = true ↔ ∃ w ∈ db.get a, a < w ∧ p = hash c w) :
    Inv c (s.1.update a f, db) := by
  have hlt : a < s.1.length := by
    rw [h.length]
    omega
  have hrecord := Records.record_update s.1 f hlt
  refine ⟨(Records.length_update _ _ _).trans h.length, ?_, ?_⟩
  · intro u hu
    show IsRecord c ((s.1.update a f).record u)
    rw [hrecord u]
    split
    · exact hrec
    · exact h.isRecord u hu
  · intro u hu p
    show ((s.1.update a f).record u).bit p = true ↔ _ ∧ ∃ w ∈ db.get u, _
    rw [hrecord u]
    split
    next heq =>
      subst heq
      rw [hbits p, and_iff_right ha.1]
    next hne =>
      rw [h.bits u hu p]
      constructor
      · rintro ⟨hpos, w, hw, huw, rfl⟩
        exact ⟨hpos, w, (hother u hne w huw).mpr hw, huw, rfl⟩
      · rintro ⟨hpos, w, hw, huw, rfl⟩
        exact ⟨hpos, w, (hother u hne w huw).mp hw, huw, rfl⟩

/-- Setting the bit of a new edge at its smaller endpoint `a`. -/
theorem Inv.insert {s : UpdateState c} (h : Inv c s) {db : Db c.vertexSize} {a b : Nat}
    (ha : 1 ≤ a ∧ a ≤ c.vertexSize) (hab : a < b) (hadds : s.2.Adds a b db) :
    Inv c (s.1.update a fun encode => encode.setOne (hash c b), db) := by
  have hrec := h.isRecord a ha.2
  have hlen : (s.1.record a).bitLength = c.perEncodeBitSize := hrec
  apply h.update ha
  · intro u hne w huw
    rw [hadds u w]
    refine ⟨?_, Or.inl⟩
    rintro (hold | ⟨heq, -⟩ | ⟨rfl, rfl⟩)
    · exact hold
    · exact absurd heq hne
    · omega
  · rw [IsRecord, bitLength, length_setOne]
    exact hlen
  · intro p
    rw [bit_setOne _ (by rw [hlen]; exact hash_lt b), Bool.or_eq_true, h.bits a ha.2 p,
      decide_eq_true_eq]
    constructor
    · rintro (rfl | ⟨-, w, hw, haw, rfl⟩)
      · exact ⟨b, (hadds a b).mpr (Or.inr (Or.inl ⟨rfl, rfl⟩)), hab, rfl⟩
      · exact ⟨w, (hadds a w).mpr (Or.inl hw), haw, rfl⟩
    · rintro ⟨w, hw, haw, rfl⟩
      rcases (hadds a w).mp hw with hold | ⟨-, rfl⟩ | ⟨heq, -⟩
      · exact Or.inr ⟨ha.1, w, hold, haw, rfl⟩
      · exact Or.inl rfl
      · omega

/-- Writing the record of the smaller endpoint `a` from the list without `b`. -/
theorem Inv.delete {s : UpdateState c} (h : Inv c s) {db : Db c.vertexSize} {a b : Nat}
    (ha : 1 ≤ a ∧ a ≤ c.vertexSize) (hab : a < b) (hremoves : s.2.Removes a b db) :
    Inv c (encodeVertex c a ((s.2.get a).erase b) (s.1.update a clear), db) := by
  have hlt : a < s.1.length := by
    rw [h.length]
    omega
  -- the record is cleared twice
  have heq : encodeVertex c a ((s.2.get a).erase b) (s.1.update a clear) =
      s.1.update a fun encode => encodeBits c a ((s.2.get a).erase b) encode.clear := by
    rw [encodeVertex, Records.update, Records.record_update _ _ hlt, if_pos rfl, Records.update,
      Records.update, List.set_set]
  have hclear : IsRecord c (s.1.record a).clear := by
    rw [IsRecord, bitLength, length_clear]
    exact h.isRecord a ha.2
  obtain ⟨hrec, hbit⟩ := bit_encodeBits a ((s.2.get a).erase b) hclear
  rw [heq]
  apply h.update ha _ _ hrec
  · intro p
    rw [hbit p]
    constructor
    all_goals
      rintro ⟨w, hw, haw, rfl⟩
      refine ⟨w, ?_, haw, rfl⟩
    · rw [(s.2.nodup a).mem_erase_iff] at hw
      refine (hremoves a w).mpr ⟨hw.2, ?_⟩
      rintro (⟨-, rfl⟩ | ⟨rfl, -⟩)
      · exact hw.1 rfl
      · omega
    · obtain ⟨hold, hne⟩ := (hremoves a w).mp hw
      rw [(s.2.nodup a).mem_erase_iff]
      refine ⟨fun heq => hne (Or.inl ⟨rfl, heq⟩), hold⟩
  · intro u hne w huw
    rw [hremoves u w]
    exact ⟨fun hw => hw.1, fun hw => ⟨hw, by omega⟩⟩

theorem Inv.step {s s' : UpdateState c} {i : Update} (h : Inv c s) (hstep : Step c s i s') :
    Inv c s' := by
  obtain ⟨encodes, db⟩ := s'
  cases i with
  | insert u v =>
    obtain ⟨⟨hu, hu', hv, hv', hne⟩, -, heq, hadds⟩ := hstep
    obtain rfl : encodes = insertPair c u v s.1 := heq
    rw [insertPair]
    split
    · exact h.insert ⟨hu, hu'⟩ ‹_› hadds
    · exact h.insert ⟨hv, hv'⟩ (by omega) hadds.symm
  | delete u v =>
    obtain ⟨⟨hu, hu', hv, hv', hne⟩, -, heq, hremoves⟩ := hstep
    obtain rfl : encodes = deletePair c s.2.get u v s.1 := heq
    rw [deletePair, CBFilterEncode.ordered]
    split
    · exact h.delete ⟨hv, hv'⟩ ‹_› hremoves.symm
    · exact h.delete ⟨hu, hu'⟩ (by omega) hremoves

theorem inv_of_reached {s : UpdateState c} (h : Reached c s) : Inv c s :=
  h.invariant (fun _ => inv_of_start) fun _ _ _ hs _ hstep => hs.step hstep

/-! ## Section 6: What the invariant says -/

theorem Inv.exact {s : UpdateState c} (h : Inv c s) : Exact c s := by
  have htest : ∀ a b, b ∈ s.2.get a → a < b → nonNeighborTest c s.1 a b = .uncertain := by
    intro a b hb hab
    obtain ⟨ha, ha'⟩ := Db.mem_range_self hb
    rw [nonNeighborTest, isOne_eq_bit, if_pos ((h.bits a ha' _).mpr ⟨ha, b, hb, hab, rfl⟩)]
  refine ⟨fun x y hy => ?_, fun u hu hu' p => ?_⟩
  · have hne : x ≠ y := fun heq => s.2.loopless x (by rwa [← heq] at hy)
    have hx := s.2.symm x y hy
    rw [nePairTest, nePairTest]
    rcases Nat.lt_or_ge x y with hlt | hge
    · rw [if_pos hlt, if_neg (by omega)]
      exact ⟨htest x y hy hlt, htest x y hy hlt⟩
    · rw [if_neg (by omega), if_pos (by omega)]
      exact ⟨htest y x hx (by omega), htest y x hx (by omega)⟩
  · rw [isOne_eq_bit, h.bits u hu' p, and_iff_right hu]
    rfl

/-- Two states over the same graph have the same records. -/
theorem Inv.records_eq {s s' : UpdateState c} (h : Inv c s) (h' : Inv c s')
    (hsame : ∀ x y, y ∈ s'.2.get x ↔ y ∈ s.2.get x) : s'.1 = s.1 := by
  apply Records.eq_of_record (h'.length.trans h.length.symm)
  intro u hu
  have hle : u ≤ c.vertexSize := by
    rw [h'.length] at hu
    omega
  have hrec : (s.1.record u).bitLength = c.perEncodeBitSize := h.isRecord u hle
  have hrec' : (s'.1.record u).bitLength = c.perEncodeBitSize := h'.isRecord u hle
  unfold bitLength at hrec hrec'
  apply eq_of_bit (by omega)
  intro p
  rw [Bool.eq_iff_iff, h'.bits u hle p, h.bits u hle p]
  simp only [hsame]

end

/-- The build goes through for every number of vertices whose records the encoder can
    count. After every run from a state that it leaves, edges are answered with `Uncertain`,
    every record has the bits of the larger neighbours of its vertex, and the records are
    those of every other run with the same graph. -/
theorem runs_exact (c : Config) :
    (c.vertexSize + 1 < 2 ^ 32 → ∀ g : Graph c.vertexSize,
      (buildEncoding c g.adjacencyList).isSome = true) ∧
    ∀ s, Reached c s → Exact c s ∧
      ∀ s', Reached c s' → (∀ x y, y ∈ s'.2.get x ↔ y ∈ s.2.get x) → s'.1 = s.1 := by
  refine ⟨fun hv g => by rw [buildEncoding_eq hv g]; rfl, fun s hs => ?_⟩
  have hinv := inv_of_reached hs
  exact ⟨hinv.exact, fun s' hs' hsame => hinv.records_eq (inv_of_reached hs') hsame⟩

/-- Three vertices and one word for each. -/
def threeConfig : Config := Config.ofSizes 1 3 1 (by decide)

/-- The path 1-2-3. -/
def path : Graph 3 where
  adjacencyList := [[], [2], [1, 3], [2]]
  zero := by decide
  length := by decide
  range := by decide
  loopless := by decide
  nodup := by decide
  symm := by decide

/-- The path with the edge between 3 and 1. -/
def triangle : Graph 3 where
  adjacencyList := [[], [2, 3], [1, 3], [2, 1]]
  zero := by decide
  length := by decide
  range := by decide
  loopless := by decide
  nodup := by decide
  symm := by decide

theorem runs_exact_triangle :
    ∃ encodes, buildEncoding threeConfig path.adjacencyList = some encodes ∧
      Exact threeConfig (insertPair threeConfig 3 1 encodes, triangle.db) := by
  obtain ⟨encodes, hbuild⟩ := Option.isSome_iff_exists.mp
    ((runs_exact threeConfig).1 (by decide) path)
  have hstep : Step threeConfig (encodes, path.db) (.insert 3 1)
      (insertPair threeConfig 3 1 encodes, triangle.db) :=
    ⟨by decide, show 1 ∉ path.adj 3 by decide, rfl,
      Graph.adds_of_forall_lt (by decide) (by decide) (by decide)⟩
  exact ⟨encodes, hbuild, ((runs_exact threeConfig).2 _
    (.next (.start ⟨path, hbuild, fun _ _ => Iff.rfl⟩) trivial hstep)).1⟩

end BitHashEncode

end Vend
