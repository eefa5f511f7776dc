import Vend.Vend.DeltaSIMDVend
import Vend.Vend.WorklistCore

/-! # Directed SIMD vend

    `encode/single/directed_simd.h` and `vend/dir_simd_vend.cpp`. Every vertex has two
    records, one for its targets and one for its sources, written like those of
    `DeltaSIMDEncode`; the verdict about `u -> v` combines the out-record of `u` with
    the in-record of `v`. The build peels by the sum of both lengths.
-/

namespace Vend

open DeltaSIMDCodec DeltaSIMDEncode WorklistPeeling

/-! ## Section 1: Model -/

/-- `class DirectedSIMD`. -/
structure DirectedSIMD where
  encodeBitset : Records
  inBitset : Records
  deriving DecidableEq

namespace DirectedSIMD

/-- A fresh `DirectedSIMD`. -/
def fresh (c : Config) : DirectedSIMD := ⟨Records.fresh c, Records.fresh c⟩

/-- `EncodeVertex(vertex_id, out_neigh, in_neigh)`. -/
def encodeVertex (c : Config) (vertexId : Nat) (outNeigh inNeigh : List Nat)
    (encodes : DirectedSIMD) : DirectedSIMD where
  encodeBitset := encodes.encodeBitset.update vertexId (encodeBits c .v0 outNeigh)
  inBitset := encodes.inBitset.update vertexId (encodeBits c .v0 inNeigh)

/-- `IsDecodable(vertex, out)`. -/
def isDecodable (encodes : DirectedSIMD) (vertex : Nat) (out : Bool) : Bool :=
  if out then (encodes.encodeBitset.record vertex).isOne 0
  else (encodes.inBitset.record vertex).isOne 0

/-- `NonNeighborTest(vertex1, vertex2, reverse)`. -/
def nonNeighborTest (c : Config) (tail : Bool → Nat → Nat → Byte) (encodes : DirectedSIMD)
    (vertex1 vertex2 : Nat) (reverse : Bool) : PairType :=
  let encode := if reverse then encodes.inBitset.record vertex1
    else encodes.encodeBitset.record vertex1
  -- `reverse` is handed to `IsDecodable` as its `out`: the flag is that of the other side.
  if encodes.isDecodable vertex1 reverse then
    findDecodable (codecOf .v0) (tail reverse vertex1) encode vertex2
  else findNonDecodable c (codecOf .v0) (tail reverse vertex1) encode vertex2

/-- `NEpairTest(vertex1, vertex2)`. -/
def nePairTest (c : Config) (tail : Bool → Nat → Nat → Byte) (encodes : DirectedSIMD)
    (vertex1 vertex2 : Nat) : PairType :=
  if encodes.isDecodable vertex1 true then
    if encodes.isDecodable vertex2 false then
      let type1 := nonNeighborTest c tail encodes vertex1 vertex2 false
      if type1 = .neighbor then type1
      else PairType.min type1 (nonNeighborTest c tail encodes vertex2 vertex1 true)
    else nonNeighborTest c tail encodes vertex1 vertex2 false
  else
    if encodes.isDecodable vertex2 false then
      nonNeighborTest c tail encodes vertex2 vertex1 true
    else
      PairType.min (nonNeighborTest c tail encodes vertex1 vertex2 false)
        (nonNeighborTest c tail encodes vertex2 vertex1 true)

end DirectedSIMD

namespace DirSIMDVend

variable {vertexSize : Nat}

/-- `len <= max_bytes_len`, where `len` is the 32-bit sum of both lengths. -/
def fits (c : Config) (ls : List (List Nat)) : Bool :=
  decide ((getRequiredBytes .v0 (ls.getD 0 []) + getRequiredBytes .v0 (ls.getD 1 [])) % 2 ^ 32 ≤
    getBytesSize c)

/-- The calls of `BuildEncoding`. -/
def encodeCalls (c : Config) (g : Digraph vertexSize) (iterate : Nat → List Nat → List Nat) :
    Option (List Call) :=
  peel vertexSize g.lists (fits c) iterate

/-- `BuildEncoding`. -/
def buildEncoding (c : Config) (g : Digraph vertexSize) (iterate : Nat → List Nat → List Nat)
    (encodes : DirectedSIMD) : Option DirectedSIMD :=
  (encodeCalls c g iterate).map fun calls => calls.foldl (fun st call =>
    DirectedSIMD.encodeVertex c call.vertex (call.neighbors.getD 0 []) (call.neighbors.getD 1 [])
      st) encodes

end DirSIMDVend

/-! ## Section 2: Records read with either flag -/

namespace DeltaSIMDEncode

/-- A record that spells out some ids, whatever its flag says. -/
structure Spells (codec : Codec) (ids : List Nat) (encode : BitSetSIMD) : Prop where
  size : encode.getEncodeSize = ids.length
  stored : ∀ tail, Stored (memory encode tail) (codec.encodeArray ids)

section

variable {c : Config} {codec : Codec} {ids : List Nat} {encode : BitSetSIMD}
variable (hrec : Spells codec ids encode) (hsound : ids ≠ [] → codec.Sound ids)
include hrec hsound

theorem Spells.findDecodable_eq (tail : Nat → Byte) {w : Nat} (hw : w < 2 ^ 31) :
    findDecodable codec tail encode w = if w ∈ ids then .neighbor else .nonNeighbor := by
  unfold findDecodable
  rw [hrec.size]
  by_cases hnil : ids = []
  · subst hnil
    rfl
  · have hfind := (hsound hnil).find _ (hrec.stored tail) w hw
    have hzero : ids.length ≠ 0 := fun h => hnil (List.length_eq_zero_iff.mp h)
    simp only [if_neg hzero, FindRes.val_eq_zero, ← hfind.mem_iff]

theorem Spells.findNonDecodable_eq_iff (tail : Nat → Byte) {w : Nat} (hw : w < 2 ^ 31) :
    findNonDecodable c codec tail encode w = .neighbor ↔ w ∈ ids := by
  unfold findNonDecodable
  rw [hrec.size]
  by_cases hnil : ids = []
  · subst hnil
    simp only [List.length_nil, if_true, List.not_mem_nil, iff_false]
    split <;> exact nofun
  · have hfind := (hsound hnil).find _ (hrec.stored tail) w hw
    have hzero : ids.length ≠ 0 := fun h => hnil (List.length_eq_zero_iff.mp h)
    simp only [if_neg hzero, FindRes.val_eq_zero]
    by_cases hmem : w ∈ ids
    · rw [if_pos (hfind.mem_iff.mp hmem)]
      exact ⟨fun _ => hmem, fun _ => rfl⟩
    · rw [if_neg fun heq => hmem (hfind.mem_iff.mpr heq)]
      refine ⟨fun heq => ?_, fun h => absurd h hmem⟩
      split_ifs at heq

end

/-- The ids that the record of a list spells out: all of them, or the block that
    `DynamicChoose` takes. -/
def spelled (c : Config) (ids : List Nat) : List Nat :=
  if getRequiredBytes .v0 ids ≤ maxBytesLen c then ids
  else (dynamicChoose c .v0 ids (parseEncode 0 0 0 ids)).inside ids

theorem mem_of_mem_spelled {c : Config} {ids : List Nat} {w : Nat} (hw : w ∈ spelled c ids) :
    w ∈ ids := by
  unfold spelled at hw
  split at hw
  · exact hw
  · exact List.mem_of_mem_drop (List.mem_of_mem_take hw)

theorem ascending_spelled {c : Config} {ids : List Nat} (h : Ascending ids) :
    Ascending (spelled c ids) := by
  unfold spelled
  split
  · exact h
  · exact (h.drop _).take _

theorem spells_encodeBits {c : Config} (hc : c.Narrow) {ids : List Nat} (h : Ascending ids) :
    Spells (codecOf .v0) (spelled c ids)
      (encodeBits c .v0 ids (BitSetSIMD.ofBitSize c.perEncodeBitSize)) := by
  unfold spelled
  by_cases hfit : getRequiredBytes .v0 ids ≤ maxBytesLen c
  · have hrec := decodableRecord_encodeBits hc .v0 hfit
    rw [if_pos hfit]
    exact ⟨hrec.size, hrec.stored⟩
  · obtain ⟨block, rfl, -, hrec⟩ := blockRecord_encodeBits hc .v0 h hfit
    rw [if_neg hfit]
    exact ⟨hrec.size, hrec.stored⟩

end DeltaSIMDEncode

/-- What a record says about an id when it is read with a flag that need not be its own. -/
structure Answers (flag : Bool) (spelled listed : Prop) (type : PairType) : Prop where
  neighbor_iff : type = .neighbor ↔ spelled
  denies : flag = true → ¬ spelled → type = .nonNeighbor
  ne_nonNeighbor : flag = false → listed → type ≠ .nonNeighbor

/-- The verdict about an edge: it is denied when neither record is decodable, neither
    spells the other end out, and one of them is read as if it were decodable. -/
theorem combine_eq_nonNeighbor_iff {d₁ d₂ f₁ f₂ : Bool} {s₁ s₂ l₁ l₂ : Prop} {t₁ t₂ : PairType}
    (h₁ : Answers f₁ s₁ l₁ t₁) (h₂ : Answers f₂ s₂ l₂ t₂) (hfull₁ : d₁ = true → l₁ → s₁)
    (hfull₂ : d₂ = true → l₂ → s₂)
    (hcover : (d₁ = true ∧ l₁) ∨ (d₂ = true ∧ l₂) ∨ (l₁ ∧ l₂)) :
    combine d₁ d₂ t₁ t₂ = .nonNeighbor ↔
      (d₁ = false ∧ d₂ = false) ∧ (f₁ = true ∨ f₂ = true) ∧ ¬ s₁ ∧ ¬ s₂ := by
  have hleft : d₁ = true → l₁ → ¬ combine d₁ d₂ t₁ t₂ = .nonNeighbor := by
    intro hd hl
    rw [hd, h₁.neighbor_iff.mpr (hfull₁ hd hl), combine_true_neighbor]
    exact nofun
  have hright : d₂ = true → l₂ → ¬ combine d₁ d₂ t₁ t₂ = .nonNeighbor := by
    intro hd hl
    rw [combine_comm, hd, h₂.neighbor_iff.mpr (hfull₂ hd hl), combine_true_neighbor]
    exact nofun
  rcases hcover with ⟨hd, hl⟩ | ⟨hd, hl⟩ | ⟨hl₁, hl₂⟩
  · subst hd
    simp [hleft rfl hl]
  · subst hd
    simp [hright rfl hl]
  · cases d₁ with
    | true => simp [hleft rfl hl₁]
    | false =>
      cases d₂ with
      | true => simp [hright rfl hl₂]
      | false =>
        simp only [combine, and_self, true_and]
        constructor
        · intro hmin
          have hn₁ : ¬ s₁ := by
            rw [← h₁.neighbor_iff]
            rintro rfl
            simp at hmin
          have hn₂ : ¬ s₂ := by
            rw [← h₂.neighbor_iff]
            rintro rfl
            simp at hmin
          refine ⟨?_, hn₁, hn₂⟩
          rcases PairType.min_eq_nonNeighbor hmin with ⟨heq, -⟩ | ⟨heq, -⟩
          · left
            by_contra hf
            exact h₁.ne_nonNeighbor (by simpa using hf) hl₁ heq
          · right
            by_contra hf
            exact h₂.ne_nonNeighbor (by simpa using hf) hl₂ heq
        · rintro ⟨hflag, hn₁, hn₂⟩
          have hne₁ : t₁ ≠ .neighbor := fun heq => hn₁ (h₁.neighbor_iff.mp heq)
          have hne₂ : t₂ ≠ .neighbor := fun heq => hn₂ (h₂.neighbor_iff.mp heq)
          rcases hflag with hf | hf
          · rw [h₁.denies hf hn₁]
            cases t₂ <;> first | rfl | exact absurd rfl hne₂
          · rw [h₂.denies hf hn₂]
            cases t₁ <;> first | rfl | exact absurd rfl hne₁

/-- One side of a vertex, read with either flag. -/
theorem answers_encodeBits {c : Config} (hc : c.Narrow) {ids : List Nat} (h : Ascending ids)
    (flag : Bool) (tail : Nat → Byte) {w : Nat} (hw : w < 2 ^ 31) :
    Answers flag (w ∈ spelled c ids) (w ∈ ids)
      (if flag then findDecodable (codecOf .v0) tail
          (encodeBits c .v0 ids (BitSetSIMD.ofBitSize c.perEncodeBitSize)) w
        else findNonDecodable c (codecOf .v0) tail
          (encodeBits c .v0 ids (BitSetSIMD.ofBitSize c.perEncodeBitSize)) w) := by
  have hspells := spells_encodeBits hc h
  have hsound := sound_codecOf .v0 (ascending_spelled (c := c) h)
  have hiff : ∀ tail, findNonDecodable c (codecOf .v0) tail
      (encodeBits c .v0 ids (BitSetSIMD.ofBitSize c.perEncodeBitSize)) w = .neighbor ↔
        w ∈ spelled c ids := fun tail => hspells.findNonDecodable_eq_iff hsound tail hw
  cases flag with
  | true =>
    simp only [if_true, hspells.findDecodable_eq hsound tail hw]
    refine ⟨?_, ?_, nofun⟩
    · by_cases hmem : w ∈ spelled c ids <;> simp [hmem]
    · intro _ hmem
      rw [if_neg hmem]
  | false =>
    simp only [Bool.false_eq_true, if_false]
    refine ⟨hiff tail, nofun, fun _ hmem => ?_⟩
    by_cases hfit : getRequiredBytes .v0 ids ≤ maxBytesLen c
    · rw [(hiff tail).mpr (by rw [spelled, if_pos hfit]; exact hmem)]
      exact nofun
    · exact (speaks_of_not_fits hc .v0 h hfit tail hw).ne_nonNeighbor hmem

/-! ## Section 3: The build -/

namespace DirectedSIMD

theorem nePairTest_eq_combine (c : Config) (tail : Bool → Nat → Nat → Byte)
    (encodes : DirectedSIMD) (u v : Nat) :
    nePairTest c tail encodes u v =
      combine (encodes.isDecodable u true) (encodes.isDecodable v false)
        (nonNeighborTest c tail encodes u v false) (nonNeighborTest c tail encodes v u true) := by
  unfold nePairTest
  cases encodes.isDecodable u true <;> cases encodes.isDecodable v false <;>
    simp only [combine, if_true, if_false, Bool.false_eq_true]
  exact PairType.ite_neighbor_min _ _

end DirectedSIMD

namespace Digraph

variable {vertexSize : Nat} {g : Digraph vertexSize}

theorem linked : WorklistPeeling.Linked vertexSize g.lists := by
  constructor
  · intro v w hw
    rw [flatten_lists] at hw
    exact mem_range hw
  · intro v hmem
    rw [flatten_lists, List.mem_append, mem_inAdj_iff, or_self] at hmem
    exact not_mem_adj_self hmem
  · intro v w hw
    rw [flatten_lists, List.mem_append] at hw ⊢
    rcases hw with hw | hw
    · exact Or.inr (mem_inAdj_iff.mpr hw)
    · exact Or.inl (mem_inAdj_iff.mp hw)

end Digraph

namespace DirSIMDVend

/-- The sum of the two lengths of a vertex does not wrap. -/
def NoWrap {vertexSize : Nat} (g : Digraph vertexSize) : Prop :=
  ∀ v, getRequiredBytes .v0 (g.adj v) + getRequiredBytes .v0 (g.inAdj v) < 2 ^ 32

/-- The vertices that the build leaves, whatever the order. -/
def IsLeft (c : Config) {vertexSize : Nat} (g : Digraph vertexSize) (v : Nat) : Prop :=
  InCore vertexSize g.lists (fits c) v

open Classical in
/-- The ids of a list that the build leaves. -/
noncomputable def leftOf (c : Config) {vertexSize : Nat} (g : Digraph vertexSize)
    (l : List Nat) : List Nat :=
  l.filter fun w => decide (IsLeft c g w)

/-- An edge that is denied: its out-list and its in-list are both too long, neither record
    spells the other end out, and one of the two vertices has one long and one short list,
    so that the long one is read with the flag of the short one. -/
structure Split (c : Config) {vertexSize : Nat} (g : Digraph vertexSize) (u v : Nat) : Prop where
  edge : v ∈ g.adj u
  isLeft : IsLeft c g u ∧ IsLeft c g v
  long : maxBytesLen c < getRequiredBytes .v0 (leftOf c g (g.adj u)) ∧
    maxBytesLen c < getRequiredBytes .v0 (leftOf c g (g.inAdj v))
  short : getRequiredBytes .v0 (leftOf c g (g.inAdj u)) ≤ maxBytesLen c ∨
    getRequiredBytes .v0 (leftOf c g (g.adj v)) ≤ maxBytesLen c
  left_out : v ∉ spelled c (leftOf c g (g.adj u)) ∧ u ∉ spelled c (leftOf c g (g.inAdj v))

section

variable {c : Config} (hc : c.Narrow) {g : Digraph c.vertexSize} (hsorted : g.Sorted)
include hc hsorted

theorem ascending_kept_sides (keep : Nat → Bool) (v : Nat) :
    Ascending ((g.adj v).filter keep) ∧ Ascending ((g.inAdj v).filter keep) :=
  ⟨DeltaSIMDVend.ascending_kept hc
    (fun _ hw => Digraph.mem_range (List.mem_append_left _ hw)) (hsorted v).1 keep,
   DeltaSIMDVend.ascending_kept hc
    (fun _ hw => Digraph.mem_range (List.mem_append_right _ hw)) (hsorted v).2 keep⟩

/-- The lengths of both lists do not grow when neighbours are taken out. -/
theorem required_mono (v : Nat) {p q : Nat → Bool} (hpq : ∀ w, p w = true → q w = true) :
    getRequiredBytes .v0 ((g.adj v).filter p) ≤ getRequiredBytes .v0 ((g.adj v).filter q) ∧
    getRequiredBytes .v0 ((g.inAdj v).filter p) ≤ getRequiredBytes .v0 ((g.inAdj v).filter q) := by
  obtain ⟨hout, hin⟩ := ascending_kept_sides hc hsorted q v
  have hpos : ∀ l : List Nat, (∀ w ∈ l, w ∈ g.adj v ++ g.inAdj v) → ∀ w ∈ l.filter q, 0 < w :=
    fun l hl w hw => (Digraph.mem_range (hl w (List.mem_of_mem_filter hw))).1
  constructor
  · exact getRequiredBytes_v0_sublist (List.monotone_filter_right _ hpq) hout
      (hpos _ fun _ hw => List.mem_append_left _ hw)
  · exact getRequiredBytes_v0_sublist (List.monotone_filter_right _ hpq) hin
      (hpos _ fun _ hw => List.mem_append_right _ hw)

variable (hwrap : NoWrap g)
include hwrap

/-- Without a wrap `fits` compares the sum of the two lengths. -/
theorem fits_within_iff (keep : Nat → Bool) (v : Nat) :
    fits c (within g.lists keep v) = true ↔
      getRequiredBytes .v0 ((g.adj v).filter keep) +
        getRequiredBytes .v0 ((g.inAdj v).filter keep) ≤ maxBytesLen c := by
  obtain ⟨hout, hin⟩ := required_mono hc hsorted v (fun w (_ : keep w = true) => rfl :
    ∀ w, keep w = true → (fun _ => true) w = true)
  have hsum := hwrap v
  rw [List.filter_true] at hout hin
  have hlt : getRequiredBytes .v0 ((g.adj v).filter keep) +
      getRequiredBytes .v0 ((g.inAdj v).filter keep) < 2 ^ 32 := by omega
  have hfits : fits c (within g.lists keep v) =
      decide ((getRequiredBytes .v0 ((g.adj v).filter keep) +
        getRequiredBytes .v0 ((g.inAdj v).filter keep)) % 2 ^ 32 ≤ maxBytesLen c) := rfl
  rw [hfits, decide_eq_true_eq, Nat.mod_eq_of_lt hlt]

theorem shrinks : Shrinks g.lists (fits c) := by
  intro v p q hpq hfits
  rw [fits_within_iff hc hsorted hwrap] at hfits ⊢
  obtain ⟨hout, hin⟩ := required_mono hc hsorted v hpq
  omega

end

/-- The two arrays of records after the calls of a build. -/
theorem foldl_encodeVertex (c : Config) (calls : List Call) (encodes : DirectedSIMD) :
    calls.foldl (fun st call => DirectedSIMD.encodeVertex c call.vertex
      (call.neighbors.getD 0 []) (call.neighbors.getD 1 []) st) encodes =
    ⟨calls.foldl (fun rs call =>
      rs.update call.vertex (encodeBits c .v0 (call.neighbors.getD 0 []))) encodes.encodeBitset,
     calls.foldl (fun rs call =>
      rs.update call.vertex (encodeBits c .v0 (call.neighbors.getD 1 []))) encodes.inBitset⟩ := by
  induction calls generalizing encodes with
  | nil => rfl
  | cons call calls ih => rw [List.foldl_cons, ih]; rfl

/-- What the call of a vertex that is left passes: the neighbours that are left. -/
theorem filter_keep_eq_leftOf {c : Config} {g : Digraph c.vertexSize} {first : Nat → Bool}
    (hleft : ∀ v, 1 ≤ v → v ≤ c.vertexSize → (first v = false ↔ IsLeft c g v))
    {keep : Nat → Bool} {x : Nat} (hkeep : ∀ w, keep w = !first w) :
    (g.adj x).filter keep = leftOf c g (g.adj x) ∧
    (g.inAdj x).filter keep = leftOf c g (g.inAdj x) := by
  have hsame : ∀ w ∈ g.adj x ++ g.inAdj x, keep w = @decide (IsLeft c g w)
      (Classical.propDecidable _) := by
    intro w hw
    obtain ⟨hw₁, hw₂⟩ := Digraph.mem_range hw
    have hiff := hleft w hw₁ hw₂
    rw [hkeep w]
    cases hf : first w with
    | false => simp [hiff.mp hf]
    | true =>
      rw [hf] at hiff
      simp [← hiff]
  constructor
  · exact List.filter_congr fun w hw => hsame w (List.mem_append_left _ hw)
  · exact List.filter_congr fun w hw => hsame w (List.mem_append_right _ hw)

/-- The records of a build are those of the lists that were kept. -/
structure Wrote (c : Config) (g : Digraph c.vertexSize) (keep : Nat → Nat → Bool)
    (encodes : DirectedSIMD) : Prop where
  out : ∀ v, 1 ≤ v → v ≤ c.vertexSize → encodes.encodeBitset.record v =
    encodeBits c .v0 ((g.adj v).filter (keep v)) (BitSetSIMD.ofBitSize c.perEncodeBitSize)
  inn : ∀ v, 1 ≤ v → v ≤ c.vertexSize → encodes.inBitset.record v =
    encodeBits c .v0 ((g.inAdj v).filter (keep v)) (BitSetSIMD.ofBitSize c.perEncodeBitSize)

section

variable {c : Config} (hc : c.Narrow) {g : Digraph c.vertexSize} (hsorted : g.Sorted)
variable {keep : Nat → Nat → Bool} {encodes : DirectedSIMD} (hwrote : Wrote c g keep encodes)
include hc hsorted hwrote

theorem isDecodable_eq {v : Nat} (hv : 1 ≤ v) (hv' : v ≤ c.vertexSize) :
    encodes.isDecodable v true =
      decide (getRequiredBytes .v0 ((g.adj v).filter (keep v)) ≤ maxBytesLen c) ∧
    encodes.isDecodable v false =
      decide (getRequiredBytes .v0 ((g.inAdj v).filter (keep v)) ≤ maxBytesLen c) := by
  obtain ⟨hout, hin⟩ := ascending_kept_sides hc hsorted (keep v) v
  constructor
  · rw [← getFirstBit_encodeBits hc .v0 hout, ← hwrote.out v hv hv']
    rfl
  · rw [← getFirstBit_encodeBits hc .v0 hin, ← hwrote.inn v hv hv']
    rfl

/-- Each side of a vertex is read with the flag of the other. -/
theorem answers_nonNeighborTest (tail : Bool → Nat → Nat → Byte) {v w : Nat} (hv : 1 ≤ v)
    (hv' : v ≤ c.vertexSize) (hw : w ≤ c.vertexSize) :
    Answers (encodes.isDecodable v false) (w ∈ spelled c ((g.adj v).filter (keep v)))
      (w ∈ (g.adj v).filter (keep v)) (DirectedSIMD.nonNeighborTest c tail encodes v w false) ∧
    Answers (encodes.isDecodable v true) (w ∈ spelled c ((g.inAdj v).filter (keep v)))
      (w ∈ (g.inAdj v).filter (keep v)) (DirectedSIMD.nonNeighborTest c tail encodes v w true) := by
  obtain ⟨hout, hin⟩ := ascending_kept_sides hc hsorted (keep v) v
  have hlt := hc.vertexSize_lt
  have hw' : w < 2 ^ 31 := by omega
  constructor
  · have h := answers_encodeBits hc hout (encodes.isDecodable v false) (tail false v) hw'
    rw [← hwrote.out v hv hv'] at h
    exact h
  · have h := answers_encodeBits hc hin (encodes.isDecodable v true) (tail true v) hw'
    rw [← hwrote.inn v hv hv'] at h
    exact h

theorem edge_of_neighbor (tail : Bool → Nat → Nat → Byte) {u v : Nat} (hu : 1 ≤ u)
    (hu' : u ≤ c.vertexSize) (hv : 1 ≤ v) (hv' : v ≤ c.vertexSize)
    (h : DirectedSIMD.nePairTest c tail encodes u v = .neighbor) : v ∈ g.adj u := by
  have h₁ := (answers_nonNeighborTest hc hsorted hwrote tail hu hu' hv').1
  have h₂ := (answers_nonNeighborTest hc hsorted hwrote tail hv hv' hu').2
  by_contra hedge
  rw [DirectedSIMD.nePairTest_eq_combine] at h
  refine combine_ne_neighbor ?_ (Or.inl ?_) h
  · intro ht
    exact hedge (List.mem_of_mem_filter (mem_of_mem_spelled (h₁.neighbor_iff.mp ht)))
  · intro ht
    have hmem := List.mem_of_mem_filter (mem_of_mem_spelled (h₂.neighbor_iff.mp ht))
    exact hedge (Digraph.mem_inAdj_iff.mp hmem)

/-- An edge is denied when it is split. -/
theorem denied_iff_split {first : Nat → Bool}
    (hfull : ∀ v, 1 ≤ v → v ≤ c.vertexSize → first v = true →
      getRequiredBytes .v0 ((g.adj v).filter (keep v)) ≤ maxBytesLen c ∧
      getRequiredBytes .v0 ((g.inAdj v).filter (keep v)) ≤ maxBytesLen c)
    (hleft : ∀ v, 1 ≤ v → v ≤ c.vertexSize → (first v = false ↔ IsLeft c g v))
    (hkeep : ∀ v w, first v = false → keep v w = !first w)
    {u v : Nat} (hu : 1 ≤ u ∧ u ≤ c.vertexSize) (hv : 1 ≤ v ∧ v ≤ c.vertexSize)
    (hcover : (first u = true ∧ keep u v = true) ∨ (first v = true ∧ keep v u = true) ∨
      (first u = false ∧ first v = false ∧ keep u v = true ∧ keep v u = true))
    (hedge : v ∈ g.adj u) (tail : Bool → Nat → Nat → Byte) :
    DirectedSIMD.nePairTest c tail encodes u v = .nonNeighbor ↔ Split c g u v := by
  obtain ⟨hdu, hdu'⟩ := isDecodable_eq hc hsorted hwrote hu.1 hu.2
  obtain ⟨hdv, hdv'⟩ := isDecodable_eq hc hsorted hwrote hv.1 hv.2
  have h₁ := (answers_nonNeighborTest hc hsorted hwrote tail hu.1 hu.2 hv.2).1
  have h₂ := (answers_nonNeighborTest hc hsorted hwrote tail hv.1 hv.2 hu.2).2
  have hlists := fun x hx => filter_keep_eq_leftOf (g := g) hleft (x := x) (hkeep x · hx)
  have hlisted : v ∈ (g.adj u).filter (keep u) ↔ keep u v = true := by
    rw [List.mem_filter]
    exact ⟨And.right, fun h => ⟨hedge, h⟩⟩
  have hlisted' : u ∈ (g.inAdj v).filter (keep v) ↔ keep v u = true := by
    rw [List.mem_filter]
    exact ⟨And.right, fun h => ⟨Digraph.mem_inAdj_iff.mpr hedge, h⟩⟩
  rw [DirectedSIMD.nePairTest_eq_combine, combine_eq_nonNeighbor_iff h₁ h₂ ?_ ?_ ?_]
  · rw [hdu, hdu', hdv, hdv']
    simp only [decide_eq_true_eq, decide_eq_false_iff_not, Nat.not_le]
    constructor
    · rintro ⟨⟨hlong, hlong'⟩, hshort, hout, hout'⟩
      have hfu : first u = false := by
        by_contra hf
        have := (hfull u hu.1 hu.2 (by simpa using hf)).1
        omega
      have hfv : first v = false := by
        by_contra hf
        have := (hfull v hv.1 hv.2 (by simpa using hf)).2
        omega
      obtain ⟨hlu, hlu'⟩ := hlists u hfu
      obtain ⟨hlv, hlv'⟩ := hlists v hfv
      rw [hlu] at hlong hout
      rw [hlv'] at hlong' hout'
      rw [hlu', hlv] at hshort
      exact ⟨hedge, ⟨(hleft u hu.1 hu.2).mp hfu, (hleft v hv.1 hv.2).mp hfv⟩, ⟨hlong, hlong'⟩,
        hshort, ⟨hout, hout'⟩⟩
    · intro hsplit
      obtain ⟨hlu, hlu'⟩ := hlists u ((hleft u hu.1 hu.2).mpr hsplit.isLeft.1)
      obtain ⟨hlv, hlv'⟩ := hlists v ((hleft v hv.1 hv.2).mpr hsplit.isLeft.2)
      rw [hlu, hlu', hlv, hlv']
      exact ⟨hsplit.long, hsplit.short, hsplit.left_out⟩
  · intro hd hmem
    rw [hdu, decide_eq_true_eq] at hd
    rw [spelled, if_pos hd]
    exact hmem
  · intro hd hmem
    rw [hdv', decide_eq_true_eq] at hd
    rw [spelled, if_pos hd]
    exact hmem
  · rw [hdu, hdv', hlisted, hlisted', decide_eq_true_eq, decide_eq_true_eq]
    rcases hcover with ⟨hf, hk⟩ | ⟨hf, hk⟩ | ⟨-, -, hk, hk'⟩
    · exact Or.inl ⟨(hfull u hu.1 hu.2 hf).1, hk⟩
    · exact Or.inr (Or.inl ⟨(hfull v hv.1 hv.2 hf).2, hk⟩)
    · exact Or.inr (Or.inr ⟨hk, hk'⟩)

end

/-- `int vertex` overflows before the last vertex is encoded. -/
theorem buildEncoding_eq_none {c : Config} (hsize : ¬ vertexSize + 1 < 2 ^ 31)
    (g : Digraph vertexSize) (iterate : Nat → List Nat → List Nat) (encodes : DirectedSIMD) :
    buildEncoding c g iterate encodes = none := by
  rw [buildEncoding, encodeCalls, peel_eq_none hsize]
  rfl

/-- The answers of a build that ends are correct exactly when no edge is split. -/
theorem exists_agrees_iff {c : Config} (hc : c.Narrow) {g : Digraph c.vertexSize}
    (hsorted : g.Sorted) (hwrap : NoWrap g) (hsize : c.vertexSize + 1 < 2 ^ 31)
    {iterate : Nat → List Nat → List Nat} (hiterate : ∀ n set, (iterate n set).Perm set)
    (tail : Bool → Nat → Nat → Byte) :
    ∃ encodes, buildEncoding c g iterate (DirectedSIMD.fresh c) = some encodes ∧
      (g.Agrees (DirectedSIMD.nePairTest c tail encodes) ↔ ∀ u v, ¬ Split c g u v) := by
  obtain ⟨calls, first, keep, hrun, hcover, hleft, hkeep⟩ :=
    peel_core Digraph.linked (shrinks hc hsorted hwrap) hsize hiterate
  have hids : ∀ v, 1 ≤ v → v ≤ c.vertexSize → v ∈ List.range' 1 c.vertexSize :=
    fun v => mem_vertices
  refine ⟨_, by rw [buildEncoding, encodeCalls, hrun]; rfl, ?_⟩
  beta_reduce
  rw [foldl_encodeVertex]
  have hwrote : Wrote c g keep ⟨_, _⟩ :=
    ⟨fun v => record_foldl_vertices hcover (encodeBits c .v0) 0,
     fun v => record_foldl_vertices hcover (encodeBits c .v0) 1⟩
  -- the lists of a vertex that is taken out fit together, hence each of them fits
  have hfull : ∀ v, 1 ≤ v → v ≤ c.vertexSize → first v = true →
      getRequiredBytes .v0 ((g.adj v).filter (keep v)) ≤ maxBytesLen c ∧
      getRequiredBytes .v0 ((g.inAdj v).filter (keep v)) ≤ maxBytesLen c := by
    intro v hv hv' hf
    have hsum := (fits_within_iff hc hsorted hwrap (keep v) v).mp
      (hcover.small_of_first (hids v hv hv') hf)
    omega
  have hdenied : ∀ u v, 1 ≤ u → u ≤ c.vertexSize → 1 ≤ v → v ≤ c.vertexSize → u ≠ v →
      v ∈ g.adj u → (DirectedSIMD.nePairTest c tail _ u v = .nonNeighbor ↔ Split c g u v) :=
    fun u v hu hu' hv hv' hne hedge =>
      denied_iff_split hc hsorted hwrote hfull hleft hkeep ⟨hu, hu'⟩ ⟨hv, hv'⟩
        (hcover.cover_pair hids ⟨hu, hu'⟩ ⟨hv, hv'⟩ hne) hedge tail
  constructor
  · intro hagrees u v hsplit
    obtain ⟨hv, hv'⟩ := Digraph.mem_range (List.mem_append_left _ hsplit.edge)
    obtain ⟨hu, hu'⟩ := Digraph.mem_range
      (List.mem_append_right _ (Digraph.mem_inAdj_iff.mpr hsplit.edge))
    have hne : u ≠ v := by
      rintro rfl
      exact Digraph.not_mem_adj_self hsplit.edge
    exact (hagrees u v hu hu' hv hv' hne).1
      ((hdenied u v hu hu' hv hv' hne hsplit.edge).mpr hsplit) hsplit.edge
  · intro hnone u v hu hu' hv hv' hne
    refine ⟨fun hnon hedge => ?_, edge_of_neighbor hc hsorted hwrote tail hu hu' hv hv'⟩
    exact hnone u v ((hdenied u v hu hu' hv hv' hne hedge).mp hnon)

/-- The directed SIMD build answers correctly on the graphs without a split edge, and on no
    others, whatever the order of the sets. -/
theorem directedSIMD_buildEncoding_agrees_iff {c : Config} (hc : c.Narrow)
    {g : Digraph c.vertexSize} (hsorted : g.Sorted) (hwrap : NoWrap g)
    {iterate : Nat → List Nat → List Nat} (hiterate : ∀ n set, (iterate n set).Perm set)
    (tail : Bool → Nat → Nat → Byte) :
    (∃ encodes, buildEncoding c g iterate (DirectedSIMD.fresh c) = some encodes ∧
      g.Agrees (DirectedSIMD.nePairTest c tail encodes)) ↔
      c.vertexSize + 1 < 2 ^ 31 ∧ ∀ u v, ¬ Split c g u v := by
  by_cases hsize : c.vertexSize + 1 < 2 ^ 31
  · obtain ⟨encodes, hrun, hiff⟩ := exists_agrees_iff hc hsorted hwrap hsize hiterate tail
    rw [hrun]
    constructor
    · rintro ⟨encodes', heq, hagrees⟩
      obtain rfl := Option.some.inj heq
      exact ⟨hsize, hiff.mp hagrees⟩
    · rintro ⟨-, hnone⟩
      exact ⟨encodes, rfl, hiff.mpr hnone⟩
  · rw [buildEncoding_eq_none hsize]
    constructor
    · rintro ⟨encodes, heq, -⟩
      cases heq
    · rintro ⟨h, -⟩
      exact absurd h hsize

theorem noWrap_of_forall_lt {vertexSize : Nat} {g : Digraph vertexSize}
    (h : ∀ v < vertexSize + 1,
      getRequiredBytes .v0 (g.adj v) + getRequiredBytes .v0 (g.inAdj v) < 2 ^ 32) : NoWrap g := by
  intro v
  rcases Nat.lt_or_ge v (vertexSize + 1) with hv | hv
  · exact h v hv
  · obtain ⟨hout, hin⟩ := g.adj_of_lt hv
    rw [hout, hin]
    decide

/-- The cycle on four vertices: the lists of a vertex do not fit together, but each does. -/
def fourCycle : Digraph 4 where
  adjacencyList := [[], [2], [3], [4], [1]]
  inAdjList := [[], [4], [1], [2], [3]]
  zero := by decide
  length := by decide
  range := by decide
  loopless := by decide
  nodup := by decide
  transpose := by decide

theorem directedSIMD_buildEncoding_agrees_cycle :
    DeltaSIMDVend.fourConfig.Narrow ∧ fourCycle.Sorted ∧ NoWrap fourCycle ∧
    ∃ encodes, buildEncoding DeltaSIMDVend.fourConfig fourCycle (fun _ set => set)
        (DirectedSIMD.fresh DeltaSIMDVend.fourConfig) = some encodes ∧
      fourCycle.Agrees (DirectedSIMD.nePairTest DeltaSIMDVend.fourConfig (fun _ _ _ => 0)
        encodes) := by
  have hsorted : fourCycle.Sorted := Digraph.sorted_of_forall_lt (by decide)
  have hwrap : NoWrap fourCycle := noWrap_of_forall_lt (by decide)
  refine ⟨DeltaSIMDVend.fourConfig_narrow, hsorted, hwrap, ?_⟩
  refine (directedSIMD_buildEncoding_agrees_iff (c := DeltaSIMDVend.fourConfig)
    DeltaSIMDVend.fourConfig_narrow hsorted hwrap (fun _ set => List.Perm.refl set)
    (fun _ _ _ => 0)).mpr ⟨by decide, ?_⟩
  intro u v hsplit
  have hle : getRequiredBytes .v0 (leftOf DeltaSIMDVend.fourConfig fourCycle (fourCycle.adj u)) ≤
      getRequiredBytes .v0 ((fourCycle.adj u).filter fun _ => true) :=
    (required_mono (c := DeltaSIMDVend.fourConfig) DeltaSIMDVend.fourConfig_narrow hsorted u
      fun _ _ => rfl).1
  have hshort : ∀ u ≤ 4, getRequiredBytes .v0 ((fourCycle.adj u).filter fun _ => true) ≤ 3 := by
    decide
  have hu := (Digraph.mem_range
    (List.mem_append_right _ (Digraph.mem_inAdj_iff.mpr hsplit.edge))).2
  exact absurd (hle.trans (hshort u hu)) (Nat.not_le.mpr hsplit.long.1)

/-- Vertex 3 has three targets and no source, vertex 1 three sources and no target. -/
def fork : Digraph 4 where
  adjacencyList := [[], [], [1], [1, 2, 4], [1]]
  inAdjList := [[], [2, 3, 4], [3], [], [3]]
  zero := by decide
  length := by decide
  range := by decide
  loopless := by decide
  nodup := by decide
  transpose := by decide

/-- The long lists of vertices 3 and 1 are read as if they were stored in full. -/
theorem fork_edge_denied :
    DeltaSIMDVend.fourConfig.Narrow ∧ fork.Sorted ∧ 1 ∈ fork.adj 3 ∧
    ∃ encodes, buildEncoding DeltaSIMDVend.fourConfig fork (fun _ set => set)
        (DirectedSIMD.fresh DeltaSIMDVend.fourConfig) = some encodes ∧
      DirectedSIMD.nePairTest DeltaSIMDVend.fourConfig (fun _ _ _ => 0) encodes 3 1 =
        .nonNeighbor ∧
      ¬ fork.Agrees (DirectedSIMD.nePairTest DeltaSIMDVend.fourConfig (fun _ _ _ => 0)
        encodes) := by
  have hedge : 1 ∈ fork.adj 3 := by decide
  refine ⟨DeltaSIMDVend.fourConfig_narrow, Digraph.sorted_of_forall_lt (by decide), hedge, ?_⟩
  have hrun : (buildEncoding DeltaSIMDVend.fourConfig fork (fun _ set => set)
      (DirectedSIMD.fresh DeltaSIMDVend.fourConfig)).map (fun encodes =>
        DirectedSIMD.nePairTest DeltaSIMDVend.fourConfig (fun _ _ _ => 0) encodes 3 1) =
      some .nonNeighbor := by
    decide +kernel
  obtain ⟨encodes, hbuild, hdenied⟩ := Option.map_eq_some_iff.mp hrun
  refine ⟨encodes, hbuild, hdenied, ?_⟩
  intro hagrees
  exact (hagrees 3 1 (by decide) (by decide) (by decide) (by decide) (by decide)).1 hdenied hedge

end DirSIMDVend

end Vend
