import Vend.Encode.BBFilterEncode
import Vend.Encode.BFilterIntEncode
import Vend.Encode.BitHashUpdate

/-! # Filter builds from memory and from the database

    `BuildEncoding` of `BFilterBitVend` (with the plain, the counting and the blocked
    encoder), `BFilterIntVend` and `BitHashVend`. Without an adjacency list the builds go
    through the database, whose keys come in the order of their texts and whose lists may
    stand in any order.

    Both branches hand the same pairs to `EdgeSet`, in different orders. Setting bits and
    adding to whole words commute. The packed counters of the counting filter commute as
    long as `BlockSet` writes where `BlockGet` reads; a counter behind byte 255 is written to
    a byte that belongs to another counter, and then the order shows.
-/

namespace Vend

namespace FilterVend

open CBFilterEncode (ordered)

/-! ## Section 1: Model -/

section

variable {σ : Type}

/-- The loop over one neighbour list. A call of `EdgeSet` without a defined result has
    none. -/
def edgeSets (edgeSet : σ → Nat → Nat → Option σ) (vertex1 : Nat) (neighbors : List Nat)
    (encode : σ) : Option σ :=
  neighbors.foldlM (fun encode vertex2 =>
    if vertex1 < vertex2 then edgeSet encode vertex1 vertex2 else some encode) encode

/-- `BFilterBitVend::BuildEncoding()` and `BFilterIntVend::BuildEncoding()`. The counter of
    the loop over the adjacency list is a `uint32_t` and never reaches a size of `2 ^ 32`. -/
def buildEncoding (edgeSet : σ → Nat → Nat → Option σ) (encode : σ)
    (adjacencyList : Option (List (List Nat))) (scan : List (Nat × List Nat)) : Option σ :=
  match adjacencyList with
  | some lists =>
    if lists.length < 2 ^ 32 then
      (List.range' 1 (lists.length - 1)).foldlM (fun encode vertex1 =>
        edgeSets edgeSet vertex1 (lists.getD vertex1 []) encode) encode
    else none
  | none => scan.foldlM (fun encode entry => edgeSets edgeSet entry.1 entry.2 encode) encode

/-- A call that has a defined result only if `ok`. -/
def definedIf (ok : Prop) [Decidable ok] (edgeSet : σ → Nat → Nat → σ) (encode : σ)
    (vertex1 vertex2 : Nat) : Option σ :=
  if ok then some (edgeSet encode vertex1 vertex2) else none

end

/-- The build with `BFilterBitEncode`. -/
def bitBuild (c : Config) : Option (List (List Nat)) → List (Nat × List Nat) → Option BitSetSIMD :=
  buildEncoding (definedIf True (BFilterBitEncode.edgeSet c bitHashBestNums))
    (BFilterBitEncode.fresh c)

/-- The build with `BBFilterEncode`, whose `BlockHash` divides by `BLOCK_NUMS`. -/
def blockedBuild (c : Config) :
    Option (List (List Nat)) → List (Nat × List Nat) → Option BitSetSIMD :=
  buildEncoding (definedIf (c.blockNums ≠ 0) (BBFilterEncode.edgeSet c bitHashBestNums))
    (BFilterBitEncode.fresh c)

/-- The build with `CBFilterEncode`, whose loops read a parameter for each of the
    `COUNT_HASH_BEST_NUMS` hash functions. -/
def countingBuild (c : Config) (bestHashNums : Nat) :
    Option (List (List Nat)) → List (Nat × List Nat) → Option BitSetSIMD :=
  buildEncoding (definedIf (bestHashNums ≤ CBFilterEncode.hashParam1.length)
    (CBFilterEncode.edgeSet c bestHashNums)) (CBFilterEncode.fresh c)

/-- The build with `BFilterIntEncode` and `INT_HASH_BEST_NUMS` hash functions. -/
def intBuild (c : Config) (bestHashNums : Nat) :
    Option (List (List Nat)) → List (Nat × List Nat) → Option (List Nat) :=
  buildEncoding (definedIf (bestHashNums ≤ CBFilterEncode.hashParam1.length)
    (BFilterIntEncode.edgeSet c bestHashNums)) (BFilterIntEncode.fresh c)

/-- `BitHashVend::BuildEncoding()`. -/
def bitHashBuild (c : Config) (adjacencyList : Option (List (List Nat)))
    (scan : List (Nat × List Nat)) : Option Records :=
  match adjacencyList with
  | some lists => BitHashEncode.buildEncoding c lists
  | none => scan.foldlM (fun encodes entry =>
      encodes.updateAt entry.1 (BitHashEncode.encodeBits c entry.1 entry.2)) (Records.constructed c)

/-! ## Section 2: Agreement -/

/-- The database scans exactly the nonempty lists of the graph, in any order of the keys
    and with every list in any order. -/
structure Scans {vertexSize : Nat} (g : Graph vertexSize) (scan : List (Nat × List Nat)) :
    Prop where
  keys : (scan.map Prod.fst).Perm ((List.range' 1 vertexSize).filter fun v => g.adj v ≠ [])
  lists : ∀ entry ∈ scan, entry.2.Perm (g.adj entry.1)

/-- Both branches of a build return, and with the same state of the encoder. -/
def Agree {σ : Type} {vertexSize : Nat} (g : Graph vertexSize) (scan : List (Nat × List Nat))
    (build : Option (List (List Nat)) → List (Nat × List Nat) → Option σ) : Prop :=
  ∃ encode, build (some g.adjacencyList) scan = some encode ∧ build none scan = some encode

/-- The graph has no edges. -/
def Edgeless {vertexSize : Nat} (g : Graph vertexSize) : Prop := ∀ v, g.adj v = []

/-- The pairs that a list hands to `EdgeSet`. -/
def larger (v : Nat) (neighbors : List Nat) : List (Nat × Nat) :=
  (neighbors.filter (v < ·)).map fun w => (v, w)

/-- The pairs of the build from memory. -/
def edges {vertexSize : Nat} (g : Graph vertexSize) : List (Nat × Nat) :=
  (List.range' 1 vertexSize).flatMap fun v => larger v (g.adj v)

/-- The pairs of the build from the database. -/
def scanned (scan : List (Nat × List Nat)) : List (Nat × Nat) :=
  scan.flatMap fun entry => larger entry.1 entry.2

/-! ## Section 3: The pairs of a build -/

theorem larger_perm (v : Nat) {neighbors neighbors' : List Nat} (h : neighbors.Perm neighbors') :
    (larger v neighbors).Perm (larger v neighbors') :=
  (h.filter _).map _

theorem flatMap_filter_of_nil {α β : Type} (l : List α) (p : α → Bool) (f : α → List β)
    (h : ∀ a ∈ l, p a = false → f a = []) : (l.filter p).flatMap f = l.flatMap f := by
  induction l with
  | nil => rfl
  | cons a l ih =>
    have ih' := ih fun b hb => h b (by simp [hb])
    cases hp : p a with
    | true => rw [List.filter_cons_of_pos hp, List.flatMap_cons, List.flatMap_cons, ih']
    | false =>
      rw [List.filter_cons_of_neg (by simp [hp]), List.flatMap_cons, h a (by simp) hp, ih',
        List.nil_append]

section

variable {vertexSize : Nat} {g : Graph vertexSize} {scan : List (Nat × List Nat)}

/-- Vertices without neighbours hand over no pairs, so it does not matter that the scan
    leaves them out. -/
theorem Scans.edges_perm (h : Scans g scan) : (edges g).Perm (scanned scan) := by
  have hlists : (scanned scan).Perm (scan.flatMap fun entry => larger entry.1 (g.adj entry.1)) :=
    List.Perm.flatMap_left scan fun entry hentry => larger_perm _ (h.lists entry hentry)
  have hkeys := h.keys.flatMap_right fun v => larger v (g.adj v)
  rw [List.flatMap_map] at hkeys
  have hall : ((List.range' 1 vertexSize).filter fun v => g.adj v ≠ []).flatMap
      (fun v => larger v (g.adj v)) = edges g := by
    apply flatMap_filter_of_nil
    intro v _ hv
    have hnil : g.adj v = [] := by simpa using hv
    rw [hnil]
    rfl
  rw [hall] at hkeys
  exact (hlists.trans hkeys).symm

theorem mem_edges_iff {v w : Nat} : (v, w) ∈ edges g ↔ w ∈ g.adj v ∧ v < w := by
  rw [edges, List.mem_flatMap]
  constructor
  · rintro ⟨x, -, hx⟩
    obtain ⟨y, hy, heq⟩ := List.mem_map.mp hx
    obtain ⟨rfl, rfl⟩ := Prod.mk.inj heq
    rw [List.mem_filter, decide_eq_true_eq] at hy
    exact hy
  · rintro ⟨hw, hlt⟩
    have hrange := Graph.mem_range (Graph.mem_adj_comm.mp hw)
    refine ⟨v, List.mem_range'_1.mpr (by omega), List.mem_map.mpr ⟨w, ?_, rfl⟩⟩
    exact List.mem_filter.mpr ⟨hw, decide_eq_true hlt⟩

theorem edges_eq_nil_iff : edges g = [] ↔ Edgeless g := by
  constructor
  · intro hnil v
    rw [List.eq_nil_iff_forall_not_mem]
    intro w hw
    have hne : v ≠ w := fun heq => Graph.not_mem_adj_self (heq ▸ hw)
    have hnone : ∀ p, p ∉ edges g := List.eq_nil_iff_forall_not_mem.mp hnil
    rcases Nat.lt_or_gt_of_ne hne with hlt | hgt
    · exact hnone (v, w) (mem_edges_iff.mpr ⟨hw, hlt⟩)
    · exact hnone (w, v) (mem_edges_iff.mpr ⟨Graph.mem_adj_comm.mp hw, hgt⟩)
  · intro hempty
    rw [List.eq_nil_iff_forall_not_mem]
    rintro ⟨v, w⟩ hmem
    have := (mem_edges_iff.mp hmem).1
    rw [hempty v] at this
    cases this

/-! ## Section 4: A build is a loop over its pairs -/

variable {σ : Type}

theorem edgeSets_eq (edgeSet : σ → Nat → Nat → Option σ) (v : Nat) (neighbors : List Nat)
    (encode : σ) : edgeSets edgeSet v neighbors encode =
      (larger v neighbors).foldlM (fun encode pair => edgeSet encode pair.1 pair.2) encode := by
  induction neighbors generalizing encode with
  | nil => rfl
  | cons w neighbors ih =>
    rw [edgeSets, List.foldlM_cons]
    by_cases hlt : v < w
    · have hcons : larger v (w :: neighbors) = (v, w) :: larger v neighbors := by
        simp [larger, hlt]
      rw [if_pos hlt, hcons, List.foldlM_cons]
      congr 1
      funext encode
      exact ih encode
    · have hskip : larger v (w :: neighbors) = larger v neighbors := by
        simp [larger, hlt]
      rw [if_neg hlt, hskip]
      exact ih encode

theorem foldlM_flatMap {α β : Type} (l : List α) (f : α → List β) (step : σ → β → Option σ)
    (encode : σ) : (l.flatMap f).foldlM step encode =
      l.foldlM (fun encode a => (f a).foldlM step encode) encode := by
  induction l generalizing encode with
  | nil => rfl
  | cons a l ih => simp only [List.flatMap_cons, List.foldlM_append, List.foldlM_cons, ih]

/-- The loop has a result when its calls are defined, or when there are none. -/
theorem foldlM_definedIf (ok : Prop) [Decidable ok] (edgeSet : σ → Nat → Nat → σ)
    (pairs : List (Nat × Nat)) (encode : σ) :
    pairs.foldlM (fun encode pair => definedIf ok edgeSet encode pair.1 pair.2) encode =
      if ok ∨ pairs = [] then some (pairs.foldl (fun encode pair => edgeSet encode pair.1 pair.2)
        encode)
      else none := by
  by_cases hok : ok
  · rw [if_pos (Or.inl hok)]
    induction pairs generalizing encode with
    | nil => rfl
    | cons pair pairs ih =>
      rw [List.foldlM_cons, definedIf, if_pos hok]
      exact ih _
  · cases pairs with
    | nil => rw [if_pos (Or.inr rfl)]; rfl
    | cons pair pairs =>
      rw [List.foldlM_cons, definedIf, if_neg hok, if_neg (by simp [hok])]
      rfl

/-- A build whose calls may be reordered agrees with itself, if its calls are defined. -/
theorem agree_iff (hscan : Scans g scan) (ok : Prop) [Decidable ok] (edgeSet : σ → Nat → Nat → σ)
    (encode : σ)
    (horder : ok → ∀ pairs, (edges g).Perm pairs →
      pairs.foldl (fun encode pair => edgeSet encode pair.1 pair.2) encode =
        (edges g).foldl (fun encode pair => edgeSet encode pair.1 pair.2) encode) :
    Agree g scan (buildEncoding (definedIf ok edgeSet) encode) ↔
      vertexSize + 1 < 2 ^ 32 ∧ (ok ∨ Edgeless g) := by
  have hperm := hscan.edges_perm
  have hlist : buildEncoding (definedIf ok edgeSet) encode (some g.adjacencyList) scan =
      if vertexSize + 1 < 2 ^ 32 then (edges g).foldlM (fun encode pair =>
        definedIf ok edgeSet encode pair.1 pair.2) encode else none := by
    simp only [buildEncoding, g.length, Nat.add_sub_cancel, edges, foldlM_flatMap, edgeSets_eq]
    rfl
  have hdb : buildEncoding (definedIf ok edgeSet) encode none scan =
      (scanned scan).foldlM (fun encode pair => definedIf ok edgeSet encode pair.1 pair.2)
        encode := by
    simp only [buildEncoding, scanned, foldlM_flatMap, edgeSets_eq]
  have hnil : scanned scan = [] ↔ edges g = [] :=
    ⟨fun heq => (heq ▸ hperm).eq_nil, fun heq => (heq ▸ hperm).symm.eq_nil⟩
  rw [Agree, hlist, hdb, foldlM_definedIf, foldlM_definedIf, ← edges_eq_nil_iff]
  constructor
  · rintro ⟨encode', hleft, -⟩
    split_ifs at hleft with hv hok
    exact ⟨hv, hok⟩
  · rintro ⟨hv, hok⟩
    have hok' : ok ∨ scanned scan = [] := by rwa [hnil]
    rw [if_pos hv, if_pos hok, if_pos hok']
    refine ⟨_, rfl, ?_⟩
    rw [Option.some_inj]
    rcases hok with hok | hempty
    · exact horder hok _ hperm
    · rw [hempty, hnil.mpr hempty]

end

/-! ## Section 5: The encoders -/

section

variable {c : Config} {g : Graph c.vertexSize}

/-- Setting the bits of pairs in another order. -/
theorem foldl_setPair_perm {positions : Nat → Nat → List Nat} {encode : BitSetSIMD}
    (hrange : ∀ u v, ∀ p ∈ positions u v, p < encode.bitLength) {pairs pairs' : List (Nat × Nat)}
    (hperm : pairs.Perm pairs') :
    pairs'.foldl (fun encode pair => setPair positions encode pair.1 pair.2) encode =
      pairs.foldl (fun encode pair => setPair positions encode pair.1 pair.2) encode := by
  have heq : ∀ pairs : List (Nat × Nat),
      pairs.foldl (fun encode pair => setPair positions encode pair.1 pair.2) encode =
        (pairs.flatMap fun pair => positions pair.1 pair.2).foldl BitSetSIMD.setOne encode :=
    fun pairs => List.foldl_flatMap.symm
  rw [heq, heq]
  apply BitSetSIMD.setOnes_congr
  · intro p hp
    obtain ⟨pair, -, hpos⟩ := List.mem_flatMap.mp hp
    exact hrange _ _ p hpos
  · exact fun p => ((hperm.flatMap_right _).mem_iff).symm

/-- Counters in an array, added to in another order. -/
theorem foldl_int_perm (hk : c.perEncodeBitSize < 2 ^ 31) (n : Nat) {pairs pairs' : List (Nat × Nat)}
    (hperm : pairs.Perm pairs') :
    pairs'.foldl (fun encode pair => BFilterIntEncode.edgeSet c n encode pair.1 pair.2)
        (BFilterIntEncode.fresh c) =
      pairs.foldl (fun encode pair => BFilterIntEncode.edgeSet c n encode pair.1 pair.2)
        (BFilterIntEncode.fresh c) := by
  let named (pairs : List (Nat × Nat)) : List Nat :=
    pairs.flatMap fun pair => BFilterIntEncode.counters c n (ordered pair.1 pair.2)
  have heq : ∀ pairs : List (Nat × Nat),
      pairs.foldl (fun encode pair => BFilterIntEncode.edgeSet c n encode pair.1 pair.2)
        (BFilterIntEncode.fresh c) = (named pairs).foldl (fun encode i =>
          encode.set i ((fun count => (count + 1) % 2 ^ 32) (encode.getD i 0)))
            (BFilterIntEncode.fresh c) :=
    fun pairs => List.foldl_flatMap.symm
  have hin : ∀ pairs, ∀ i ∈ named pairs, i < (BFilterIntEncode.fresh c).length := by
    intro pairs i hi
    obtain ⟨pair, -, hmem⟩ := List.mem_flatMap.mp hi
    rw [BFilterIntEncode.fresh, List.length_replicate]
    exact BFilterIntEncode.counters_lt hk hmem
  obtain ⟨hlen, hget⟩ := CountingFilter.foldl_change (fun count => (count + 1) % 2 ^ 32) _
    (hin pairs)
  obtain ⟨hlen', hget'⟩ := CountingFilter.foldl_change (fun count => (count + 1) % 2 ^ 32) _
    (hin pairs')
  rw [heq, heq]
  apply List.ext_getElem (hlen'.trans hlen.symm)
  intro i hi hi'
  rw [← List.getD_eq_getElem _ 0 hi, ← List.getD_eq_getElem _ 0 hi', hget', hget,
    (hperm.flatMap_right _).count_eq]

/-- No counter of an edge lies behind the bytes that the `uint8_t` of `BlockSet` can
    address. -/
def AllAddressable (c : Config) (n : Nat) (g : Graph c.vertexSize) : Prop :=
  ∀ pair ∈ edges g, ∀ hashVal ∈ CBFilterEncode.hashVals c n pair, hashVal / 8 < 256

/-- Packed counters, added to in another order. -/
theorem foldl_counting_perm {n : Nat} (hl : CBFilterEncode.Layout c n)
    (hrange : CBFilterEncode.Representable c n (edges g)) (hbyte : AllAddressable c n g)
    {pairs : List (Nat × Nat)} (hperm : (edges g).Perm pairs) :
    pairs.foldl (fun encode pair => CBFilterEncode.edgeSet c n encode pair.1 pair.2)
        (CBFilterEncode.fresh c) =
      (edges g).foldl (fun encode pair => CBFilterEncode.edgeSet c n encode pair.1 pair.2)
        (CBFilterEncode.fresh c) := by
  let named (pairs : List (Nat × Nat)) : List Nat :=
    pairs.flatMap fun pair => CBFilterEncode.counters c n (ordered pair.1 pair.2)
  have heq : ∀ pairs : List (Nat × Nat),
      pairs.foldl (fun encode pair => CBFilterEncode.edgeSet c n encode pair.1 pair.2)
        (CBFilterEncode.fresh c) = (named pairs).foldl (fun encode i =>
          encode.blockSet (i * c.elementSize) c.elementSize (CBFilterEncode.increment
            (encode.blockGet (i * c.elementSize) c.elementSize))) (CBFilterEncode.fresh c) := by
    intro pairs
    rw [List.foldl_flatMap]
    congr 1
    funext encode pair
    rw [CBFilterEncode.edgeSet, CBFilterEncode.hashVals_eq hl, List.foldl_map]
    rfl
  -- the pairs of a build have the smaller id first
  have hsmaller : ∀ pair ∈ edges g, ordered pair.1 pair.2 = pair := by
    rintro ⟨v, w⟩ hmem
    have := (mem_edges_iff.mp hmem).2
    rw [CBFilterEncode.ordered, if_neg (by omega)]
  have hcount : ∀ j, (named (edges g)).count j = CBFilterEncode.incidences c n (edges g) j := by
    intro j
    rw [List.count_flatMap, CBFilterEncode.incidences, Multiset.map_coe, Multiset.sum_coe]
    congr 1
    apply List.map_congr_left
    intro pair hpair
    show List.count j (CBFilterEncode.counters c n (ordered pair.1 pair.2)) = _
    rw [hsmaller pair hpair]
  have hpow : 2 ^ c.elementSize ≤ 2 ^ 32 := Nat.pow_le_pow_right (by omega) hl.elementSize_le
  -- increments of the same counters, in another order
  rw [heq, heq]
  symm
  apply BitSetSIMD.cell_foldl_perm hl.elementSize_pos hl.elementSize_le CBFilterEncode.increment _
    (hperm.flatMap_right _)
  · intro i hi
    obtain ⟨pair, hpair, hmem⟩ := List.mem_flatMap.mp hi
    rw [hsmaller pair hpair] at hmem
    have hle := CBFilterEncode.counter_le (CBFilterEncode.counters_lt hl hmem)
    rw [CBFilterEncode.bitLength_fresh hl]
    refine ⟨hle, hbyte pair hpair _ ?_⟩
    rw [CBFilterEncode.hashVals_eq hl]
    exact List.mem_map_of_mem hmem
  · intro j k hk
    have hzero : BitField.cell (CBFilterEncode.fresh c).bit c.elementSize j = 0 :=
      BitField.field_eq_zero fun p _ _ => BitSetSIMD.bit_ofBitSize _ p
    have hlt := hrange j
    rw [← hcount j] at hlt
    have hle : k ≤ (named (edges g)).count j := hk
    rw [hzero, CBFilterEncode.iterate_increment (by omega)]
    omega

/-! ## Section 6: Bit-hash records -/

/-- The record of a vertex depends on the set of its neighbours only. -/
theorem encodeBits_perm (v : Nat) {neighbors neighbors' : List Nat}
    (h : neighbors.Perm neighbors') :
    BitHashEncode.encodeBits c v neighbors (BitSetSIMD.ofBitSize c.perEncodeBitSize) =
      BitHashEncode.encodeBits c v neighbors' (BitSetSIMD.ofBitSize c.perEncodeBitSize) := by
  obtain ⟨hrec, hbit⟩ := BitHashEncode.bit_encodeBits v neighbors (isRecord_ofBitSize c)
  obtain ⟨hrec', hbit'⟩ := BitHashEncode.bit_encodeBits v neighbors' (isRecord_ofBitSize c)
  unfold IsRecord BitSetSIMD.bitLength at hrec hrec'
  apply BitSetSIMD.eq_of_bit (by omega)
  intro p
  rw [Bool.eq_iff_iff, hbit, hbit']
  simp only [h.mem_iff]

theorem encodeBits_nil (v : Nat) :
    BitHashEncode.encodeBits c v [] (BitSetSIMD.ofBitSize c.perEncodeBitSize) =
      BitSetSIMD.ofBitSize c.perEncodeBitSize :=
  BitSetSIMD.clear_ofBitSize _

variable {scan : List (Nat × List Nat)} (hscan : Scans g scan)
include hscan

theorem Scans.key_range {entry : Nat × List Nat} (hentry : entry ∈ scan) :
    1 ≤ entry.1 ∧ entry.1 ≤ c.vertexSize := by
  have hkey := hscan.keys.mem_iff.mp (List.mem_map_of_mem hentry)
  have := List.mem_range'_1.mp (List.mem_of_mem_filter hkey)
  omega

theorem Scans.key_lt {entry : Nat × List Nat} (hentry : entry ∈ scan) :
    entry.1 < (Records.fresh c).length := by
  have := hscan.key_range hentry
  exact Records.lt_length_fresh (by omega)

/-- A scan writes the record of every vertex with neighbours; the record of the empty list,
    which the scan leaves out, is the fresh one. -/
theorem record_foldl_scan {v : Nat} (hv : v ≤ c.vertexSize) :
    (scan.foldl (fun encodes entry => encodes.update entry.1
      (BitHashEncode.encodeBits c entry.1 entry.2)) (Records.fresh c)).record v =
    if v = 0 then BitSetSIMD.ofBitSize c.perEncodeBitSize
    else BitHashEncode.encodeBits c v (g.adj v) (BitSetSIMD.ofBitSize c.perEncodeBitSize) := by
  have hnodup : (scan.map Prod.fst).Nodup :=
    hscan.keys.nodup_iff.mpr (List.Nodup.filter _ List.nodup_range')
  have hfresh : (Records.fresh c).record v = BitSetSIMD.ofBitSize c.perEncodeBitSize :=
    Records.record_fresh (by omega)
  by_cases hkey : v ∈ scan.map Prod.fst
  · obtain ⟨entry, hentry, rfl⟩ := List.mem_map.mp hkey
    have hrange := hscan.key_range hentry
    rw [Records.record_foldl_update scan Prod.fst
      (fun entry => BitHashEncode.encodeBits c entry.1 entry.2) (Records.fresh c) hnodup
      (fun _ hentry => hscan.key_lt hentry) hentry, hfresh, if_neg (by omega)]
    exact encodeBits_perm _ (hscan.lists entry hentry)
  · have hother : ∀ entry ∈ scan, entry.1 ≠ v :=
      fun entry hentry heq => hkey (heq ▸ List.mem_map_of_mem hentry)
    rw [Records.record_foldl_update_ne scan Prod.fst
      (fun entry => BitHashEncode.encodeBits c entry.1 entry.2) (Records.fresh c) hother, hfresh]
    split
    · rfl
    next hzero =>
      have hnil : g.adj v = [] := by
        by_contra hne
        apply hkey
        apply hscan.keys.mem_iff.mpr
        exact List.mem_filter.mpr ⟨List.mem_range'_1.mpr (by omega), by simpa using hne⟩
      rw [hnil, encodeBits_nil]

/-- The build of the records agrees when the encoder has records. -/
theorem bitHash_agree_iff : Agree g scan (bitHashBuild c) ↔ c.vertexSize + 1 < 2 ^ 32 := by
  constructor
  · rintro ⟨encodes, hlist, -⟩
    exact BitHashEncode.vertexSize_lt_of_build hlist
  · intro hv
    have hdb : bitHashBuild c none scan = some (scan.foldl (fun encodes entry => encodes.update
        entry.1 (BitHashEncode.encodeBits c entry.1 entry.2)) (Records.fresh c)) := by
      rw [bitHashBuild, Records.constructed_eq hv]
      exact (Records.foldlM_updateAt _ _ _ _).trans
        (if_pos fun _ hentry => hscan.key_lt hentry)
    refine ⟨_, BitHashEncode.buildEncoding_eq hv g, ?_⟩
    rw [hdb, Option.some_inj]
    -- every vertex has the same record in both builds
    apply Records.eq_of_record
    · rw [Records.length_foldl_update, Records.length_fresh]
      exact (Records.length_writeAll c _).symm
    · intro v hlt
      rw [Records.length_foldl_update, Records.length_fresh] at hlt
      rw [record_foldl_scan hscan (Nat.le_of_lt_succ hlt)]
      split
      next hzero =>
        rw [hzero]
        exact (Records.record_writeAll_zero c _).symm
      next hpos =>
        exact (Records.record_writeAll (fun u => BitHashEncode.encodeBits c u (g.adj u))
          (by omega) (by omega)).symm

/-! ## Section 7: When the builds agree -/

/-- The plain and the bit-hash build agree up to `2 ^ 32 - 2` vertices, and so do the
    blocked and the integer one if their hash functions are defined. The counting build
    agrees within its counter range if every counter of an edge can be addressed. -/
theorem edge_builds_agree_iff (hk : c.perEncodeBitSize < 2 ^ 31) (nInt nCount : Nat) :
    (Agree g scan (bitBuild c) ↔ c.vertexSize + 1 < 2 ^ 32) ∧
    (Agree g scan (bitHashBuild c) ↔ c.vertexSize + 1 < 2 ^ 32) ∧
    (Agree g scan (blockedBuild c) ↔
      c.vertexSize + 1 < 2 ^ 32 ∧ (c.blockNums ≠ 0 ∨ Edgeless g)) ∧
    (Agree g scan (intBuild c nInt) ↔ c.vertexSize + 1 < 2 ^ 32 ∧ (nInt ≤ 60 ∨ Edgeless g)) ∧
    (CBFilterEncode.Layout c nCount → CBFilterEncode.Representable c nCount (edges g) →
      AllAddressable c nCount g → c.vertexSize + 1 < 2 ^ 32 →
      Agree g scan (countingBuild c nCount)) := by
  have hsize : (BFilterBitEncode.fresh c).bitLength = 32 * c.kSize * c.vertexSize :=
    BFilterBitEncode.bitLength_fresh hk
  refine ⟨?_, bitHash_agree_iff hscan, ?_, ?_, ?_⟩
  · have hpos : 0 < BFilterBitEncode.hashSize c := by
      have hk₀ := Nat.pos_of_ne_zero c.kSize_ne
      rw [BFilterBitEncode.hashSize_eq hk]
      exact Nat.mul_pos (by omega) (Nat.pos_of_ne_zero c.vertexSize_ne)
    refine (agree_iff hscan True _ _ fun _ pairs hperm => ?_).trans (by simp)
    refine foldl_setPair_perm (fun u v p hp => ?_) hperm
    rw [hsize, ← BFilterBitEncode.hashSize_eq hk]
    exact BFilterEncode.hashVals_lt hpos bitHashBestNums u v p hp
  · refine agree_iff hscan _ _ _ fun hblocks pairs hperm => ?_
    refine foldl_setPair_perm (fun u v p hp => ?_) hperm
    rw [hsize]
    exact BBFilterEncode.positions_lt (by omega) bitHashBestNums u v p hp
  · exact agree_iff hscan _ _ _ fun _ pairs hperm => foldl_int_perm hk nInt hperm
  · intro hl hrange hbyte hv
    exact (agree_iff hscan _ _ _ fun _ pairs hperm =>
      foldl_counting_perm hl hrange hbyte hperm).mpr ⟨hv, Or.inl hl.bestHashNums_le⟩

end

/-- Seven vertices of degree 100 and 38 words for each: 945 counters of 9 bits and one
    hash function. -/
def sevenConfig : Config := Config.ofSizes 38 7 100 (by decide)

/-- Vertex 1 with the neighbours 2 and 5. -/
def fork : Graph 7 where
  adjacencyList := [[], [2, 5], [1], [], [], [1], [], []]
  zero := by decide
  length := by decide
  range := by decide
  loopless := by decide
  nodup := by decide
  symm := by decide

/-- The single edge between 1 and 2. -/
def oneEdge : Graph 7 where
  adjacencyList := [[], [2], [1], [], [], [], [], []]
  zero := by decide
  length := by decide
  range := by decide
  loopless := by decide
  nodup := by decide
  symm := by decide

theorem sevenConfig_layout : CBFilterEncode.Layout sevenConfig 1 where
  elementSize_pos := by decide +kernel
  elementSize_le := by decide +kernel
  bestHashNums_le := by decide +kernel
  hashSize_lt := by decide +kernel

theorem scans_oneEdge : Scans oneEdge [(2, [1]), (1, [2])] := by
  refine ⟨by decide, fun entry hentry => ?_⟩
  simp only [List.mem_cons, List.not_mem_nil, or_false] at hentry
  rcases hentry with rfl | rfl <;> decide

theorem edge_builds_agree_iff_oneEdge :
    Agree oneEdge [(2, [1]), (1, [2])] (bitBuild sevenConfig) ∧
    Agree oneEdge [(2, [1]), (1, [2])] (bitHashBuild sevenConfig) ∧
    Agree oneEdge [(2, [1]), (1, [2])] (blockedBuild sevenConfig) ∧
    Agree oneEdge [(2, [1]), (1, [2])] (intBuild sevenConfig 1) ∧
    Agree oneEdge [(2, [1]), (1, [2])] (countingBuild sevenConfig 1) := by
  obtain ⟨hbit, hhash, hblocked, hint, hcount⟩ :=
    edge_builds_agree_iff (c := sevenConfig) scans_oneEdge (by decide) 1 1
  have hv : sevenConfig.vertexSize + 1 < 2 ^ 32 := by decide
  refine ⟨hbit.mpr hv, hhash.mpr hv, hblocked.mpr ⟨hv, Or.inl (by decide)⟩,
    hint.mpr ⟨hv, Or.inl (by decide)⟩, hcount sevenConfig_layout ?_ ?_ hv⟩
  · exact CBFilterEncode.representable_of_card (by decide +kernel)
  · unfold AllAddressable
    decide +kernel

/-- The counter of the pair `(1, 5)` begins in byte 715. Its first byte is written to byte
    203, in the middle of the counter of `(1, 2)`. With 2 before 5, as in memory, the write
    clears that counter; with 5 before 2 the counter is written afterwards. -/
theorem fork_order_shows :
    CBFilterEncode.Layout sevenConfig 1 ∧
    CBFilterEncode.Representable sevenConfig 1 (edges fork) ∧
    Scans fork [(1, [5, 2]), (2, [1]), (5, [1])] ∧
    (countingBuild sevenConfig 1 (some fork.adjacencyList) []).map
        (fun encode => CBFilterEncode.nePairTest sevenConfig 1 encode 1 2) = some .nonNeighbor ∧
    (countingBuild sevenConfig 1 none [(1, [5, 2]), (2, [1]), (5, [1])]).map
        (fun encode => CBFilterEncode.nePairTest sevenConfig 1 encode 1 2) = some .uncertain ∧
    ¬ Agree fork [(1, [5, 2]), (2, [1]), (5, [1])] (countingBuild sevenConfig 1) := by
  have hscan : Scans fork [(1, [5, 2]), (2, [1]), (5, [1])] := by
    refine ⟨by decide, fun entry hentry => ?_⟩
    simp only [List.mem_cons, List.not_mem_nil, or_false] at hentry
    rcases hentry with rfl | rfl | rfl <;> decide
  have hlist : (countingBuild sevenConfig 1 (some fork.adjacencyList) []).map
      (fun encode => CBFilterEncode.nePairTest sevenConfig 1 encode 1 2) = some .nonNeighbor := by
    decide +kernel
  have hdb : (countingBuild sevenConfig 1 none [(1, [5, 2]), (2, [1]), (5, [1])]).map
      (fun encode => CBFilterEncode.nePairTest sevenConfig 1 encode 1 2) = some .uncertain := by
    decide +kernel
  refine ⟨sevenConfig_layout, CBFilterEncode.representable_of_card (by decide +kernel), hscan,
    hlist, hdb, ?_⟩
  rintro ⟨encode, hleft, hright⟩
  rw [show countingBuild sevenConfig 1 (some fork.adjacencyList) [] = some encode from hleft]
    at hlist
  rw [hright] at hdb
  rw [Option.map_some, Option.some_inj] at hlist hdb
  rw [hlist] at hdb
  cases hdb

end FilterVend

end Vend
