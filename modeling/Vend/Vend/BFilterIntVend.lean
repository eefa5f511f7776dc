import Mathlib.Algebra.Order.Group.Multiset
import Vend.Encode.BFilterIntEncode
import Vend.Vend.RecordVend

/-! # The counting vend under updates

    `vend/bf_int_vend.h`, the type `BloomFilterInt` of the factory: a counter of 32 bits for
    each value of `Hash`. `Insert` adds to the counters of a pair and `Delete` takes from
    them, so the filter stands for a multiset of pairs, and a list that has a neighbour
    several times puts the pair into it several times.

    `run_counts` follows the filter from the build over the file of its encoding through any
    valid sequence of updates. An edge that was handed over `copies` times is not denied
    before it is deleted `copies` times. The executions draw the pairs they delete at random,
    whether they are edges or not; `run_keeps` says what is left of this then.
-/

namespace Vend

/-! ## Section 1: Model -/

/-- An update of the graph, as its vend sees it. -/
inductive Update where
  | insert (vertex1 vertex2 : Nat)
  | delete (vertex1 vertex2 : Nat)
  deriving DecidableEq, Repr

/-- `Insert(vertex1, vertex2)` or `Delete(vertex1, vertex2)`. -/
def VendClass.update (vend : VendClass) (s : vend.State) : Update → Option vend.State
  | .insert vertex1 vertex2 => vend.insert s vertex1 vertex2
  | .delete vertex1 vertex2 => vend.delete s vertex1 vertex2

/-- A sequence of updates. -/
def VendClass.run (vend : VendClass) (s : vend.State) (updates : List Update) :
    Option vend.State :=
  updates.foldlM vend.update s

theorem VendClass.run_cons (vend : VendClass) (s : vend.State) (update : Update)
    (updates : List Update) : vend.run s (update :: updates) =
      (vend.update s update).bind fun s' => vend.run s' updates := rfl

namespace BFilterIntVend

open BFilterIntEncode
open CBFilterEncode (ordered ordered_comm)
open LoadData (EdgeFile)

/-- `BFilterIntVend`, with `INT_HASH_BEST_NUMS` hash functions. What it works on are the
    counters of its encoder. A file that is not there leaves them as they are. -/
def vendClass (c : Config) (bestHashNums : Nat) : VendClass where
  State := List Nat
  buildEncoding _ lists := FilterVend.intBuild c bestHashNums (some lists) []
  encodePersistent encode := encodePersistent c encode
  loadEncode _ _ file :=
    match file with
    | none => some (fresh c)
    | some file => loadFromDb c file (fresh c)
  determine encode vertex1 vertex2 :=
    if bestHashNums ≤ CBFilterEncode.hashParam1.length then
      some (nePairTest c bestHashNums encode vertex1 vertex2)
    else none
  insert encode vertex1 vertex2 :=
    defined bestHashNums (insertPair c bestHashNums encode vertex1 vertex2)
  delete encode vertex1 vertex2 :=
    defined bestHashNums (deletePair c bestHashNums encode vertex1 vertex2)

/-! ## Section 2: What the filter should count -/

/-- The pairs after an update. -/
def note (present : Multiset (Nat × Nat)) : Update → Multiset (Nat × Nat)
  | .insert u v => ordered u v ::ₘ present
  | .delete u v => present.erase (ordered u v)

/-- Only present pairs are deleted, and no counter runs over. -/
def Allowed (bestHashNums : Nat) (present : Multiset (Nat × Nat)) : Update → Prop
  | .insert u v => Multiset.card (ordered u v ::ₘ present) * bestHashNums < 2 ^ 32
  | .delete u v => ordered u v ∈ present

instance (bestHashNums : Nat) (present : Multiset (Nat × Nat)) (update : Update) :
    Decidable (Allowed bestHashNums present update) := by
  cases update
  · exact inferInstanceAs (Decidable (_ < _))
  · exact inferInstanceAs (Decidable (_ ∈ _))

/-- Every update of the sequence is allowed when its turn comes. -/
def Valid (bestHashNums : Nat) : Multiset (Nat × Nat) → List Update → Prop
  | _, [] => True
  | present, update :: updates =>
    Allowed bestHashNums present update ∧ Valid bestHashNums (note present update) updates

/-- The pairs after a sequence of updates. -/
def noted (present : Multiset (Nat × Nat)) (updates : List Update) : Multiset (Nat × Nat) :=
  updates.foldl note present

/-- The pairs that are inserted. -/
def inserted : List Update → Multiset (Nat × Nat)
  | [] => 0
  | .insert u v :: updates => ordered u v ::ₘ inserted updates
  | .delete _ _ :: updates => inserted updates

/-- The pairs that are deleted. -/
def deleted : List Update → Multiset (Nat × Nat)
  | [] => 0
  | .insert _ _ :: updates => deleted updates
  | .delete u v :: updates => ordered u v ::ₘ deleted updates

/-- The edges of a file, the smaller id first. -/
def edges {vertexSize : Nat} (file : EdgeFile vertexSize) : Multiset (Nat × Nat) :=
  ((LoadData.pairs file.lines).map fun pair => ordered pair.1 pair.2 : List (Nat × Nat))

/-! ## Section 3: The pairs of a build -/

section

variable {vertexSize : Nat} {file : EdgeFile vertexSize}

theorem ordered_of_lt {u v : Nat} (h : u < v) : ordered u v = (u, v) := by
  rw [ordered, if_neg (by omega)]

theorem ordered_eq_iff {a b u v : Nat} (h : u < v) :
    ordered a b = (u, v) ↔ (a, b) = (u, v) ∨ (b, a) = (u, v) := by
  unfold ordered
  simp only [Prod.mk.injEq]
  split <;> rw [Prod.mk.injEq] <;> omega

/-- A list hands over its own pairs only. -/
theorem count_larger (v u w : Nat) (l : List Nat) :
    (FilterVend.larger v l : Multiset (Nat × Nat)).count (u, w) =
      if v = u ∧ u < w then l.count w else 0 := by
  induction l with
  | nil => simp [FilterVend.larger]
  | cons x l ih =>
    have hcons : FilterVend.larger v (x :: l) =
        (if v < x then [(v, x)] else []) ++ FilterVend.larger v l := by
      unfold FilterVend.larger
      split <;> simp_all
    rw [hcons, ← Multiset.coe_add, Multiset.count_add, ih]
    by_cases hv : v = u
    · subst hv
      by_cases hx : x = w
      · subst hx
        by_cases hlt : v < x <;> simp [hlt, Nat.add_comm]
      · have hne : ((if v < x then [(v, x)] else [] : List (Nat × Nat)) :
            Multiset (Nat × Nat)).count (v, w) = 0 := by
          split <;> simp [Ne.symm hx]
        simp [hne, hx]
    · have hne : ((if v < x then [(v, x)] else [] : List (Nat × Nat)) :
          Multiset (Nat × Nat)).count (u, w) = 0 := by
        split <;> simp [Ne.symm hv]
      simp [hne, hv]

/-- Of the lists of all vertices only one is left. -/
theorem count_flatMap_larger (vertices : List Nat) (hvertices : vertices.Nodup)
    (f : Nat → List Nat) (u w : Nat) :
    (vertices.flatMap fun v => FilterVend.larger v (f v) : Multiset (Nat × Nat)).count (u, w) =
      if u ∈ vertices ∧ u < w then (f u).count w else 0 := by
  induction vertices with
  | nil => simp
  | cons v vertices ih =>
    obtain ⟨hv, hvertices⟩ := List.nodup_cons.mp hvertices
    rw [List.flatMap_cons, ← Multiset.coe_add, Multiset.count_add, count_larger, ih hvertices]
    by_cases huv : v = u
    · subst huv
      simp [hv]
    · simp [huv, Ne.symm huv]

theorem count_edges {u w : Nat} (hlt : u < w) :
    (edges file).count (u, w) = if file.Edge u w then 1 else 0 := by
  have hnodup : ((LoadData.pairs file.lines).map fun pair => ordered pair.1 pair.2).Nodup := by
    rw [List.nodup_iff_pairwise_ne, List.pairwise_map]
    refine file.distinct.imp_of_mem ?_
    rintro ⟨a, b⟩ ⟨x, y⟩ hp hq ⟨hne, hne'⟩ heq
    rw [Prod.swap_prod_mk] at hne'
    unfold ordered at heq
    split at heq <;> split at heq <;> simp_all only [Prod.mk.injEq, ne_eq, not_true, and_self]
  have hmem : (u, w) ∈ (LoadData.pairs file.lines).map (fun pair => ordered pair.1 pair.2) ↔
      file.Edge u w := by
    rw [List.mem_map, EdgeFile.Edge]
    constructor
    · rintro ⟨⟨a, b⟩, hp, heq⟩
      rcases (ordered_eq_iff hlt).mp heq with h | h
      · cases h
        exact Or.inl hp
      · cases h
        exact Or.inr hp
    · rintro (hp | hp)
      · exact ⟨(u, w), hp, ordered_of_lt hlt⟩
      · exact ⟨(w, u), hp, by rw [ordered_comm, ordered_of_lt hlt]⟩
  split
  next hedge =>
    exact Multiset.count_eq_one_of_mem (Multiset.coe_nodup.mpr hnodup) (hmem.mpr hedge)
  next hedge => exact Multiset.count_eq_zero_of_notMem fun h => hedge (hmem.mp h)

theorem lt_of_mem_edges {u w : Nat} (h : (u, w) ∈ edges file) : u < w := by
  obtain ⟨⟨a, b⟩, hp, heq⟩ := List.mem_map.mp h
  have hne := file.loopless _ hp
  unfold ordered at heq
  split at heq <;> cases heq <;> omega

theorem count_edges_of_edge {u w : Nat} (h : file.Edge u w) :
    (edges file).count (ordered u w) = 1 := by
  rcases Nat.lt_or_gt_of_ne (EdgeFile.ne_of_edge h) with hlt | hgt
  · rw [ordered_of_lt hlt, count_edges hlt, if_pos h]
  · have hcomm : file.Edge w u := Or.symm h
    rw [ordered_comm, ordered_of_lt hgt, count_edges hgt, if_pos hcomm]

/-- A build hands over every edge as often as it is repeated. -/
theorem listPairs_eq {copies : Nat} {lists : List (List Nat)} (h : Copies file copies lists) :
    (BFilterBitVend.listPairs lists : Multiset (Nat × Nat)) = copies • edges file := by
  refine Multiset.ext.mpr fun pair => ?_
  obtain ⟨u, w⟩ := pair
  rw [Multiset.count_nsmul, BFilterBitVend.listPairs,
    count_flatMap_larger _ List.nodup_range' (fun v => lists.getD v []), h.length,
    Nat.add_sub_cancel, h.count]
  by_cases hlt : u < w
  · rw [count_edges hlt]
    by_cases hedge : file.Edge u w
    · have hu := (SaveData.EdgeFile.range_of_edge file hedge).1
      have hmem : u ∈ List.range' 1 vertexSize := List.mem_range'_1.mpr (by omega)
      simp [hedge, hlt, hmem]
    · simp [hedge]
  · have hnone : (edges file).count (u, w) = 0 :=
      Multiset.count_eq_zero_of_notMem fun hmem => hlt (lt_of_mem_edges hmem)
    simp [hnone, hlt]

end

/-! ## Section 4: Counting -/

section

variable {c : Config} {n : Nat}

/-- The loop of a build, as long as the counters have room. -/
theorem foldl_edgeSet (hk : c.perEncodeBitSize < 2 ^ 31) {encode : List Nat}
    {present : Multiset (Nat × Nat)} (h : Inv c n (encode, present)) (pairs : List (Nat × Nat))
    (hlt : ∀ pair ∈ pairs, pair.1 < pair.2)
    (hroom : Multiset.card (present + (pairs : Multiset (Nat × Nat))) * n < 2 ^ 32) :
    Inv c n (pairs.foldl (fun encode pair => edgeSet c n encode pair.1 pair.2) encode,
      present + (pairs : Multiset (Nat × Nat))) := by
  induction pairs generalizing encode present with
  | nil => simpa using h
  | cons pair pairs ih =>
    have hpair : ordered pair.1 pair.2 = pair := ordered_of_lt (hlt pair (by simp))
    have hcons : present + ((pair :: pairs : List (Nat × Nat)) : Multiset (Nat × Nat)) =
        (ordered pair.1 pair.2 ::ₘ present) + (pairs : Multiset (Nat × Nat)) := by
      rw [hpair, ← Multiset.cons_coe, Multiset.add_cons, Multiset.cons_add]
    rw [hcons] at hroom ⊢
    rw [List.foldl_cons]
    apply ih (h.edgeSet hk ?_) (fun p hp => hlt p (by simp [hp])) hroom
    refine Nat.lt_of_le_of_lt (Nat.mul_le_mul_right n ?_) hroom
    rw [Multiset.card_add]
    exact Nat.le_add_right _ _

/-- The verdict of a filter: a pair is denied exactly when no present pair names one of its
    counters. -/
theorem nePairTest_iff {encode : List Nat} {present : Multiset (Nat × Nat)}
    (h : Inv c n (encode, present)) (u v : Nat) :
    nePairTest c n encode u v ≠ .neighbor ∧
    (nePairTest c n encode u v = .nonNeighbor ↔
      ∃ i ∈ counters c n (ordered u v), ∀ pair ∈ present, i ∉ counters c n pair) := by
  have hany : (counters c n (ordered u v)).any (fun i => encode.getD i 0 = 0) = true ↔
      ∃ i ∈ counters c n (ordered u v), ∀ pair ∈ present, i ∉ counters c n pair := by
    rw [List.any_eq_true]
    refine exists_congr fun i => and_congr_right fun _ => ?_
    have hcount : encode.getD i 0 = CountingFilter.incidences (counters c n) present i :=
      h.counter i
    rw [decide_eq_true_eq, hcount, CountingFilter.incidences_eq_zero_iff]
  rw [← hany, BFilterIntEncode.nePairTest, hashVals_eq]
  split
  next hzero => exact ⟨by decide, fun _ => hzero, fun _ => rfl⟩
  next hzero => exact ⟨by decide, fun h => absurd h (by decide), fun hsome => absurd hsome hzero⟩

/-- What is written to a file fits its numbers. -/
theorem lt_of_mem_encode {encode : List Nat} {present : Multiset (Nat × Nat)}
    (h : Inv c n (encode, present)) (hroom : Multiset.card present * n < 2 ^ 32) :
    ∀ count ∈ encode, count < 2 ^ 32 := by
  intro count hcount
  obtain ⟨i, hi, rfl⟩ := List.getElem_of_mem hcount
  have hle := CountingFilter.incidences_le (counters c n) (n := n)
    (fun pair => by simp [counters]) present i
  have heq : encode.getD i 0 = CountingFilter.incidences (counters c n) present i := h.counter i
  rw [← List.getD_eq_getElem encode 0 hi]
  omega

/-! ## Section 5: Updates -/

variable (hk : c.perEncodeBitSize < 2 ^ 31) (hn : n ≤ 60) (hnarrow : hashSize c ≤ 2 ^ 32)
include hk hn hnarrow

/-- One update. -/
theorem exists_update {encode : List Nat} {present : Multiset (Nat × Nat)}
    (h : Inv c n (encode, present)) {update : Update} (hallowed : Allowed n present update) :
    ∃ encode', (vendClass c n).update encode update = some encode' ∧
      Inv c n (encode', note present update) := by
  have hdefined : ∀ xs, defined n xs = some xs := fun xs => if_pos hn
  cases update with
  | insert u v => exact ⟨_, hdefined _, h.edgeSet hk hallowed⟩
  | delete u v =>
    exact ⟨_, hdefined _, h.deletePair hk (narrow_of_hashSize_le hk hnarrow _) hallowed⟩

/-- Any valid sequence of updates. -/
theorem exists_run {encode : List Nat} {present : Multiset (Nat × Nat)}
    (h : Inv c n (encode, present)) {updates : List Update} (hvalid : Valid n present updates) :
    ∃ encode', (vendClass c n).run encode updates = some encode' ∧
      Inv c n (encode', noted present updates) := by
  induction updates generalizing encode present with
  | nil => exact ⟨encode, rfl, h⟩
  | cons update updates ih =>
    obtain ⟨hallowed, hrest⟩ := hvalid
    obtain ⟨middle, hupdate, hmiddle⟩ := exists_update hk hn hnarrow h hallowed
    obtain ⟨encode', hrun, hinv⟩ := ih hmiddle hrest
    refine ⟨encode', (VendClass.run_cons ..).trans ?_, hinv⟩
    rw [hupdate]
    exact hrun

omit hk hn hnarrow in
/-- Copies of a pair go away one by one. -/
theorem count_le_noted (pair : Nat × Nat) (present : Multiset (Nat × Nat))
    (updates : List Update) :
    present.count pair ≤ (noted present updates).count pair + (deleted updates).count pair := by
  induction updates generalizing present with
  | nil => exact Nat.le_add_right _ _
  | cons update updates ih =>
    have hrest := ih (note present update)
    cases update with
    | insert u v =>
      have hle : present.count pair ≤ (ordered u v ::ₘ present).count pair :=
        Multiset.count_le_count_cons _ _ _
      exact Nat.le_trans hle hrest
    | delete u v =>
      have hcount : present.count pair ≤
          (present.erase (ordered u v)).count pair + if pair = ordered u v then 1 else 0 := by
        split
        next heq =>
          rw [heq, Multiset.count_erase_self]
          omega
        next hne => rw [Multiset.count_erase_of_ne hne, Nat.add_zero]
      rw [note] at hrest
      rw [deleted, Multiset.count_cons, noted, List.foldl_cons, note]
      unfold noted at hrest
      omega

/-! ## Section 6: Updates that nobody checks -/

omit hk hn hnarrow in
/-- What is known of the counters when pairs are deleted that are not present: a counter at
    zero stays there, so the deletions take at most as much as they name. -/
structure Held (c : Config) (n : Nat) (encode : List Nat)
    (added removed : Multiset (Nat × Nat)) : Prop where
  length : encode.length = hashSize c
  le : ∀ i, encode.getD i 0 ≤ CountingFilter.incidences (counters c n) added i
  ge : ∀ i, CountingFilter.incidences (counters c n) added i ≤
    encode.getD i 0 + CountingFilter.incidences (counters c n) removed i

omit hk hn hnarrow in
theorem Held.of_inv {encode : List Nat} {present : Multiset (Nat × Nat)}
    (h : Inv c n (encode, present)) : Held c n encode present 0 := by
  have hcount : ∀ i, encode.getD i 0 = CountingFilter.incidences (counters c n) present i :=
    h.counter
  exact ⟨h.length, fun i => Nat.le_of_eq (hcount i), fun i => by rw [hcount i]; exact Nat.le_refl _⟩

/-- One update, with room for what it adds. -/
theorem Held.update {encode : List Nat} {added removed : Multiset (Nat × Nat)}
    (h : Held c n encode added removed) (update : Update)
    (hroom : Multiset.card (added + inserted [update]) * n < 2 ^ 32) :
    ∃ encode', (vendClass c n).update encode update = some encode' ∧
      Held c n encode' (added + inserted [update]) (removed + deleted [update]) := by
  have hdefined : ∀ xs, defined n xs = some xs := fun xs => if_pos hn
  have hidxs : ∀ pair, ∀ i ∈ counters c n pair, i < encode.length := by
    intro pair i hi
    rw [h.length]
    exact counters_lt hk hi
  cases update with
  | insert u v =>
    rw [inserted, inserted, deleted, deleted, Multiset.add_cons, Multiset.add_zero,
      Multiset.add_zero] at *
    obtain ⟨hlen, hget⟩ := CountingFilter.foldl_change (fun count => (count + 1) % 2 ^ 32) encode
      (hidxs (ordered u v))
    have hvalue : ∀ i, (edgeSet c n encode u v).getD i 0 =
        encode.getD i 0 + (counters c n (ordered u v)).count i := by
      intro i
      have hle := CountingFilter.incidences_le (counters c n) (n := n)
        (fun pair => by simp [counters]) (ordered u v ::ₘ added) i
      rw [CountingFilter.incidences_cons] at hle
      have hheld := h.le i
      rw [edgeSet, hashVals_eq, hget i, BitSetSIMD.iterate_succ_mod (by omega)]
    refine ⟨_, hdefined _, hlen.trans h.length, fun i => ?_, fun i => ?_⟩
    · have hheld := h.le i
      rw [CountingFilter.incidences_cons]
      exact (hvalue i).trans_le (by omega)
    · have hheld := h.ge i
      rw [CountingFilter.incidences_cons]
      exact Nat.le_trans (by omega) (Nat.add_le_add_right (hvalue i).ge _)
  | delete u v =>
    rw [inserted, inserted, deleted, deleted, Multiset.add_cons, Multiset.add_zero,
      Multiset.add_zero] at *
    obtain ⟨hlen, hget⟩ := CountingFilter.foldl_change (· - 1) encode (hidxs (ordered u v))
    have hnarrow' := narrow_of_hashSize_le (n := n) hk hnarrow (ordered u v)
    have hvalue : ∀ i, (deletePair c n encode u v).getD i 0 =
        encode.getD i 0 - (counters c n (ordered u v)).count i := by
      intro i
      rw [deletePair_eq encode hnarrow',
        CountingFilter.foldl_saturating encode (hidxs (ordered u v)), hget i,
        CountingFilter.iterate_pred]
    have hlen' : (deletePair c n encode u v).length = hashSize c := by
      rw [deletePair_eq encode hnarrow',
        CountingFilter.foldl_saturating encode (hidxs (ordered u v)), hlen, h.length]
    refine ⟨_, hdefined _, hlen', fun i => ?_, fun i => ?_⟩
    · have hheld := h.le i
      rw [hvalue i]
      omega
    · have hheld := h.ge i
      rw [CountingFilter.incidences_cons, hvalue i]
      omega

omit hk hn hnarrow in
theorem inserted_cons (update : Update) (updates : List Update) :
    inserted (update :: updates) = inserted [update] + inserted updates := by
  cases update
  · rw [inserted, inserted, inserted, Multiset.cons_add, Multiset.zero_add]
  · rw [inserted, inserted, inserted, Multiset.zero_add]

omit hk hn hnarrow in
theorem deleted_cons (update : Update) (updates : List Update) :
    deleted (update :: updates) = deleted [update] + deleted updates := by
  cases update
  · rw [deleted, deleted, deleted, Multiset.zero_add]
  · rw [deleted, deleted, deleted, Multiset.cons_add, Multiset.zero_add]

/-- Any sequence of updates, with room for all that it adds. -/
theorem Held.run {encode : List Nat} {added removed : Multiset (Nat × Nat)}
    (h : Held c n encode added removed) (updates : List Update)
    (hroom : Multiset.card (added + inserted updates) * n < 2 ^ 32) :
    ∃ encode', (vendClass c n).run encode updates = some encode' ∧
      Held c n encode' (added + inserted updates) (removed + deleted updates) := by
  induction updates generalizing encode added removed with
  | nil => exact ⟨encode, rfl, by simpa [inserted, deleted] using h⟩
  | cons update updates ih =>
    rw [inserted_cons, ← Multiset.add_assoc] at hroom ⊢
    rw [deleted_cons, ← Multiset.add_assoc]
    have hfirst : Multiset.card (added + inserted [update]) * n < 2 ^ 32 := by
      refine Nat.lt_of_le_of_lt (Nat.mul_le_mul_right n ?_) hroom
      rw [Multiset.card_add _ (inserted updates)]
      exact Nat.le_add_right _ _
    obtain ⟨middle, hupdate, hmiddle⟩ := h.update hk hn hnarrow update hfirst
    obtain ⟨encode', hrun, hheld⟩ := ih hmiddle hroom
    refine ⟨encode', (VendClass.run_cons ..).trans ?_, hheld⟩
    rw [hupdate]
    exact hrun

omit hk hn hnarrow in
/-- What is known of the counters decides the verdict on two sides. -/
theorem Held.nePairTest {encode : List Nat} {added removed : Multiset (Nat × Nat)}
    (h : Held c n encode added removed) (u v : Nat) :
    nePairTest c n encode u v ≠ .neighbor ∧
    ((∃ i ∈ counters c n (ordered u v), ∀ pair ∈ added, i ∉ counters c n pair) →
      nePairTest c n encode u v = .nonNeighbor) ∧
    ((∀ i ∈ counters c n (ordered u v), CountingFilter.incidences (counters c n) removed i <
        CountingFilter.incidences (counters c n) added i) →
      nePairTest c n encode u v = .uncertain) := by
  rw [BFilterIntEncode.nePairTest, hashVals_eq]
  have hzero : (counters c n (ordered u v)).any (fun i => encode.getD i 0 = 0) = true ↔
      ∃ i ∈ counters c n (ordered u v), encode.getD i 0 = 0 := by
    simp only [List.any_eq_true, decide_eq_true_eq]
  split
  next hany =>
    refine ⟨by decide, fun _ => rfl, fun hleft => ?_⟩
    obtain ⟨i, hi, hnone⟩ := hzero.mp hany
    have hge := h.ge i
    have hpositive := hleft i hi
    omega
  next hany =>
    refine ⟨by decide, fun hfree => ?_, fun _ => rfl⟩
    obtain ⟨i, hi, hnever⟩ := hfree
    have hle := h.le i
    rw [(CountingFilter.incidences_eq_zero_iff _).mpr hnever] at hle
    exact absurd (hzero.mpr ⟨i, hi, Nat.le_zero.mp hle⟩) hany

end

/-! ## Section 7: From the build to the last update -/

section

variable {c : Config} {n : Nat} (hk : c.perEncodeBitSize < 2 ^ 31) (hn : n ≤ 60)
variable (hsize : c.vertexSize + 1 < 2 ^ 32)
variable {file : EdgeFile c.vertexSize} {copies : Nat}
variable (hroom : copies * Multiset.card (edges file) * n < 2 ^ 32)
include hk hn hsize hroom

/-- The build over repeated lists and its way through the file. -/
theorem exists_loaded {lists : List (List Nat)} (hlists : Copies file copies lists) :
    ∃ encode text, (∀ db, (vendClass c n).buildEncoding db lists = some encode) ∧
      (vendClass c n).encodePersistent encode = some text ∧
      (∀ db lists, (vendClass c n).loadEncode db lists (some text) = some encode) ∧
      Inv c n (encode, copies • edges file) := by
  have hcard : Multiset.card (copies • edges file) * n < 2 ^ 32 := by
    rwa [Multiset.card_nsmul]
  have hlt : ∀ pair ∈ BFilterBitVend.listPairs lists, pair.1 < pair.2 := by
    intro pair hpair
    obtain ⟨v, -, hmem⟩ := List.mem_flatMap.mp hpair
    obtain ⟨w, hw, rfl⟩ := List.mem_map.mp hmem
    exact of_decide_eq_true (List.mem_filter.mp hw).2
  have hinv := foldl_edgeSet hk (inv_fresh (c := c) (n := n)) _ hlt
    (by rwa [Multiset.zero_add, listPairs_eq hlists])
  rw [Multiset.zero_add, listPairs_eq hlists] at hinv
  have hlen := hlists.length
  have hbuild : ∀ db, (vendClass c n).buildEncoding db lists = some
      ((BFilterBitVend.listPairs lists).foldl
        (fun encode pair => edgeSet c n encode pair.1 pair.2) (fresh c)) := by
    intro db
    have hloop : (vendClass c n).buildEncoding db lists =
        (BFilterBitVend.listPairs lists).foldlM (fun encode pair =>
          FilterVend.definedIf (n ≤ CBFilterEncode.hashParam1.length) (edgeSet c n) encode
            pair.1 pair.2) (fresh c) := by
      simp only [vendClass, FilterVend.intBuild, FilterVend.buildEncoding,
        if_pos (show lists.length < 2 ^ 32 by omega), BFilterBitVend.listPairs,
        FilterVend.foldlM_flatMap, FilterVend.edgeSets_eq]
    have hdefined : n ≤ CBFilterEncode.hashParam1.length := hn
    rw [hloop, FilterVend.foldlM_definedIf, if_pos (Or.inl hdefined)]
  have hfresh : (fresh c).length = hashSize c := List.length_replicate
  obtain ⟨text, hwrite, hload⟩ := loadFromDb_encodePersistent hinv.length
    (lt_of_mem_encode hinv hcard) hfresh
  exact ⟨_, text, hbuild, hwrite, fun _ _ => hload, hinv⟩

end

/-- The verdicts of a filter that was built from a graph with every neighbour `copies` times
    in its list, written, loaded and then updated: a pair is denied exactly when one of its
    counters is named by no pair that is left. So nothing is affirmed, and an edge that is
    deleted less than `copies` times is not denied. -/
theorem run_counts {c : Config} {n : Nat} (hk : c.perEncodeBitSize < 2 ^ 31) (hn : n ≤ 60)
    (hnarrow : hashSize c ≤ 2 ^ 32) (hsize : c.vertexSize + 1 < 2 ^ 32)
    {file : EdgeFile c.vertexSize} {copies : Nat}
    (hroom : copies * Multiset.card (edges file) * n < 2 ^ 32) {lists : List (List Nat)}
    (hlists : Copies file copies lists) {updates : List Update}
    (hvalid : Valid n (copies • edges file) updates) :
    ∃ built text updated, (∀ db, (vendClass c n).buildEncoding db lists = some built) ∧
      (vendClass c n).encodePersistent built = some text ∧
      (∀ db lists', ((vendClass c n).loadEncode db lists' (some text)).bind (fun loaded =>
        (vendClass c n).run loaded updates) = some updated) ∧
      ∀ u v, ∃ type, (vendClass c n).determine updated u v = some type ∧ type ≠ .neighbor ∧
        (type = .nonNeighbor ↔ ∃ i ∈ counters c n (ordered u v),
          ∀ pair ∈ noted (copies • edges file) updates, i ∉ counters c n pair) ∧
        (file.Edge u v → (deleted updates).count (ordered u v) < copies → type = .uncertain) := by
  obtain ⟨built, text, hbuild, hwrite, hload, hinv⟩ := exists_loaded hk hn hsize hroom hlists
  obtain ⟨updated, hrun, hupdated⟩ := exists_run hk hn hnarrow hinv hvalid
  refine ⟨built, text, updated, hbuild, hwrite, fun db lists' => ?_, ?_⟩
  · rw [hload db lists']
    exact hrun
  intro u v
  obtain ⟨hnever, hiff⟩ := nePairTest_iff hupdated u v
  refine ⟨nePairTest c n updated u v, if_pos hn, hnever, hiff, ?_⟩
  intro hedge hfew
  have hcount := count_le_noted (ordered u v) (copies • edges file) updates
  rw [Multiset.count_nsmul, count_edges_of_edge hedge, Nat.mul_one] at hcount
  have hpos : 0 < (noted (copies • edges file) updates).count (ordered u v) := by omega
  exact hupdated.nePairTest (Multiset.count_pos.mp hpos)

/-- The graph has been saved once, and every edge is deleted once. -/
theorem run_counts_twice :
    ∃ updated,
      (vendClass sixteenConfig 2).determine updated 5 3 = some .uncertain ∧
      ∃ built text, (vendClass sixteenConfig 2).encodePersistent built = some text ∧
        ((vendClass sixteenConfig 2).loadEncode ∅ [] (some text)).bind (fun loaded =>
          (vendClass sixteenConfig 2).run loaded
            [.delete 1 2, .delete 5 3, .insert 7 8, .delete 16 2]) = some updated := by
  have hvalid : Valid 2 (2 • @edges 16 threeEdges)
      [.delete 1 2, .delete 5 3, .insert 7 8, .delete 16 2] := by
    refine ⟨?_, ?_, ?_, ?_, trivial⟩
    all_goals decide
  obtain ⟨built, text, updated, -, hwrite, hrun, hverdicts⟩ := run_counts (c := sixteenConfig)
    (by decide) (by decide) (by decide) (by decide) (by decide)
    (copies_repeated threeEdges 2) hvalid
  obtain ⟨type, htest, -, -, huncertain⟩ := hverdicts 5 3
  have hedge : threeEdges.Edge 5 3 := Or.inr (by decide)
  rw [huncertain hedge (by decide)] at htest
  exact ⟨updated, htest, built, text, hwrite, hrun ∅ []⟩

/-- The same filter when nobody checks that a deleted pair is present. All updates end, and
    nothing is affirmed. A pair with a counter that no edge and no insertion names is denied,
    and a pair is not denied as long as each of its counters is named by the edges and the
    insertions more often than by the deletions. -/
theorem run_keeps {c : Config} {n : Nat} (hk : c.perEncodeBitSize < 2 ^ 31) (hn : n ≤ 60)
    (hnarrow : hashSize c ≤ 2 ^ 32) (hsize : c.vertexSize + 1 < 2 ^ 32)
    {file : EdgeFile c.vertexSize} {copies : Nat} {lists : List (List Nat)}
    (hlists : Copies file copies lists) (updates : List Update)
    (hroom : Multiset.card (copies • edges file + inserted updates) * n < 2 ^ 32) :
    ∃ built text updated, (∀ db, (vendClass c n).buildEncoding db lists = some built) ∧
      (vendClass c n).encodePersistent built = some text ∧
      (∀ db lists', ((vendClass c n).loadEncode db lists' (some text)).bind (fun loaded =>
        (vendClass c n).run loaded updates) = some updated) ∧
      ∀ u v, ∃ type, (vendClass c n).determine updated u v = some type ∧ type ≠ .neighbor ∧
        ((∃ i ∈ counters c n (ordered u v), ∀ pair ∈ copies • edges file + inserted updates,
          i ∉ counters c n pair) → type = .nonNeighbor) ∧
        ((∀ i ∈ counters c n (ordered u v),
          CountingFilter.incidences (counters c n) (deleted updates) i <
            CountingFilter.incidences (counters c n) (copies • edges file + inserted updates) i) →
          type = .uncertain) := by
  have hbuilt : copies * Multiset.card (edges file) * n < 2 ^ 32 := by
    refine Nat.lt_of_le_of_lt (Nat.mul_le_mul_right n ?_) hroom
    rw [Multiset.card_add, Multiset.card_nsmul]
    exact Nat.le_add_right _ _
  obtain ⟨built, text, hbuild, hwrite, hload, hinv⟩ := exists_loaded hk hn hsize hbuilt hlists
  obtain ⟨updated, hrun, hheld⟩ := (Held.of_inv hinv).run hk hn hnarrow updates hroom
  refine ⟨built, text, updated, hbuild, hwrite, fun db lists' => ?_, fun u v => ?_⟩
  · rw [hload db lists']
    exact hrun
  · rw [Multiset.zero_add] at hheld
    exact ⟨BFilterIntEncode.nePairTest c n updated u v, if_pos hn, hheld.nePairTest u v⟩

/-- Two deletions of pairs that are not there, on lists with every neighbour twice. -/
theorem run_keeps_absent :
    ∃ updated,
      (vendClass sixteenConfig 2).determine updated 5 3 = some .uncertain ∧
      ∃ built text, (vendClass sixteenConfig 2).encodePersistent built = some text ∧
        ((vendClass sixteenConfig 2).loadEncode ∅ [] (some text)).bind (fun loaded =>
          (vendClass sixteenConfig 2).run loaded
            [.delete 9 4, .insert 7 8, .delete 6 10]) = some updated := by
  obtain ⟨built, text, updated, -, hwrite, hrun, hverdicts⟩ := run_keeps (c := sixteenConfig)
    (n := 2) (by decide) (by decide) (by decide) (by decide) (copies_repeated threeEdges 2)
    [.delete 9 4, .insert 7 8, .delete 6 10] (by decide)
  obtain ⟨type, htest, -, -, huncertain⟩ := hverdicts 5 3
  rw [huncertain (by decide)] at htest
  exact ⟨updated, htest, built, text, hwrite, hrun ∅ []⟩

end BFilterIntVend

end Vend
