import Vend.Encode.BFilterEncode

/-! # Histories of the integer counting filter

    `BFilterIntEncode` under sequences of `EdgeSet`, `InsertPair` and `DeletePair`. Over
    the array of counters stands the multiset of the pairs that are present, and the array
    holds their incidences with the hash functions. So the decrement of `DeletePair`, which
    leaves a counter at zero alone, never meets one in a valid history, and the array
    depends on the pairs that are present only.

    Two things stand in the way. The parameters of the hash functions stand in two vectors of
    60 values, which the loops index up to `best_hash_nums_` without a check. And `DeletePair`
    keeps the value of `Hash`, a `uint64_t`, in a `uint32_t`: with more than `2 ^ 32` counters
    it takes from other counters than `EdgeSet` has added to.
-/

namespace Vend

namespace BFilterIntEncode

open BFilterEncode

open CBFilterEncode (Op ordered ordered_comm)

/-! ## Section 1: Model -/

/-- `InsertPair(vertex1, vertex2)`. -/
def insertPair (c : Config) (bestHashNums : Nat) (encode : List Nat) (vertex1 vertex2 : Nat) :
    List Nat :=
  edgeSet c bestHashNums encode vertex1 vertex2

/-- A loop that reads `hash_param1_[i]` for every hash function. Behind the end of the
    vector it has no defined result. -/
def defined (bestHashNums : Nat) (encode : List Nat) : Option (List Nat) :=
  if bestHashNums ≤ CBFilterEncode.hashParam1.length then some encode else none

/-- A call of a history. -/
def call (c : Config) (bestHashNums : Nat) (encode : List Nat) : Op → Option (List Nat)
  | .edgeSet u v => defined bestHashNums (edgeSet c bestHashNums encode u v)
  | .insertPair u v => defined bestHashNums (insertPair c bestHashNums encode u v)
  | .deletePair u v => defined bestHashNums (deletePair c bestHashNums encode u v)

/-! ## Section 2: Histories -/

/-- The counters of a pair, one for each hash function. -/
def counters (c : Config) (bestHashNums : Nat) (pair : Nat × Nat) : List Nat :=
  (List.range bestHashNums).map fun i => hash (hashSize c) pair.1 pair.2
    (CBFilterEncode.hashParam1.getD i 0) (CBFilterEncode.hashParam2.getD i 0)

/-- The number of incidences of counter `i` with the present pairs and the hash
    functions. -/
def incidences (c : Config) (bestHashNums : Nat) (present : Multiset (Nat × Nat)) (i : Nat) :
    Nat :=
  CountingFilter.incidences (counters c bestHashNums) present i

/-- The filter and the pairs that are present. -/
abbrev State : Type := List Nat × Multiset (Nat × Nat)

/-- A call of a valid history: the ids are of 32 bits, only present pairs are deleted, and
    fewer than `2 ^ 32 / INT_HASH_BEST_NUMS` pairs are present. -/
def Valid (bestHashNums : Nat) (present : Multiset (Nat × Nat)) :
    Op → Multiset (Nat × Nat) → Prop
  | .edgeSet u v, present' | .insertPair u v, present' =>
    (u < 2 ^ 32 ∧ v < 2 ^ 32) ∧ present' = ordered u v ::ₘ present ∧
      Multiset.card present' * bestHashNums < 2 ^ 32
  | .deletePair u v, present' =>
    (u < 2 ^ 32 ∧ v < 2 ^ 32) ∧ ordered u v ∈ present ∧ present' = present.erase (ordered u v)

/-- The counters of the pair have numbers of 32 bits. -/
def Narrow (c : Config) (bestHashNums : Nat) (pair : Nat × Nat) : Prop :=
  ∀ i ∈ counters c bestHashNums pair, i < 2 ^ 32

/-- A call that reads the parameters of its hash functions and, when it deletes, does not cut
    a counter off. -/
def Harmless (c : Config) (bestHashNums : Nat) : Op → Prop
  | .edgeSet _ _ | .insertPair _ _ => bestHashNums ≤ 60
  | .deletePair u v => bestHashNums ≤ 60 ∧ Narrow c bestHashNums (ordered u v)

def Step (c : Config) (bestHashNums : Nat) (s : State) (op : Op) (s' : State) : Prop :=
  Valid bestHashNums s.2 op s'.2 ∧ call c bestHashNums s.1 op = some s'.1

/-- The states that valid histories of such calls lead to from the zero state. -/
def Reached (c : Config) (bestHashNums : Nat) (allowed : Op → Prop) : State → Prop :=
  Run.Reachable (fun s => s = (fresh c, 0)) (Step c bestHashNums) fun _ op => allowed op

/-- After every valid history of such calls the next one returns, every counter holds its
    incidences, every present pair is answered with `Uncertain` in either orientation, and
    the counters are those of every other history with the same present pairs. -/
def CountsHistories (c : Config) (bestHashNums : Nat) (allowed : Op → Prop) : Prop :=
  ∀ s, Reached c bestHashNums allowed s →
    (∀ op present', allowed op → Valid bestHashNums s.2 op present' →
      (call c bestHashNums s.1 op).isSome = true) ∧
    (∀ i < hashSize c, s.1.getD i 0 = incidences c bestHashNums s.2 i) ∧
    (∀ u v, ordered u v ∈ s.2 → nePairTest c bestHashNums s.1 u v = .uncertain ∧
      nePairTest c bestHashNums s.1 v u = .uncertain) ∧
    ∀ s', Reached c bestHashNums allowed s' → s'.2 = s.2 → s'.1 = s.1

/-- What a history keeps. -/
structure Inv (c : Config) (n : Nat) (s : State) : Prop where
  length : s.1.length = hashSize c
  counter : ∀ i, s.1.getD i 0 = incidences c n s.2 i

/-! ## Section 3: The loops -/

section

variable {c : Config} {n : Nat}

theorem hashVals_eq (u v : Nat) : hashVals (hashSize c) n u v = counters c n (ordered u v) := rfl

theorem inv_fresh : Inv c n (fresh c, 0) := by
  refine ⟨List.length_replicate, fun i => ?_⟩
  rw [List.getD_eq_getElem?_getD, fresh, List.getElem?_replicate]
  split <;> rfl

variable (hk : c.perEncodeBitSize < 2 ^ 31)
include hk

theorem hashSize_eq : hashSize c = c.vertexSize * c.kSize := by
  have hv := c.vertexSize_lt
  have hk' : c.kSize < 2 ^ 26 := by
    unfold Config.perEncodeBitSize at hk
    omega
  have hmul : c.vertexSize * c.kSize < 2 ^ 32 * 2 ^ 26 := Nat.mul_lt_mul'' hv hk'
  exact Nat.mod_eq_of_lt (by omega)

theorem hashSize_pos : 0 < hashSize c := by
  rw [hashSize_eq hk]
  exact Nat.mul_pos (Nat.pos_of_ne_zero c.vertexSize_ne) (Nat.pos_of_ne_zero c.kSize_ne)

theorem counters_lt {pair : Nat × Nat} {i : Nat} (hi : i ∈ counters c n pair) :
    i < hashSize c := by
  obtain ⟨k, -, rfl⟩ := List.mem_map.mp hi
  exact Nat.mod_lt _ (hashSize_pos hk)

theorem narrow_of_hashSize_le (hnarrow : hashSize c ≤ 2 ^ 32) (pair : Nat × Nat) :
    Narrow c n pair :=
  fun _ hi => Nat.lt_of_lt_of_le (counters_lt hk hi) hnarrow

/-- Adding a pair. The counters have room, since few pairs are present. -/
theorem Inv.edgeSet {s : State} (h : Inv c n s) {u v : Nat}
    (hroom : Multiset.card (ordered u v ::ₘ s.2) * n < 2 ^ 32) :
    Inv c n (edgeSet c n s.1 u v, ordered u v ::ₘ s.2) := by
  have hidxs : ∀ i ∈ counters c n (ordered u v), i < s.1.length := by
    intro i hi
    rw [h.length]
    exact counters_lt hk hi
  obtain ⟨hlen, hget⟩ := CountingFilter.foldl_change (fun count => (count + 1) % 2 ^ 32) s.1 hidxs
  rw [BFilterIntEncode.edgeSet, hashVals_eq]
  refine ⟨hlen.trans h.length, fun i => ?_⟩
  have hle : incidences c n (ordered u v ::ₘ s.2) i ≤ _ := CountingFilter.incidences_le
    (counters c n) (n := n) (fun pair => by simp [counters]) (ordered u v ::ₘ s.2) i
  have hcons : incidences c n (ordered u v ::ₘ s.2) i = _ :=
    CountingFilter.incidences_cons (counters c n) (ordered u v) s.2 i
  have hcount : s.1.getD i 0 = CountingFilter.incidences (counters c n) s.2 i := h.counter i
  show List.getD _ i 0 = incidences c n (ordered u v ::ₘ s.2) i
  rw [hget i, BitSetSIMD.iterate_succ_mod (by omega)]
  omega

omit hk in
/-- Counters of 32 bits are not cut off. -/
theorem deletePair_eq (encode : List Nat) {u v : Nat} (hnarrow : Narrow c n (ordered u v)) :
    deletePair c n encode u v = (counters c n (ordered u v)).foldl (fun encode i =>
      if 0 < encode.getD i 0 then encode.set i (encode.getD i 0 - 1) else encode) encode := by
  rw [deletePair, hashVals_eq]
  apply List.foldl_ext
  intro encode i hi
  simp only [Nat.mod_eq_of_lt (hnarrow i hi)]

/-- Deleting a present pair. No counter of the pair is at zero when it is met. -/
theorem Inv.deletePair {s : State} (h : Inv c n s) {u v : Nat}
    (hnarrow : Narrow c n (ordered u v)) (hmem : ordered u v ∈ s.2) :
    Inv c n (deletePair c n s.1 u v, s.2.erase (ordered u v)) := by
  have hidxs : ∀ i ∈ counters c n (ordered u v), i < s.1.length := by
    intro i hi
    rw [h.length]
    exact counters_lt hk hi
  obtain ⟨hlen, hget⟩ := CountingFilter.foldl_change (· - 1) s.1 hidxs
  rw [deletePair_eq s.1 hnarrow, CountingFilter.foldl_saturating s.1 hidxs]
  refine ⟨hlen.trans h.length, fun i => ?_⟩
  have hsum := CountingFilter.incidences_erase (counters c n) hmem i
  have hcount : s.1.getD i 0 = CountingFilter.incidences (counters c n) s.2 i := h.counter i
  show List.getD _ i 0 = CountingFilter.incidences (counters c n) (s.2.erase (ordered u v)) i
  rw [hget i, CountingFilter.iterate_pred]
  omega

omit hk in
theorem eq_of_defined {xs ys : List Nat} (h : defined n xs = some ys) : xs = ys := by
  unfold defined at h
  split at h
  · exact Option.some.inj h
  · cases h

theorem Inv.step {s s' : State} {op : Op} (h : Inv c n s) (hharmless : Harmless c n op)
    (hstep : Step c n s op s') : Inv c n s' := by
  obtain ⟨encode, present⟩ := s'
  obtain ⟨hvalid, hcall⟩ := hstep
  cases op with
  | edgeSet u v =>
    obtain ⟨-, rfl, hroom⟩ := hvalid
    obtain rfl := eq_of_defined hcall
    exact h.edgeSet hk hroom
  | insertPair u v =>
    obtain ⟨-, rfl, hroom⟩ := hvalid
    obtain rfl := eq_of_defined hcall
    exact h.edgeSet hk hroom
  | deletePair u v =>
    obtain ⟨-, hmem, rfl⟩ := hvalid
    obtain rfl := eq_of_defined hcall
    exact h.deletePair hk hharmless.2 hmem

theorem inv_of_reached {allowed : Op → Prop}
    (hallowed : ∀ op present present', allowed op → Valid n present op present' → Harmless c n op)
    {s : State} (h : Reached c n allowed s) : Inv c n s :=
  h.invariant (fun _ hs => hs ▸ inv_fresh) fun _ _ _ hs hop hstep =>
    hs.step hk (hallowed _ _ _ hop hstep.1) hstep

omit hk in
/-- A present pair has no counter at zero. -/
theorem Inv.nePairTest {s : State} (h : Inv c n s) {u v : Nat} (hmem : ordered u v ∈ s.2) :
    nePairTest c n s.1 u v = .uncertain := by
  have hnone : ¬ (counters c n (ordered u v)).any (fun i => s.1.getD i 0 = 0) = true := by
    rw [List.any_eq_true]
    rintro ⟨i, hi, hzero⟩
    have hle := CountingFilter.count_le_incidences (counters c n) hmem i
    have hpos : 0 < (counters c n (ordered u v)).count i := List.count_pos_iff.mpr hi
    have hcount : s.1.getD i 0 = CountingFilter.incidences (counters c n) s.2 i := h.counter i
    rw [decide_eq_true_eq] at hzero
    omega
  rw [BFilterIntEncode.nePairTest, hashVals_eq, if_neg hnone]

/-! ## Section 4: When the filter counts -/

/-- The filter counts over the histories of harmless calls. -/
theorem countsHistories_of_harmless {allowed : Op → Prop}
    (hallowed : ∀ op present present', allowed op → Valid n present op present' →
      Harmless c n op) : CountsHistories c n allowed := by
  intro s hs
  have hinv := inv_of_reached hk hallowed hs
  refine ⟨fun op present' hop hvalid => ?_, fun i _ => hinv.counter i, fun u v hmem => ?_, ?_⟩
  · have hfew : n ≤ CBFilterEncode.hashParam1.length := by
      have hharmless := hallowed op _ _ hop hvalid
      cases op with
      | edgeSet u v => exact hharmless
      | insertPair u v => exact hharmless
      | deletePair u v => exact hharmless.1
    cases op <;> simp [call, defined, hfew]
  · exact ⟨hinv.nePairTest hmem, hinv.nePairTest (by rwa [ordered_comm])⟩
  · intro s' hs' hsame
    have hinv' := inv_of_reached hk hallowed hs'
    apply List.ext_getElem (hinv'.length.trans hinv.length.symm)
    intro i hi hi'
    rw [← List.getD_eq_getElem _ 0 hi, ← List.getD_eq_getElem _ 0 hi', hinv'.counter,
      hinv.counter, hsame]

omit hk in
/-- A deletion leaves the counters from `2 ^ 32` on alone. -/
theorem getD_deletePair_of_ge (encode : List Nat) (u v : Nat) {i : Nat} (hi : 2 ^ 32 ≤ i) :
    (deletePair c n encode u v).getD i 0 = encode.getD i 0 := by
  rw [deletePair]
  generalize hashVals (hashSize c) n u v = hashes
  induction hashes generalizing encode with
  | nil => rfl
  | cons hash hashes ih =>
    rw [List.foldl_cons, ih]
    have hne : hash % 2 ^ 32 ≠ i := by
      have hlt := Nat.mod_lt hash (show 0 < 2 ^ 32 by decide)
      omega
    dsimp only
    split
    · rw [List.getD_eq_getElem?_getD, List.getElem?_set_ne hne, ← List.getD_eq_getElem?_getD]
    · rfl

/-- A pair with a counter from `2 ^ 32` on is inserted and deleted again, and the counter
    stays. -/
theorem not_counts_of_wide (hfew : n ≤ 60) {u v : Nat} (hu : u < 2 ^ 32) (hv : v < 2 ^ 32)
    {i : Nat} (hi : i ∈ counters c n (ordered u v)) (hwide : 2 ^ 32 ≤ i) :
    ¬ CountsHistories c n fun _ => True := by
  intro hcounts
  have hdefined : ∀ xs, defined n xs = some xs := fun xs => if_pos hfew
  have hroom : Multiset.card (ordered u v ::ₘ (0 : Multiset (Nat × Nat))) * n < 2 ^ 32 := by
    rw [Multiset.card_cons, Multiset.card_zero]
    omega
  have hinserted : Reached c n (fun _ => True)
      (edgeSet c n (fresh c) u v, ordered u v ::ₘ (0 : Multiset (Nat × Nat))) :=
    .next (i := .insertPair u v) (.start rfl) trivial ⟨⟨⟨hu, hv⟩, rfl, hroom⟩, hdefined _⟩
  have hdeleted : Reached c n (fun _ => True)
      (deletePair c n (edgeSet c n (fresh c) u v) u v, (0 : Multiset (Nat × Nat))) := by
    have hmem : ordered u v ∈ ordered u v ::ₘ (0 : Multiset (Nat × Nat)) :=
      Multiset.mem_cons_self _ _
    have herase : (0 : Multiset (Nat × Nat)) = (ordered u v ::ₘ 0).erase (ordered u v) :=
      (Multiset.erase_cons_head _ _).symm
    exact .next (i := .deletePair u v) hinserted trivial
      ⟨⟨⟨hu, hv⟩, hmem, herase⟩, hdefined _⟩
  have hlt := counters_lt hk hi
  have hone := (hcounts _ hinserted).2.1 i hlt
  have hnone := (hcounts _ hdeleted).2.1 i hlt
  have hsame := getD_deletePair_of_ge (c := c) (n := n) (edgeSet c n (fresh c) u v) u v hwide
  have hpos := CountingFilter.count_le_incidences (counters c n)
    (Multiset.mem_cons_self (ordered u v) 0) i
  have hcount : 0 < (counters c n (ordered u v)).count i := List.count_pos_iff.mpr hi
  have hzero : incidences c n 0 i = 0 := rfl
  have hval : incidences c n (ordered u v ::ₘ (0 : Multiset (Nat × Nat))) i = 0 :=
    hone.symm.trans (hsame.symm.trans (hnone.trans hzero))
  unfold incidences at hval
  omega

/-- The filter counts over all valid histories whose calls are harmless, and over all valid
    histories exactly when every call is: when the parameter vectors have a value for every
    hash function and no pair has a counter from `2 ^ 32` on. With `2 ^ 32` counters or fewer
    there is none. -/
theorem countsHistories_iff (hn : n < 2 ^ 32) :
    CountsHistories c n (Harmless c n) ∧
    (CountsHistories c n (fun _ => True) ↔
      n ≤ 60 ∧ ∀ u v, u < 2 ^ 32 → v < 2 ^ 32 → Narrow c n (ordered u v)) ∧
    (hashSize c ≤ 2 ^ 32 → ∀ pair, Narrow c n pair) := by
  refine ⟨countsHistories_of_harmless hk fun _ _ _ hop _ => hop, ⟨fun hcounts => ?_, fun h => ?_⟩,
    fun hnarrow => narrow_of_hashSize_le hk hnarrow⟩
  · have hfew : n ≤ 60 := by
      have hvalid : Valid n 0 (.insertPair 1 2) {(1, 2)} :=
        ⟨by decide, rfl, by simpa using hn⟩
      have hcall := (hcounts (fresh c, 0) (.start rfl)).1 _ _ trivial hvalid
      by_contra hmany
      rw [call, defined, if_neg (show ¬ n ≤ CBFilterEncode.hashParam1.length from hmany)] at hcall
      cases hcall
    refine ⟨hfew, fun u v hu hv i hi => ?_⟩
    by_contra hwide
    exact not_counts_of_wide hk hfew hu hv hi (Nat.not_lt.mp hwide) hcounts
  · obtain ⟨hfew, hnarrow⟩ := h
    apply countsHistories_of_harmless hk
    intro op present present' _ hvalid
    cases op with
    | edgeSet u v => exact hfew
    | insertPair u v => exact hfew
    | deletePair u v => exact ⟨hfew, hnarrow u v hvalid.1.1 hvalid.1.2⟩

end

/-- Eleven vertices and a word for each. -/
def elevenCounters : Config := Config.ofSizes 1 11 1 (by decide)

/-- Two pairs that are inserted twice and deleted once, with the ids in either order. -/
def sixCalls : List Op :=
  [.insertPair 3 5, .edgeSet 9 4, .insertPair 5 3, .deletePair 4 9, .insertPair 4 9,
    .deletePair 3 5]

theorem countsHistories_iff_six : ∃ encode,
    sixCalls.foldlM (call elevenCounters 2) (fresh elevenCounters) = some encode ∧
    (∀ i < 11, encode.getD i 0 = incidences elevenCounters 2 {(3, 5), (4, 9)} i) ∧
    nePairTest elevenCounters 2 encode 9 4 = .uncertain ∧
    nePairTest elevenCounters 2 encode 3 5 = .uncertain := by
  have hfits := @countsHistories_iff elevenCounters 2 (by decide) (by decide)
  have hcounts : CountsHistories elevenCounters 2 fun _ => True :=
    hfits.2.1.mpr ⟨by decide, fun u v _ _ => hfits.2.2 (by decide) (ordered u v)⟩
  have hstep : ∀ {s : State} (s' : State) (op : Op), Reached elevenCounters 2 (fun _ => True) s →
      Valid 2 s.2 op s'.2 → call elevenCounters 2 s.1 op = some s'.1 →
      Reached elevenCounters 2 (fun _ => True) s' :=
    fun _ _ h hvalid hcall => .next h trivial ⟨hvalid, hcall⟩
  have h₁ := hstep ([0, 0, 0, 1, 0, 0, 0, 1, 0, 0, 0], {(3, 5)}) (.insertPair 3 5) (.start rfl)
    ⟨by decide, by decide, by decide⟩ (by decide)
  have h₂ := hstep ([0, 0, 0, 1, 0, 1, 0, 1, 0, 0, 1], {(4, 9), (3, 5)}) (.edgeSet 9 4) h₁
    ⟨by decide, by decide, by decide⟩ (by decide)
  have h₃ := hstep ([0, 0, 0, 2, 0, 1, 0, 2, 0, 0, 1], {(3, 5), (4, 9), (3, 5)})
    (.insertPair 5 3) h₂ ⟨by decide, by decide, by decide⟩ (by decide)
  have h₄ := hstep ([0, 0, 0, 2, 0, 0, 0, 2, 0, 0, 0], {(3, 5), (3, 5)}) (.deletePair 4 9) h₃
    ⟨by decide, by decide, by decide⟩ (by decide)
  have h₅ := hstep ([0, 0, 0, 2, 0, 1, 0, 2, 0, 0, 1], {(4, 9), (3, 5), (3, 5)})
    (.insertPair 4 9) h₄ ⟨by decide, by decide, by decide⟩ (by decide)
  have h₆ := hstep ([0, 0, 0, 1, 0, 1, 0, 1, 0, 0, 1], {(3, 5), (4, 9)}) (.deletePair 3 5) h₅
    ⟨by decide, by decide, by decide⟩ (by decide)
  obtain ⟨-, hcounters, hverdicts, -⟩ := hcounts _ h₆
  exact ⟨_, by decide, hcounters, (hverdicts 9 4 (by decide)).1, (hverdicts 3 5 (by decide)).1⟩

/-- The sizes of the largest graph that the configuration names: five words for each vertex
    are more than `2 ^ 32` counters. -/
def largestConfig : Config := Config.ofSizes 5 988490691 52 (by decide)

/-- The pair 1, 3342 has counter 4295363705. The insertion adds to it, and the deletion looks
    at counter 396409. -/
theorem deletion_misses_counter :
    hashVals (hashSize largestConfig) 1 1 3342 = [4295363705] ∧
    4295363705 % 2 ^ 32 = 396409 ∧
    (∀ encode, (deletePair largestConfig 1 encode 1 3342).getD 4295363705 0 =
      encode.getD 4295363705 0) ∧
    ¬ CountsHistories largestConfig 1 (fun _ => True) := by
  have hcounter : 4295363705 ∈ counters largestConfig 1 (ordered 1 3342) := by decide
  refine ⟨by decide, by decide, ?_, ?_⟩
  · exact fun encode => getD_deletePair_of_ge encode 1 3342 (by decide)
  · exact not_counts_of_wide (by decide) (by decide) (by decide) (by decide) hcounter (by decide)

end BFilterIntEncode

end Vend
