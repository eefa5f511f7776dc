import Vend.Lib.CountingFilter
import Vend.Lib.Run
import Vend.Util.BitSetSIMD

/-! # Counting bloom filter

    `CBFilterEncode`: one bitset for the whole graph, cut into counters of
    `ELEMENT_SIZE` bits. Setting an edge increments the counters that the hash
    functions name, deleting a pair decrements them.

    Over the counters stands the abstract filter, a multiset of pairs: a counter
    is to hold the number of incidences of its index with the present pairs.
    `edgeSet` and `deletePair` refine adding to and erasing from the multiset as
    long as no counter is touched whose first byte has an index of 256 or more;
    `BlockSet` keeps that index in a `uint8_t`.
-/

namespace Vend

namespace CBFilterEncode

open BitField BitSetSIMD

/-! ## Section 1: Model -/

/-- `HASH_PARAM1`. -/
def hashParam1 : List Nat :=
  [9191891, 1635947, 6893911, 2908361, 3877817, 5170427,
   2703929, 9961873, 8702593, 6795587, 3838903, 1609511,
   3838903, 3712831, 1609511, 2717593, 1434539, 7085971,
   2339639, 1316767, 2734321, 3274367, 3911749, 1300769,
   9871111, 1141061, 5974999, 2021081, 1123597, 9063707,
   5727739, 5218243, 2209747, 7445869, 7982327, 3739793,
   1803349, 9859697, 4833379, 7049219, 7919623, 7731103,
   4184641, 2627057, 3807691, 3044791, 7665613, 5529673,
   7904591, 9065003, 9416543, 9616279, 8034209, 8383213,
   2609339, 7587001, 2895359, 7402631, 1797161, 7542971]

/-- `HASH_PARAM2`. -/
def hashParam2 : List Nat :=
  [1282517, 6659501, 7581941, 4050433, 7283071, 5793467,
   9692027, 4554733, 3448817, 9099731, 2797793, 9255167,
   4282727, 8699567, 9842081, 6976267, 7877509, 2042107,
   4404161, 4295609, 3455113, 2989673, 9410483, 7036109,
   9559609, 5945413, 4152943, 8736919, 8832641, 3201251,
   7251823, 3375391, 8783759, 1203077, 6746209, 8190113,
   3458687, 9673919, 2210567, 2698727, 5789227, 9444763,
   2628107, 4365827, 6898621, 4875253, 9633563, 4943333,
   4214123, 6162077, 6528673, 3763867, 6954799, 3726403,
   4801627, 1597961, 4228381, 9210757, 5584463, 8847067]

/-- `hash_size_`, the `uint64_t` product `VERTEX_SIZE * K_SIZE * 32`. -/
def hashSize (c : Config) : Nat := c.vertexSize * c.kSize * 32 % 2 ^ 64

/-- `element_nums_`. -/
def elementNums (c : Config) : Nat := hashSize c / c.elementSize

/-- The counter that a hash function names. -/
def counterIndex (c : Config) (key1 key2 hashParam1 hashParam2 : Nat) : Nat :=
  (key1 * hashParam1 + key2 * hashParam2) % 2 ^ 64 % elementNums c

/-- `Hash(key1, key2, hash_param1, hash_param2)`: the first bit of the counter. -/
def hash (c : Config) (key1 key2 hashParam1 hashParam2 : Nat) : Nat :=
  counterIndex c key1 key2 hashParam1 hashParam2 * c.elementSize % 2 ^ 64

/-- The values of `Hash` in the loop over `best_hash_nums_`. -/
def hashVals (c : Config) (bestHashNums : Nat) (pair : Nat × Nat) : List Nat :=
  (List.range bestHashNums).map fun i =>
    hash c pair.1 pair.2 (hashParam1.getD i 0) (hashParam2.getD i 0)

/-- `if (vertex1 > vertex2) std::swap(vertex1, vertex2)`. -/
def ordered (vertex1 vertex2 : Nat) : Nat × Nat :=
  if vertex2 < vertex1 then (vertex2, vertex1) else (vertex1, vertex2)

theorem ordered_comm (u v : Nat) : ordered u v = ordered v u := by
  unfold ordered
  -- two equal vertices are left, which are in order both ways
  split_ifs <;> first | rfl | omega | skip
  rw [show u = v by omega]

/-- The cleared filter. -/
def fresh (c : Config) : BitSetSIMD := ofBitSize (hashSize c)

/-- `NEpairTest(vertex1, vertex2)`. `best_hash_nums_` is `COUNT_HASH_BEST_NUMS`, a
    floating-point quotient cut to an integer; here it is a parameter. -/
def nePairTest (c : Config) (bestHashNums : Nat) (encode : BitSetSIMD) (vertex1 vertex2 : Nat) :
    PairType :=
  if (hashVals c bestHashNums (ordered vertex1 vertex2)).any
      fun hashVal => encode.blockGet hashVal c.elementSize = 0 then .nonNeighbor
  else .uncertain

/-- One round of the loops of `EdgeSet` and `DeletePair`: read a counter, write it
    back changed. -/
def recount (c : Config) (change : Nat → Nat) (encode : BitSetSIMD) (hashVal : Nat) :
    BitSetSIMD :=
  encode.blockSet hashVal c.elementSize (change (encode.blockGet hashVal c.elementSize))

/-- `count + 1`. -/
def increment (count : Nat) : Nat := (count + 1) % 2 ^ 32

/-- `count - 1`. -/
def decrement (count : Nat) : Nat := sub32 count 1

/-- `EdgeSet(vertex1, vertex2)`. -/
def edgeSet (c : Config) (bestHashNums : Nat) (encode : BitSetSIMD) (vertex1 vertex2 : Nat) :
    BitSetSIMD :=
  (hashVals c bestHashNums (ordered vertex1 vertex2)).foldl (recount c increment) encode

/-- `InsertPair(vertex1, vertex2)`. -/
def insertPair (c : Config) (bestHashNums : Nat) (encode : BitSetSIMD) (vertex1 vertex2 : Nat) :
    BitSetSIMD :=
  edgeSet c bestHashNums encode vertex1 vertex2

/-- `DeletePair(vertex1, vertex2)`. -/
def deletePair (c : Config) (bestHashNums : Nat) (encode : BitSetSIMD) (vertex1 vertex2 : Nat) :
    BitSetSIMD :=
  (hashVals c bestHashNums (ordered vertex1 vertex2)).foldl (recount c decrement) encode

/-! ## Section 2: The abstract filter -/

/-- The counters of a pair, one for each hash function. -/
def counters (c : Config) (bestHashNums : Nat) (pair : Nat × Nat) : List Nat :=
  (List.range bestHashNums).map fun i =>
    counterIndex c pair.1 pair.2 (hashParam1.getD i 0) (hashParam2.getD i 0)

/-- The number of incidences of counter `i` with the present pairs and the hash
    functions. -/
def incidences (c : Config) (bestHashNums : Nat) (present : Multiset (Nat × Nat)) (i : Nat) :
    Nat :=
  (present.map fun pair => (counters c bestHashNums pair).count i).sum

/-- Counter `i` of the filter. -/
def counter (c : Config) (encode : BitSetSIMD) (i : Nat) : Nat :=
  cell encode.bit c.elementSize i

/-- The calls of a history. -/
inductive Op where
  | edgeSet (vertex1 vertex2 : Nat)
  | insertPair (vertex1 vertex2 : Nat)
  | deletePair (vertex1 vertex2 : Nat)

/-- The filter and the pairs that are present. -/
abbrev State : Type := BitSetSIMD × Multiset (Nat × Nat)

/-- No counter needs more than `ELEMENT_SIZE` bits. -/
def Representable (c : Config) (bestHashNums : Nat) (present : Multiset (Nat × Nat)) : Prop :=
  ∀ i, incidences c bestHashNums present i < 2 ^ c.elementSize

/-- A call of a valid history: the counters have room, and only present pairs are
    deleted. -/
def Step (c : Config) (bestHashNums : Nat) (s : State) : Op → State → Prop
  | .edgeSet u v, s' =>
    s' = (edgeSet c bestHashNums s.1 u v, ordered u v ::ₘ s.2) ∧
      Representable c bestHashNums s'.2
  | .insertPair u v, s' =>
    s' = (insertPair c bestHashNums s.1 u v, ordered u v ::ₘ s.2) ∧
      Representable c bestHashNums s'.2
  | .deletePair u v, s' =>
    ordered u v ∈ s.2 ∧ s' = (deletePair c bestHashNums s.1 u v, s.2.erase (ordered u v))

/-- Every present pair is answered with `Uncertain`, in either orientation, and every
    counter holds its incidences. -/
def Counts (c : Config) (bestHashNums : Nat) (s : State) : Prop :=
  (∀ u v, ordered u v ∈ s.2 → nePairTest c bestHashNums s.1 u v = .uncertain) ∧
  ∀ i < elementNums c, counter c s.1 i = incidences c bestHashNums s.2 i

/-- The pair of a call. -/
def Op.pair : Op → Nat × Nat
  | .edgeSet u v | .insertPair u v | .deletePair u v => ordered u v

/-- The byte index of every counter of the call fits the `uint8_t` of `BlockSet`. -/
def Addressable (c : Config) (bestHashNums : Nat) (_ : State) (op : Op) : Prop :=
  ∀ hashVal ∈ hashVals c bestHashNums op.pair, hashVal / 8 < 256

/-- The filters whose layout the source can address: counters of 1 to 32 bits, a
    parameter for every hash function and a size that `uint64_t` holds. -/
structure Layout (c : Config) (bestHashNums : Nat) : Prop where
  elementSize_pos : 1 ≤ c.elementSize
  elementSize_le : c.elementSize ≤ 32
  bestHashNums_le : bestHashNums ≤ hashParam1.length
  hashSize_lt : c.vertexSize * c.kSize * 32 < 2 ^ 64

/-! ## Section 3: One counter -/

section

variable {c : Config} {n : Nat} (hl : Layout c n)
include hl

theorem hashSize_eq : hashSize c = c.vertexSize * c.kSize * 32 :=
  Nat.mod_eq_of_lt hl.hashSize_lt

theorem elementNums_pos : 0 < elementNums c := by
  have hprod : 1 ≤ c.vertexSize * c.kSize :=
    Nat.mul_pos (Nat.pos_of_ne_zero c.vertexSize_ne) (Nat.pos_of_ne_zero c.kSize_ne)
  have hle := hl.elementSize_le
  unfold elementNums
  rw [hashSize_eq hl]
  exact Nat.div_pos (by omega) hl.elementSize_pos

omit hl in
/-- A counter lies inside the bitset. -/
theorem counter_le {i : Nat} (hi : i < elementNums c) :
    i * c.elementSize + c.elementSize ≤ hashSize c := by
  have hmul := Nat.mul_le_mul_right c.elementSize hi
  -- the quotient is cut, so the last counter may end before the bitset
  have hdiv : elementNums c * c.elementSize ≤ hashSize c := Nat.div_mul_le_self _ _
  rw [Nat.succ_mul] at hmul
  omega

theorem bitLength_fresh : (fresh c).bitLength = hashSize c := by
  -- 32 bits for every word: there is no part of a byte
  have hmod : hashSize c % 8 = 0 := by
    rw [hashSize_eq hl]
    omega
  rw [fresh, bitLength, length_ofBitSize]
  omega

/-- The hash values are the first bits of the counters. -/
theorem hashVals_eq (pair : Nat × Nat) :
    hashVals c n pair = (counters c n pair).map (· * c.elementSize) := by
  have hlt := hl.hashSize_lt
  rw [hashVals, counters, List.map_map]
  apply List.map_congr_left
  intro i _
  have hmem : counterIndex c pair.1 pair.2 (hashParam1.getD i 0) (hashParam2.getD i 0) <
      elementNums c := Nat.mod_lt _ (elementNums_pos hl)
  have hle := counter_le hmem
  rw [hashSize_eq hl] at hle
  exact Nat.mod_eq_of_lt (by omega)

theorem counters_lt {pair : Nat × Nat} {i : Nat} (hi : i ∈ counters c n pair) :
    i < elementNums c := by
  obtain ⟨k, -, rfl⟩ := List.mem_map.mp hi
  exact Nat.mod_lt _ (elementNums_pos hl)

theorem blockGet_counter (encode : BitSetSIMD) (i : Nat) :
    encode.blockGet (i * c.elementSize) c.elementSize = counter c encode i :=
  blockGet_eq _ hl.elementSize_pos hl.elementSize_le

/-! ## Section 4: The loops over the hash functions -/

/-- The loop changes every counter as often as it is named. -/
theorem counter_foldl_recount (change : Nat → Nat) (encode : BitSetSIMD) {idxs : List Nat}
    (hidxs : ∀ i ∈ idxs, i < elementNums c ∧ i * c.elementSize / 8 < 256)
    (hlen : encode.bitLength = hashSize c)
    (hroom : ∀ j, ∀ k ≤ idxs.count j, change^[k] (counter c encode j) < 2 ^ c.elementSize) :
    ((idxs.map (· * c.elementSize)).foldl (recount c change) encode).bitLength = hashSize c ∧
    ∀ j, counter c ((idxs.map (· * c.elementSize)).foldl (recount c change) encode) j =
      change^[idxs.count j] (counter c encode j) := by
  have hidxs' : ∀ i ∈ idxs, i * c.elementSize + c.elementSize ≤ encode.bitLength ∧
      i * c.elementSize / 8 < 256 := by
    intro i hi
    obtain ⟨hlt, hbyte⟩ := hidxs i hi
    rw [hlen]
    exact ⟨counter_le hlt, hbyte⟩
  rw [List.foldl_map]
  obtain ⟨hlen', hcells, -⟩ := cell_foldl_change hl.elementSize_pos hl.elementSize_le change encode
    hidxs' hroom rfl
  exact ⟨hlen'.trans hlen, hcells⟩

omit hl in
theorem iterate_increment {k x : Nat} (h : x + k < 2 ^ 32) : increment^[k] x = x + k :=
  iterate_succ_mod h

omit hl in
theorem iterate_decrement {k x : Nat} (h : k ≤ x) (hx : x < 2 ^ 32) :
    decrement^[k] x = x - k := by
  induction k with
  | zero => rfl
  | succ k ih =>
    -- every step finds a counter that is not zero
    rw [Function.iterate_succ_apply', ih (by omega), decrement, sub32_of_le (by omega) (by omega)]
    omega

/-! ## Section 5: Histories -/

/-- What a history keeps: the size of the filter and the value of every counter. -/
structure Inv (c : Config) (n : Nat) (s : State) : Prop where
  length : s.1.bitLength = hashSize c
  counter : ∀ i, counter c s.1 i = incidences c n s.2 i

omit hl in
theorem incidences_cons (pair : Nat × Nat) (present : Multiset (Nat × Nat)) (i : Nat) :
    incidences c n (pair ::ₘ present) i =
      (counters c n pair).count i + incidences c n present i :=
  CountingFilter.incidences_cons (counters c n) pair present i

omit hl in
theorem incidences_erase {pair : Nat × Nat} {present : Multiset (Nat × Nat)}
    (hmem : pair ∈ present) (i : Nat) :
    incidences c n (present.erase pair) i + (counters c n pair).count i =
      incidences c n present i :=
  CountingFilter.incidences_erase (counters c n) hmem i

omit hl in
/-- Few pairs need no large counter. -/
theorem representable_of_card {present : Multiset (Nat × Nat)}
    (h : Multiset.card present * n < 2 ^ c.elementSize) : Representable c n present := by
  intro i
  have hle : incidences c n present i ≤ Multiset.card present * n :=
    CountingFilter.incidences_le (counters c n) (fun pair => by simp [counters]) present i
  omega

theorem inv_fresh : Inv c n (fresh c, 0) := by
  refine ⟨bitLength_fresh hl, fun i => ?_⟩
  have hzero : counter c (fresh c) i = 0 := field_eq_zero fun p _ _ => bit_ofBitSize _ p
  simp [hzero, incidences]

/-- The counters of an addressable call. -/
theorem addressable_counters {s : State} {op : Op} (h : Addressable c n s op) :
    ∀ i ∈ counters c n op.pair, i < elementNums c ∧ i * c.elementSize / 8 < 256 := by
  intro i hi
  refine ⟨counters_lt hl hi, h _ ?_⟩
  rw [hashVals_eq hl]
  exact List.mem_map_of_mem hi

theorem Inv.edgeSet {s : State} (h : Inv c n s) {u v : Nat}
    (hcounters : ∀ i ∈ counters c n (ordered u v), i < elementNums c ∧ i * c.elementSize / 8 < 256)
    (hroom : Representable c n (ordered u v ::ₘ s.2)) :
    Inv c n (edgeSet c n s.1 u v, ordered u v ::ₘ s.2) := by
  have hpow : 2 ^ c.elementSize ≤ 2 ^ 32 := Nat.pow_le_pow_right (by omega) hl.elementSize_le
  -- on the way to its new value no counter passes `ELEMENT_SIZE` bits
  have hadd : ∀ j, ∀ k ≤ (counters c n (ordered u v)).count j,
      CBFilterEncode.counter c s.1 j + k < 2 ^ c.elementSize := by
    intro j k hk
    have hlt := hroom j
    rw [incidences_cons] at hlt
    rw [h.counter j]
    omega
  obtain ⟨hlen, hcount⟩ := counter_foldl_recount hl increment s.1 hcounters h.length (by
    intro j k hk
    have := hadd j k hk
    rw [iterate_increment (by omega)]
    exact this)
  rw [CBFilterEncode.edgeSet, hashVals_eq hl]
  refine ⟨hlen, fun j => ?_⟩
  have := hadd j _ (Nat.le_refl _)
  rw [hcount j, iterate_increment (by omega), h.counter j, incidences_cons]
  omega

theorem Inv.deletePair {s : State} (h : Inv c n s) {u v : Nat}
    (hcounters : ∀ i ∈ counters c n (ordered u v), i < elementNums c ∧ i * c.elementSize / 8 < 256)
    (hmem : ordered u v ∈ s.2) :
    Inv c n (deletePair c n s.1 u v, s.2.erase (ordered u v)) := by
  have hpow : 2 ^ c.elementSize ≤ 2 ^ 32 := Nat.pow_le_pow_right (by omega) hl.elementSize_le
  -- the pair is present, so its counters hold it
  have hle : ∀ j, (counters c n (ordered u v)).count j ≤ CBFilterEncode.counter c s.1 j := by
    intro j
    rw [h.counter j, ← incidences_erase hmem j]
    omega
  have hlt : ∀ j, CBFilterEncode.counter c s.1 j < 2 ^ c.elementSize := fun j => field_lt _ _ _
  obtain ⟨hlen, hcount⟩ := counter_foldl_recount hl decrement s.1 hcounters h.length (by
    intro j k hk
    have h₁ := hle j
    have h₂ := hlt j
    rw [iterate_decrement (by omega) (by omega)]
    omega)
  rw [CBFilterEncode.deletePair, hashVals_eq hl]
  refine ⟨hlen, fun j => ?_⟩
  have h₁ := hlt j
  have h₂ := incidences_erase hmem (c := c) (n := n) j
  show CBFilterEncode.counter c _ j = incidences c n (s.2.erase (ordered u v)) j
  rw [hcount j, iterate_decrement (hle j) (by omega), h.counter j]
  omega

theorem Inv.step {s s' : State} {op : Op} (h : Inv c n s) (hguard : Addressable c n s op)
    (hstep : Step c n s op s') : Inv c n s' := by
  have hcounters := addressable_counters hl hguard
  cases op with
  | edgeSet u v =>
    obtain ⟨rfl, hroom⟩ := hstep
    exact h.edgeSet hl hcounters hroom
  | insertPair u v =>
    obtain ⟨rfl, hroom⟩ := hstep
    exact h.edgeSet hl hcounters hroom
  | deletePair u v =>
    obtain ⟨hmem, rfl⟩ := hstep
    exact h.deletePair hl hcounters hmem

/-- A present pair has no counter at zero. -/
theorem Inv.counts {s : State} (h : Inv c n s) : Counts c n s := by
  refine ⟨fun u v hmem => ?_, fun i _ => h.counter i⟩
  have hnone : ¬ (hashVals c n (ordered u v)).any
      (fun hashVal => s.1.blockGet hashVal c.elementSize = 0) = true := by
    rw [List.any_eq_true]
    rintro ⟨hashVal, hval, hzero⟩
    rw [hashVals_eq hl] at hval
    obtain ⟨i, hi, rfl⟩ := List.mem_map.mp hval
    -- the counter is one of the pair and counts it at least once
    have hpos : 0 < (counters c n (ordered u v)).count i := List.count_pos_iff.mpr hi
    have hsum := incidences_erase hmem (c := c) (n := n) i
    rw [blockGet_counter hl, h.counter i, decide_eq_true_eq] at hzero
    omega
  rw [nePairTest, if_neg hnone]

/-- In every valid history of addressable calls the filter counts. -/
theorem history_counts {s : State}
    (h : Run.Reachable (fun s => s = (fresh c, 0)) (Step c n) (Addressable c n) s) :
    Counts c n s := by
  have hinv : Inv c n s := h.invariant
    (fun _ hs => hs ▸ inv_fresh hl)
    (fun _ _ _ hs hguard hstep => hs.step hl hguard hstep)
  exact hinv.counts hl

end

/-- A hundred vertices of average degree 10 and one word for each: 355 counters of
    9 bits and one hash function. -/
def hundredConfig : Config := Config.ofSizes 1 100 10 (by decide)

theorem hundredConfig_layout : Layout hundredConfig 1 where
  elementSize_pos := by decide +kernel
  elementSize_le := by decide +kernel
  bestHashNums_le := by decide +kernel
  hashSize_lt := by decide +kernel

/-- Two pairs come and the first one goes again. -/
theorem history_counts_three :
    Counts hundredConfig 1 (deletePair hundredConfig 1
      (insertPair hundredConfig 1 (edgeSet hundredConfig 1 (fresh hundredConfig) 1 2) 5 3) 2 1,
      {(3, 5)}) := by
  have hfirst : ∀ hashVal ∈ hashVals hundredConfig 1 (1, 2), hashVal / 8 < 256 := by
    decide +kernel
  have hsecond : ∀ hashVal ∈ hashVals hundredConfig 1 (3, 5), hashVal / 8 < 256 := by
    decide +kernel
  have hone : Representable hundredConfig 1 {(1, 2)} := representable_of_card (by decide +kernel)
  have htwo : Representable hundredConfig 1 {(3, 5), (1, 2)} :=
    representable_of_card (by decide +kernel)
  have hguard₁ : Addressable hundredConfig 1 (fresh hundredConfig, 0) (.edgeSet 1 2) := hfirst
  have hstep₁ : Step hundredConfig 1 (fresh hundredConfig, 0) (.edgeSet 1 2)
      (edgeSet hundredConfig 1 (fresh hundredConfig) 1 2, {(1, 2)}) := ⟨rfl, hone⟩
  have hrun₁ : Run.Reachable (fun s => s = (fresh hundredConfig, 0)) (Step hundredConfig 1)
      (Addressable hundredConfig 1) _ := .next (.start rfl) hguard₁ hstep₁
  -- what the filter holds by now does not matter to the calls
  generalize edgeSet hundredConfig 1 (fresh hundredConfig) 1 2 = e₁ at hrun₁ ⊢
  have hguard₂ : Addressable hundredConfig 1 (e₁, {(1, 2)}) (.insertPair 5 3) := hsecond
  have hstep₂ : Step hundredConfig 1 (e₁, {(1, 2)}) (.insertPair 5 3)
      (insertPair hundredConfig 1 e₁ 5 3, {(3, 5), (1, 2)}) := ⟨rfl, htwo⟩
  have hrun₂ := hrun₁.next hguard₂ hstep₂
  generalize insertPair hundredConfig 1 e₁ 5 3 = e₂ at hrun₂ ⊢
  have hguard₃ : Addressable hundredConfig 1 (e₂, {(3, 5), (1, 2)}) (.deletePair 2 1) := hfirst
  have hmem : ordered 2 1 ∈ ({(3, 5), (1, 2)} : Multiset (Nat × Nat)) := by decide
  have herase : ({(3, 5)} : Multiset (Nat × Nat)) =
      ({(3, 5), (1, 2)} : Multiset (Nat × Nat)).erase (ordered 2 1) := by decide
  have hstep₃ : Step hundredConfig 1 (e₂, {(3, 5), (1, 2)}) (.deletePair 2 1)
      (deletePair hundredConfig 1 e₂ 2 1, {(3, 5)}) := ⟨hmem, congrArg (Prod.mk _) herase⟩
  exact history_counts hundredConfig_layout (hrun₂.next hguard₃ hstep₃)

/-- The pairs `(1, 47)` and `(2, 24)` share counter 240, whose first byte is byte
    270. The second increment carries into that byte, but the carry is written to
    byte 14 and the counter reads zero. -/
theorem shared_counter_lost :
    Layout hundredConfig 1 ∧
    ∃ s, Run.Reachable (fun s => s = (fresh hundredConfig, 0)) (Step hundredConfig 1)
        (fun _ _ => True) s ∧
      ordered 1 47 ∈ s.2 ∧ nePairTest hundredConfig 1 s.1 1 47 = .nonNeighbor ∧
      ¬ Counts hundredConfig 1 s := by
  let s₁ : State := (edgeSet hundredConfig 1 (fresh hundredConfig) 1 47, {(1, 47)})
  let s₂ : State := (edgeSet hundredConfig 1 s₁.1 2 24, {(2, 24), (1, 47)})
  have hstep₁ : Step hundredConfig 1 (fresh hundredConfig, 0) (.edgeSet 1 47) s₁ :=
    ⟨rfl, representable_of_card (by decide +kernel)⟩
  have hstep₂ : Step hundredConfig 1 s₁ (.edgeSet 2 24) s₂ :=
    ⟨rfl, representable_of_card (by decide +kernel)⟩
  have hmem : ordered 1 47 ∈ s₂.2 := by decide +kernel
  have hverdict : nePairTest hundredConfig 1 s₂.1 1 47 = .nonNeighbor := by decide +kernel
  refine ⟨hundredConfig_layout, s₂, .next (.next (.start rfl) trivial hstep₁) trivial hstep₂,
    hmem, hverdict, fun hcounts => ?_⟩
  have hunc := hcounts.1 1 47 hmem
  rw [hverdict] at hunc
  cases hunc

end CBFilterEncode

end Vend
