import Vend.Encode.Compression
import Vend.Encode.RangeCompEncode
import Vend.Vend.DeltaSIMDVend
import Vend.Vend.WorklistCore

/-! # The order in which the worklists are gone through

    The worklist build takes out every vertex outside the union of the stuck sets
    (`Peeled.open_iff_core`), whatever the order, when lists that fit still fit after
    a neighbour was taken out of them. For the four size functions here that is a matter of
    the `uint32_t` sum only: the full sum never grows when an element is removed, and the sum
    modulo `2 ^ 32` grows where it wraps around (`Modular`).

    `order_free_iff` says when a size function leaves the build independent of the order,
    and `order_decides` gives a graph on which `BitsComp` does not.
-/

namespace Vend

namespace WorklistPeeling

/-! ## Section 1: Model -/

/-- `filtered` when the worklist is empty. -/
def filteredSet {vertexSize : Nat} (g : Graph vertexSize) (requiredSize : List Nat → Nat)
    (maxLen : Nat) (iterate : Nat → List Nat → List Nat) : Option (List Bool) :=
  (peeling vertexSize g.lists (fun ls => decide (requiredSize (ls.getD 0 []) ≤ maxLen))
    iterate).map Peeling.filtered

/-- The size does not grow when an element is removed from a sorted list of ids. -/
def NeverGrows (vertexSize : Nat) (requiredSize : List Nat → Nat) : Prop :=
  ∀ list : List Nat, list.Pairwise (· < ·) → (∀ id ∈ list, 1 ≤ id ∧ id ≤ vertexSize) →
    ∀ id ∈ list, requiredSize (list.erase id) ≤ requiredSize list

/-- The set that is taken out does not depend on the order of the sets. -/
structure OrderFree (vertexSize : Nat) (requiredSize : List Nat → Nat) (maxLen : Nat) : Prop where
  same : ∀ g : Graph vertexSize, g.Sorted → ∀ iterate iterate', Iterates iterate →
    Iterates iterate' → ∃ filtered, filteredSet g requiredSize maxLen iterate = some filtered ∧
      filteredSet g requiredSize maxLen iterate' = some filtered
  never_grows : NeverGrows vertexSize requiredSize

/-! ## Section 2: Sizes that shrink with their lists -/

section

variable {vertexSize : Nat} {lists : Nat → List (List Nat)} {fits : List (List Nat) → Bool}
variable {p p' : Peeling} {keep keep' : Nat → Nat → Bool}

/-- Two finished peelings have taken out the same vertices. -/
theorem Peeled.filtered_eq (hlinked : Linked vertexSize lists) (hshrinks : Shrinks lists fits)
    (h : Peeled vertexSize lists fits p keep) (htested : Tested vertexSize lists fits p [])
    (h' : Peeled vertexSize lists fits p' keep') (htested' : Tested vertexSize lists fits p' []) :
    p.filtered = p'.filtered := by
  have hzero : ∀ {p keep}, Peeled vertexSize lists fits p keep → p.isFiltered 0 = false := by
    intro p keep h
    by_contra hf
    obtain ⟨c, hc, hvertex⟩ := List.mem_map.mp ((h.filtered_iff 0).mp (by simpa using hf))
    have hrange := h.range c hc
    omega
  have hsame : ∀ v, v ≤ vertexSize → p.isFiltered v = p'.isFiltered v := by
    intro v hv
    rcases Nat.eq_zero_or_pos v with rfl | hpos
    · rw [hzero h, hzero h']
    · -- the core is what both have left
      have hiff := (h.open_iff_core hlinked hshrinks htested hpos hv).trans
        (h'.open_iff_core hlinked hshrinks htested' hpos hv).symm
      rw [Bool.eq_iff_iff, ← not_iff_not, Bool.not_eq_true, Bool.not_eq_true]
      exact hiff
  apply List.ext_getElem
  · rw [h.length, h'.length]
  · intro v hv hv'
    have heq := hsame v (by rw [h.length] at hv; omega)
    unfold Peeling.isFiltered at heq
    rwa [List.getD_eq_getElem _ _ hv, List.getD_eq_getElem _ _ hv'] at heq

end

section

variable {vertexSize maxLen : Nat} {requiredSize : List Nat → Nat}

theorem filteredSet_eq {g : Graph vertexSize} {iterate : Nat → List Nat → List Nat}
    (hsize : vertexSize + 1 < 2 ^ 31) (hiterate : Iterates iterate) :
    ∃ p keep, filteredSet g requiredSize maxLen iterate = some p.filtered ∧
      Peeled vertexSize g.lists (fun ls => decide (requiredSize (ls.getD 0 []) ≤ maxLen)) p keep ∧
      Tested vertexSize g.lists (fun ls => decide (requiredSize (ls.getD 0 []) ≤ maxLen)) p [] := by
  obtain ⟨p, keep, hrun, hpeeled, htested⟩ := @peeling_run vertexSize g.lists
    (fun ls => decide (requiredSize (ls.getD 0 []) ≤ maxLen)) g.linked hsize iterate hiterate
  exact ⟨p, keep, by rw [filteredSet, hrun]; rfl, hpeeled, htested⟩

/-- Sizes that shrink with their lists leave no choice. -/
theorem orderFree_of_sublist (hsize : vertexSize + 1 < 2 ^ 31)
    (hmono : ∀ list' list : List Nat, list'.Sublist list → list.Pairwise (· < ·) →
      (∀ id ∈ list, 1 ≤ id ∧ id ≤ vertexSize) → requiredSize list' ≤ requiredSize list) :
    OrderFree vertexSize requiredSize maxLen := by
  refine ⟨?_, ?_⟩
  · intro g hsorted iterate iterate' hiterate hiterate'
    -- a list that fits still fits when a neighbour was taken out of it
    have hshrinks : Shrinks g.lists fun ls => decide (requiredSize (ls.getD 0 []) ≤ maxLen) := by
      intro v q q' hsub hfits
      have hle := hmono ((g.adj v).filter q) ((g.adj v).filter q')
        (List.monotone_filter_right _ hsub) ((hsorted v).filter q')
        fun id hid => Graph.mem_range (List.mem_of_mem_filter hid)
      have hfits' : requiredSize ((g.adj v).filter q') ≤ maxLen := of_decide_eq_true hfits
      exact decide_eq_true (Nat.le_trans hle hfits')
    obtain ⟨p, keep, hrun, hpeeled, htested⟩ := filteredSet_eq hsize hiterate
    obtain ⟨p', keep', hrun', hpeeled', htested'⟩ := filteredSet_eq hsize hiterate'
    refine ⟨p.filtered, hrun, ?_⟩
    rw [hrun', hpeeled.filtered_eq g.linked hshrinks htested hpeeled' htested']
  · intro list hsorted hrange id _
    exact hmono _ _ List.erase_sublist hsorted hrange

/-- The counters of the build hold the vertices of every graph. -/
theorem OrderFree.size_lt (h : OrderFree vertexSize requiredSize maxLen) :
    vertexSize + 1 < 2 ^ 31 := by
  have hiterate : Iterates fun _ set => set := fun _ set => List.Perm.refl set
  obtain ⟨filtered, hrun, -⟩ := h.same _ (Graph.edgeless_sorted vertexSize) _ _ hiterate hiterate
  by_contra hnot
  rw [filteredSet, peeling_eq_none hnot] at hrun
  cases hrun

end

/-! ## Section 3: Sizes that are summed up modulo `2 ^ 32` -/

/-- On the sorted lists of ids `requiredSize` is a sum `full`, modulo `2 ^ 32`, that never grows
    when ids are taken out. -/
structure Modular (vertexSize : Nat) (requiredSize full : List Nat → Nat) : Prop where
  eq_mod : ∀ list : List Nat, list.Pairwise (· < ·) → (∀ id ∈ list, 1 ≤ id ∧ id ≤ vertexSize) →
    requiredSize list = full list % 2 ^ 32
  mono : ∀ list' list : List Nat, list'.Sublist list → list.Pairwise (· < ·) →
    full list' ≤ full list
  nil : full [] = 0
  step : ∀ n, full (List.range' 1 (n + 1)) ≤ full (List.range' 1 n) + 32

section

variable {vertexSize maxLen : Nat} {requiredSize full : List Nat → Nat}

/-- All ids together decide: if their sum does not wrap around, no sum does. -/
theorem Modular.orderFree_iff (h : Modular vertexSize requiredSize full) :
    OrderFree vertexSize requiredSize maxLen ↔
      vertexSize + 1 < 2 ^ 31 ∧ full (List.range' 1 vertexSize) < 2 ^ 32 := by
  constructor
  · intro hfree
    refine ⟨hfree.size_lt, ?_⟩
    by_contra hwrap
    -- somewhere on the way to the list of all ids the size falls
    obtain ⟨n, hn, hfalls⟩ := GapCost.exists_wrap (f := fun n => full (List.range' 1 n))
      (show full [] < 2 ^ 32 by rw [h.nil]; exact Nat.two_pow_pos 32) (show 32 < 2 ^ 32 by decide)
      h.step (Nat.le_of_not_lt hwrap)
    have hids : ∀ m, m ≤ vertexSize → ∀ id ∈ List.range' 1 m, 1 ≤ id ∧ id ≤ vertexSize := by
      intro m hm id hid
      rw [List.mem_range'_1] at hid
      omega
    have hsorted : ∀ m, (List.range' 1 m).Pairwise (· < ·) := fun m => List.pairwise_lt_range'
    have hgrows := hfree.never_grows (List.range' 1 (n + 1)) (hsorted _) (hids _ hn) (n + 1)
      (List.mem_range'_1.mpr (by omega))
    have herase : (List.range' 1 (n + 1)).erase (n + 1) = List.range' 1 n := by
      rw [List.range'_concat, List.erase_append_right, Nat.one_mul, Nat.add_comm 1 n]
      · simp
      · rw [List.mem_range'_1]
        omega
    rw [herase, h.eq_mod _ (hsorted _) (hids _ hn), h.eq_mod _ (hsorted _) (hids n (by omega))]
      at hgrows
    exact absurd hgrows (Nat.not_le_of_gt hfalls)
  · rintro ⟨hsize, hfull⟩
    -- every list of ids is a sublist of all ids, so no sum reaches `2 ^ 32`
    apply orderFree_of_sublist hsize
    intro list' list hsub hsorted hrange
    have hle := h.mono _ _ (GapCost.sublist_range' hsorted hrange) List.pairwise_lt_range'
    have hmono := h.mono _ _ hsub hsorted
    rw [h.eq_mod _ hsorted hrange, h.eq_mod _ (hsorted.sublist hsub) fun id hid =>
      hrange id (hsub.subset hid), Nat.mod_eq_of_lt (by omega), Nat.mod_eq_of_lt (by omega)]
    exact hmono

end

/-! ## Section 4: The four size functions -/

open DeltaSIMDCodec (getRequiredBytes getRequiredBytes_v0_sublist)

section

variable {c : Config}

theorem modular_bits :
    Modular c.vertexSize (BitsComp.getRequiredBits c) fun list => list.length * c.vertexBitSize where
  eq_mod _ _ _ := rfl
  mono _ _ hsub _ := Nat.mul_le_mul_right _ hsub.length_le
  nil := Nat.zero_mul _
  step n := by
    have hle := c.vertexBitSize_le
    simp only [List.length_range', Nat.add_mul, Nat.one_mul]
    omega

theorem modular_vbyte :
    Modular c.vertexSize VbyteComp.getRequiredBits VbyteComp.fullBits where
  eq_mod list _ _ := VbyteComp.getRequiredBits_eq list
  mono _ _ hsub _ := VbyteComp.fullBits_sublist hsub
  nil := rfl
  step n := by
    have hle := VbyteComp.integerBits_le (1 + n)
    simp only [VbyteComp.fullBits, List.range'_concat, List.map_append, List.sum_append,
      List.map_cons, List.map_nil, List.sum_singleton, Nat.one_mul]
    omega

theorem modular_delta :
    Modular c.vertexSize VbyteDeltaComp.getRequiredBits VbyteDeltaComp.fullBits where
  eq_mod list hsorted hrange := by
    apply VbyteDeltaComp.getRequiredBits_eq (hsorted.imp Nat.le_of_lt)
    intro x hx
    have hle := (hrange x hx).2
    have hlt := c.vertexSize_lt
    omega
  mono _ _ hsub hsorted := VbyteDeltaComp.fullBits_sublist hsub (hsorted.imp Nat.le_of_lt)
  nil := rfl
  step n := by
    rw [VbyteDeltaComp.fullBits_range', VbyteDeltaComp.fullBits_range']
    omega

end

/-- The size never grows and the set that is taken out does not depend on the order exactly
    when the `uint32_t` size of all ids together does not wrap around (and the `int`
    counters hold the vertices). -/
theorem order_free_iff (c : Config) :
    (OrderFree c.vertexSize (BitsComp.getRequiredBits c) (RangeCompEncode.maxBits c) ↔
      c.vertexSize + 1 < 2 ^ 31 ∧ c.vertexSize * c.vertexBitSize < 2 ^ 32) ∧
    (OrderFree c.vertexSize VbyteComp.getRequiredBits (RangeCompEncode.maxBits c) ↔
      c.vertexSize + 1 < 2 ^ 31 ∧
        ((List.range' 1 c.vertexSize).map fun v => 8 * VbyteComp.integerBytes v).sum < 2 ^ 32) ∧
    (OrderFree c.vertexSize VbyteDeltaComp.getRequiredBits (RangeCompEncode.maxBits c) ↔
      c.vertexSize < 2 ^ 29) ∧
    (OrderFree c.vertexSize (getRequiredBytes .v0) (DeltaSIMDEncode.getBytesSize c) ↔
      c.vertexSize + 1 < 2 ^ 31) := by
  refine ⟨?_, ?_, ?_, ?_⟩
  · have hiff := @Modular.orderFree_iff _ (RangeCompEncode.maxBits c) _ _ (@modular_bits c)
    rwa [List.length_range'] at hiff
  · exact (@modular_vbyte c).orderFree_iff
  · have hiff := @Modular.orderFree_iff _ (RangeCompEncode.maxBits c) _ _ (@modular_delta c)
    rw [VbyteDeltaComp.fullBits_range'] at hiff
    rw [hiff]
    omega
  · refine ⟨OrderFree.size_lt, fun hsize => orderFree_of_sublist hsize ?_⟩
    intro list' list hsub hsorted hrange
    apply getRequiredBytes_v0_sublist hsub
    · refine ⟨hsorted, fun id hid => ?_⟩
      have hle := (hrange id hid).2
      omega
    · exact fun id hid => (hrange id hid).1

/-! ## Section 5: A graph on which the order shows -/

/-- A hub (5) with cliques of nine around it, and a corner: 1, 2 and 3 fit at once, 4 when
    they are gone. -/
def hubAdj (cliques : Nat) : Nat → List Nat
  | 0 => []
  | 1 | 2 | 3 => [4, 5]
  | 4 => [1, 2, 3, 5]
  | 5 => 1 :: 2 :: 3 :: 4 :: List.range' 6 (9 * cliques)
  | v + 6 => 5 :: (List.range' (9 * (v / 9) + 6) 9).erase (v + 6)

theorem mem_hubAdj {cliques v w : Nat} (hv : v ≤ 9 * cliques + 5) : w ∈ hubAdj cliques v ↔
    (v ≠ w ∧ 1 ≤ v ∧ 1 ≤ w ∧ w ≤ 9 * cliques + 5) ∧
      (v = 5 ∨ w = 5 ∨ (6 ≤ v ∧ 6 ≤ w ∧ (v - 6) / 9 = (w - 6) / 9) ∨ (v = 4 ∧ w ≤ 3) ∨
        (w = 4 ∧ v ≤ 3)) := by
  match v with
  | 0 => simp [hubAdj]
  | 1 | 2 | 3 | 4 =>
    simp only [hubAdj, List.mem_cons, List.not_mem_nil, or_false, true_and]
    constructor <;> intro h <;> omega
  | 5 =>
    simp only [hubAdj, List.mem_cons, List.mem_range'_1, true_or, and_true]
    constructor <;> intro h <;> omega
  | v + 6 =>
    have hnodup : (List.range' (9 * (v / 9) + 6) 9).Nodup := List.nodup_range' 1
    simp only [hubAdj, List.mem_cons, hnodup.mem_erase_iff, List.mem_range'_1]
    constructor <;> intro h <;> omega

theorem hubAdj_sorted (cliques v : Nat) : (hubAdj cliques v).Pairwise (· < ·) := by
  match v with
  | 0 | 1 | 2 | 3 | 4 => simp [hubAdj]
  | 5 =>
    simp only [hubAdj, List.pairwise_cons, List.mem_cons, List.mem_range'_1]
    refine ⟨?_, ?_, ?_, ?_, List.pairwise_lt_range'⟩ <;> omega
  | v + 6 =>
    rw [hubAdj, List.pairwise_cons]
    refine ⟨?_, List.Pairwise.sublist List.erase_sublist (List.pairwise_lt_range' 1)⟩
    intro w hw
    have hmem := List.mem_range'_1.mp (List.mem_of_mem_erase hw)
    omega

theorem getD_hubAdj {cliques v : Nat} (hv : v ≤ 9 * cliques + 5) :
    ((List.range (9 * cliques + 6)).map (hubAdj cliques)).getD v [] = hubAdj cliques v := by
  simp [List.getD_eq_getElem?_getD, show v < 9 * cliques + 6 by omega]

def hubGraph (cliques : Nat) : Graph (9 * cliques + 5) where
  adjacencyList := (List.range (9 * cliques + 6)).map (hubAdj cliques)
  zero := by rw [getD_hubAdj (Nat.zero_le _), hubAdj]
  length := by simp
  range v hv w hw := by
    rw [getD_hubAdj (by omega), mem_hubAdj (by omega)] at hw
    exact hw.1.2.2
  loopless v hv := by
    rw [getD_hubAdj (by omega), mem_hubAdj (by omega)]
    exact fun h => h.1.1 rfl
  nodup v hv := by
    rw [getD_hubAdj (by omega)]
    exact (hubAdj_sorted cliques v).imp Nat.ne_of_lt
  symm v hv w hw := by
    rw [getD_hubAdj (by omega), mem_hubAdj (by omega)] at hw
    rw [getD_hubAdj hw.1.2.2.2, mem_hubAdj hw.1.2.2.2]
    omega

theorem hubGraph_adj {cliques v : Nat} (hv : v ≤ 9 * cliques + 5) :
    (hubGraph cliques).adj v = hubAdj cliques v :=
  getD_hubAdj hv

theorem hubGraph_lists {cliques v : Nat} (hv : v ≤ 9 * cliques + 5) :
    (hubGraph cliques).lists v = [hubAdj cliques v] := by
  rw [Graph.lists, hubGraph_adj hv]

theorem hubGraph_sorted (cliques : Nat) : (hubGraph cliques).Sorted := by
  apply Graph.sorted_of_forall_lt
  intro v hv
  rw [hubGraph_adj (by omega)]
  exact hubAdj_sorted cliques v

/-- Sizes that wrap around where the hub has lost 1, 2 and 3. -/
structure Wraps (cliques : Nat) (fits : List (List Nat) → Bool) : Prop where
  two : fits [[4, 5]] = true
  four : fits [[1, 2, 3, 5]] = false
  hub : fits [hubAdj cliques 5] = false
  clique : ∀ v, 6 ≤ v → v ≤ 9 * cliques + 5 → fits [hubAdj cliques v] = false
  one : fits [[5]] = true
  hubWithFour : fits [4 :: List.range' 6 (9 * cliques)] = true
  hubWithout : fits [List.range' 6 (9 * cliques)] = false

section

variable {fits : List (List Nat) → Bool} {lists : Nat → List (List Nat)}

/-- What was taken out stays out. -/
theorem isFiltered_set {p : Peeling} {v w : Nat} {calls : List Call}
    (h : p.isFiltered v = true) : Peeling.isFiltered ⟨p.filtered.set w true, calls⟩ v = true := by
  unfold Peeling.isFiltered at h ⊢
  by_cases hw : w = v
  · subst hw
    have hlt : w < p.filtered.length := by
      by_contra hge
      rw [List.getD_eq_default _ _ (Nat.le_of_not_lt hge)] at h
      cases h
    simp [List.getD_eq_getElem?_getD, hlt]
  · rw [List.getD_eq_getElem?_getD, List.getElem?_set_ne hw, ← List.getD_eq_getElem?_getD]
    exact h

theorem isFiltered_visit {st : Peeling × List Nat} {v : Nat} (h : st.1.isFiltered v = true)
    (vertex : Nat) : (visit lists fits st vertex).1.isFiltered v = true := by
  rcases visit_cases lists fits st vertex with ⟨hsame, -⟩ | ⟨-, -, htake⟩
  · rw [hsame]
    exact h
  · rw [htake]
    exact isFiltered_set h

theorem isFiltered_foldl_visit (related : List Nat) {st : Peeling × List Nat} {v : Nat}
    (h : st.1.isFiltered v = true) :
    (related.foldl (visit lists fits) st).1.isFiltered v = true := by
  induction related generalizing st with
  | nil => exact h
  | cons vertex related ih => exact ih (isFiltered_visit h vertex)

theorem isFiltered_relatedLoop {iterate : Nat → List Nat → List Nat} (fuel round : Nat)
    {related : List Nat} {p p' : Peeling} {v : Nat}
    (hrun : relatedLoop lists fits iterate fuel round related p = some p')
    (h : p.isFiltered v = true) : p'.isFiltered v = true := by
  induction fuel generalizing round related p with
  | zero => cases hrun
  | succ fuel ih =>
    rw [relatedLoop] at hrun
    split at hrun
    · obtain rfl := Option.some.inj hrun
      exact h
    · exact ih _ hrun (@isFiltered_foldl_visit fits lists _ (p, []) v h)

end

section

variable {cliques : Nat} {fits : List (List Nat) → Bool} (h : Wraps cliques fits)
include h

/-- The vertices that fit with all their neighbours. -/
theorem encodeList_hub : (List.range' 1 (9 * cliques + 5)).filter
    (fun id => fits ((hubGraph cliques).lists id)) = [1, 2, 3] := by
  have hclique : (List.range' 6 (9 * cliques)).filter
      (fun id => fits ((hubGraph cliques).lists id)) = [] := by
    apply List.filter_eq_nil_iff.mpr
    intro id hid
    rw [List.mem_range'_1] at hid
    rw [hubGraph_lists (by omega), h.clique id (by omega) (by omega)]
    exact Bool.false_ne_true
  have hsplit : List.range' 1 (9 * cliques + 5) = 1 :: 2 :: 3 :: 4 :: 5 ::
      List.range' 6 (9 * cliques) := by
    simp only [List.range'_succ]
  rw [hsplit]
  simp only [List.filter_cons, hclique]
  rw [hubGraph_lists (by omega), hubGraph_lists (by omega), hubGraph_lists (by omega),
    hubGraph_lists (by omega), hubGraph_lists (by omega), h.hub]
  simp [hubAdj, h.two, h.four]

/-- The first round takes out 1, 2 and 3, and 4 and the hub wait. -/
theorem firstRound_hub : ∃ p, firstRound (9 * cliques + 5) (hubGraph cliques).lists fits =
      (p, [4, 5]) ∧ p.filtered.length = 9 * cliques + 6 ∧
    ∀ w, p.isFiltered w = (decide (w = 3) || (decide (w = 2) || decide (w = 1))) := by
  unfold firstRound
  rw [encodeList_hub h]
  simp only [List.foldl_cons, List.foldl_nil]
  rw [hubGraph_lists (by omega), hubGraph_lists (by omega), hubGraph_lists (by omega)]
  refine ⟨_, rfl, ?_, ?_⟩
  · simp [takeOut]
  · intro w
    -- one vertex after the other
    have hone := @isFiltered_takeOut 1 [[4, 5]]
      (⟨List.replicate (9 * cliques + 5 + 1) false, []⟩, []) (by simp) w
    rw [isFiltered_start, Bool.or_false] at hone
    have htwo := @isFiltered_takeOut 2 [[4, 5]] (takeOut 1 [[4, 5]]
      (⟨List.replicate (9 * cliques + 5 + 1) false, []⟩, [])) (by simp [takeOut]) w
    rw [hone] at htwo
    have hthree := @isFiltered_takeOut 3 [[4, 5]] (takeOut 2 [[4, 5]] (takeOut 1 [[4, 5]]
      (⟨List.replicate (9 * cliques + 5 + 1) false, []⟩, []))) (by simp [takeOut]) w
    rw [htwo] at hthree
    exact hthree

section

variable {p : Peeling} (hlen : p.filtered.length = 9 * cliques + 6)
variable (hout : ∀ w, p.isFiltered w = (decide (w = 3) || (decide (w = 2) || decide (w = 1))))
include hlen hout

/-- Visited first, the hub is taken out. -/
theorem hub_taken {fuel : Nat} {p' : Peeling}
    (hrun : relatedLoop (hubGraph cliques).lists fits (fun _ set => set.reverse) (fuel + 1) 0 [4, 5]
      p = some p') : p'.isFiltered 5 = true := by
  have hremaining : p.remaining (hubGraph cliques).lists 5 =
      [4 :: List.range' 6 (9 * cliques)] := by
    have hclique : ∀ w, 6 ≤ w → w < 6 + 9 * cliques → ¬ w = 3 ∧ ¬ w = 2 ∧ ¬ w = 1 := by
      intro w hw _
      omega
    rw [remaining_eq, hubGraph_lists (by omega), hubAdj, List.map_cons, List.map_nil]
    simpa [hout] using hclique
  -- with 4 the size of its list wraps around and fits
  have hvisit : (visit (hubGraph cliques).lists fits (p, []) 5).1.isFiltered 5 = true := by
    have hopen : p.isFiltered 5 = false := by simp [hout]
    rw [visit, hopen, hremaining, if_neg (by decide), if_pos h.hubWithFour,
      isFiltered_takeOut (by rw [hlen]; omega)]
    rfl
  rw [relatedLoop, if_neg (by decide)] at hrun
  have hround := @isFiltered_foldl_visit fits (hubGraph cliques).lists [4]
    (visit (hubGraph cliques).lists fits (p, []) 5) 5 hvisit
  exact isFiltered_relatedLoop _ _ hrun hround

/-- Behind 4, which fits, the hub has one neighbour too few. -/
theorem hub_left {fuel : Nat} :
    ∃ p', relatedLoop (hubGraph cliques).lists fits (fun _ set => set) (fuel + 3) 0 [4, 5] p =
      some p' ∧ p'.isFiltered 5 = false := by
  have hopen : p.isFiltered 4 = false := by simp [hout]
  have hremaining : p.remaining (hubGraph cliques).lists 4 = [[5]] := by
    rw [remaining_eq, hubGraph_lists (by omega), hubAdj]
    simp [hout]
  have hvisit : visit (hubGraph cliques).lists fits (p, []) 4 = takeOut 4 [[5]] (p, []) := by
    rw [visit, hopen, hremaining, if_neg (by decide), if_pos h.one]
  obtain ⟨p₁, hp₁, hout₁⟩ : ∃ p₁, takeOut 4 [[5]] (p, []) = (p₁, [5]) ∧
      ∀ w, p₁.isFiltered w = (decide (w = 4) || p.isFiltered w) :=
    ⟨_, rfl, fun w => @isFiltered_takeOut 4 [[5]] (p, []) (by rw [hlen]; omega) w⟩
  have hremaining₁ : p₁.remaining (hubGraph cliques).lists 5 =
      [List.range' 6 (9 * cliques)] := by
    have hclique : ∀ w, 6 ≤ w → w < 6 + 9 * cliques →
        ¬ w = 4 ∧ ¬ w = 3 ∧ ¬ w = 2 ∧ ¬ w = 1 := by
      intro w hw _
      omega
    rw [remaining_eq, hubGraph_lists (by omega), hubAdj, List.map_cons, List.map_nil]
    simpa [hout₁, hout] using hclique
  have hopen₁ : p₁.isFiltered 5 = false := by simp [hout₁, hout]
  -- from now on nothing fits
  have hsame : ∀ set, visit (hubGraph cliques).lists fits (p₁, set) 5 = (p₁, set) := by
    intro set
    rw [visit, hopen₁, hremaining₁, if_neg (by decide)]
    exact if_neg (by rw [h.hubWithout]; decide)
  refine ⟨p₁, ?_, hopen₁⟩
  rw [relatedLoop, if_neg (by decide)]
  simp only [List.foldl_cons, List.foldl_nil, hvisit, hp₁, hsame]
  rw [relatedLoop, if_neg (by decide)]
  simp only [List.foldl_cons, List.foldl_nil, hsame]
  rw [relatedLoop, if_pos rfl]

end

end

/-- Two orders of the first worklist, and the hub is taken out in one of them. -/
theorem hub_order {cliques maxLen : Nat} {requiredSize : List Nat → Nat}
    (hsize : 9 * cliques + 5 + 1 < 2 ^ 31)
    (h : Wraps cliques fun ls => decide (requiredSize (ls.getD 0 []) ≤ maxLen)) :
    ∃ filtered filtered',
      filteredSet (hubGraph cliques) requiredSize maxLen (fun _ set => set) = some filtered ∧
      filteredSet (hubGraph cliques) requiredSize maxLen (fun _ set => set.reverse) =
        some filtered' ∧
      filtered.getD 5 false = false ∧ filtered'.getD 5 false = true := by
  obtain ⟨p, hfirst, hlen, hout⟩ := firstRound_hub h
  obtain ⟨p₁, hleft, hopen⟩ := @hub_left _ _ h _ hlen hout (9 * cliques + 4)
  obtain ⟨p₂, -, hrun, -⟩ := @filteredSet_eq _ maxLen requiredSize (hubGraph cliques)
    (fun _ set => set.reverse) hsize fun _ set => List.reverse_perm set
  refine ⟨p₁.filtered, p₂.filtered, ?_, hrun, hopen, ?_⟩
  · rw [filteredSet, peeling, guard, if_pos hsize, hfirst]
    exact congrArg (Option.map Peeling.filtered) hleft
  · rw [filteredSet, peeling, guard, if_pos hsize, hfirst] at hrun
    obtain ⟨p₃, hloop, heq⟩ := Option.map_eq_some_iff.mp hrun
    rw [← heq]
    exact hub_taken h hlen hout hloop

/-- Four words for each vertex: three ids of 28 bits behind the flag. -/
def hubConfig : Config := Config.ofSizes 4 153391694 2 (by decide)

theorem hubConfig_vertexBitSize : hubConfig.vertexBitSize = 28 := by
  have hsize : hubConfig.vertexSize = 153391694 := rfl
  rw [Config.vertexBitSize, hsize]
  apply Nat.le_antisymm
  · exact (Nat.clog_le_iff_le_pow (by decide)).mpr (by decide)
  · exact (Nat.lt_clog_iff_pow_lt (by decide)).mpr (by decide)

/-- 153391690 ids of 28 bits take `2 ^ 32 + 24` bits. -/
theorem wraps_hubConfig {cliques : Nat} (hcliques : 9 * cliques = 153391689) :
    Wraps cliques fun ls => decide
      (BitsComp.getRequiredBits hubConfig (ls.getD 0 []) ≤ RangeCompEncode.maxBits hubConfig) := by
  have hmax : RangeCompEncode.maxBits hubConfig = 96 := rfl
  have hbits : ∀ l : List Nat, BitsComp.getRequiredBits hubConfig l = l.length * 28 % 2 ^ 32 := by
    intro l
    rw [BitsComp.getRequiredBits, hubConfig_vertexBitSize]
  -- the lengths are 2, 4, 153391693, 9, 1, 153391690 and 153391689
  constructor <;> simp only [hmax, hbits, List.getD_cons_zero]
  · rfl
  · rfl
  · rw [hubAdj, List.length_cons, List.length_cons, List.length_cons, List.length_cons,
      List.length_range', hcliques]
    rfl
  · intro v hv hle
    have hlen : (hubAdj cliques v).length = 9 := by
      obtain ⟨v, rfl⟩ := Nat.exists_eq_add_of_le' hv
      rw [hubAdj, List.length_cons, List.length_erase_of_mem (List.mem_range'_1.mpr (by omega)),
        List.length_range']
    rw [hlen]
    rfl
  · rfl
  · rw [List.length_cons, List.length_range', hcliques]
    rfl
  · rw [List.length_range', hcliques]
    rfl

/-- Of two orders of the first worklist, one takes the hub out and the other leaves it. -/
theorem order_decides :
    Iterates (fun _ set => set) ∧ Iterates (fun _ set => set.reverse) ∧
    ∃ g : Graph hubConfig.vertexSize, g.Sorted ∧ ∃ filtered filtered',
      filteredSet g (BitsComp.getRequiredBits hubConfig) (RangeCompEncode.maxBits hubConfig)
          (fun _ set => set) = some filtered ∧
      filteredSet g (BitsComp.getRequiredBits hubConfig) (RangeCompEncode.maxBits hubConfig)
          (fun _ set => set.reverse) = some filtered' ∧
      filtered.getD 5 false = false ∧ filtered'.getD 5 false = true :=
  ⟨fun _ set => List.Perm.refl set, fun _ set => List.reverse_perm set,
    hubGraph 17043521, hubGraph_sorted _, hub_order (by decide) (wraps_hubConfig rfl)⟩

end WorklistPeeling

end Vend
