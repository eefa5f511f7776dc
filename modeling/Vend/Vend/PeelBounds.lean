import Vend.Vend.DbRangeVend
import Vend.Vend.DirectedHybVend

/-! # The peeling inside its arrays

    Which accesses of the bucket peeling stay inside the arrays. The degrees play no part:
    whatever the gap loop has made of the bucket starts, they are not behind the true ones,
    and that is all that `relax` needs (`InBounds`). The one access that depends on the
    encoder is the bound of the k-core loop, `bin[max_kcore + 1]`, and `bin` ends with
    `max_degree`.

    `staysInBounds_iff` says so for the three builds: an undirected graph in memory, the
    same graph from the database, and a directed graph.
-/

namespace Vend

namespace BucketPeeling

/-! ## Section 1: The loops keep to the arrays -/

/-- All that the bounds rest on: the sizes, and bucket starts that are not too far behind. -/
structure InBounds (n top : Nat) (s : Arrays) : Prop where
  sized : s.Sized n top
  bounded : BucketOrder.Bounded s.view n top

section

variable {n top maxKcore idx : Nat} {s : Arrays} {lists : Nat → List (List Nat)}

theorem InBounds.relax (h : InBounds n top s) (vertexDegree : Nat) {neighbor : Nat}
    (hn : neighbor < n) :
    ∃ s', BucketPeeling.relax vertexDegree s neighbor = some s' ∧ InBounds n top s' := by
  cases hfil : s.filtered.getD neighbor false with
  | true => exact ⟨s, relax_of_filtered h.sized hn hfil, h⟩
  | false =>
    rw [relax_of_not_filtered h.sized h.bounded hn hfil]
    by_cases hge : vertexDegree ≥ s.view.key neighbor
    · exact ⟨s, if_pos hge, h⟩
    · -- the neighbour has a larger degree than the current vertex, so not degree 0
      have hpos : 1 ≤ s.view.key neighbor := by omega
      refine ⟨s.lower neighbor, if_neg hge, sized_lower h.sized, ?_⟩
      rw [view_lower h.sized h.bounded hn]
      exact h.bounded.decrease hn hpos

theorem InBounds.relax_run (h : InBounds n top s) (vertexDegree : Nat) {neighbors : List Nat}
    (hn : ∀ w ∈ neighbors, w < n) :
    ∃ s', neighbors.foldlM (BucketPeeling.relax vertexDegree) s = some s' ∧
      InBounds n top s' := by
  induction neighbors generalizing s with
  | nil => exact ⟨s, rfl, h⟩
  | cons w neighbors ih =>
    obtain ⟨s₁, heq₁, h₁⟩ := h.relax vertexDegree (hn w (by simp))
    obtain ⟨s₂, heq₂, h₂⟩ := ih h₁ fun x hx => hn x (by simp [hx])
    refine ⟨s₂, ?_, h₂⟩
    rw [List.foldlM_cons, heq₁]
    exact heq₂

theorem InBounds.mark (h : InBounds n top s) (v : Nat) :
    InBounds n top { s with filtered := s.filtered.set v true } :=
  ⟨⟨h.sized.degrees, h.sized.pos, h.sized.vert, h.sized.bin, by
    rw [List.length_set]
    exact h.sized.filtered⟩, h.bounded⟩

/-- One round of the k-core loop. -/
theorem InBounds.peelVertex (h : InBounds n top s) (hlists : ∀ v, ∀ w ∈ (lists v).flatten, w < n)
    (hidx : idx < n) :
    ∃ s' call, BucketPeeling.peelVertex lists s idx = some (s', call) ∧ InBounds n top s' := by
  have hlt := h.bounded.vert_lt idx hidx
  have hvert : s.vert[idx]? = some (s.view.vert idx) :=
    getElem?_eq_getD (by rw [h.sized.vert]; exact hidx)
  have hdeg : s.degrees[s.view.vert idx]? = some (s.view.key (s.view.vert idx)) :=
    getElem?_eq_getD (by rw [h.sized.degrees]; exact hlt)
  obtain ⟨s₁, heq, h₁⟩ := h.relax_run (s.view.key (s.view.vert idx)) (hlists (s.view.vert idx))
  have hmark : s.view.vert idx < s₁.filtered.length := by
    rw [h₁.sized.filtered]
    exact hlt
  refine ⟨{ s₁ with filtered := s₁.filtered.set (s.view.vert idx) true },
    ⟨true, s.view.vert idx, (lists (s.view.vert idx)).map (unfiltered s.filtered)⟩, ?_, h₁.mark _⟩
  simp only [BucketPeeling.peelVertex, hvert, hdeg, heq, Option.bind_eq_bind, Option.bind_some,
    guard, if_pos hmark]
  rfl

/-- The k-core loop stops inside `vert`: its bound counts vertices of smaller degree. -/
theorem InBounds.kcoreLoop (hlists : ∀ v, ∀ w ∈ (lists v).flatten, w < n)
    (htop : maxKcore + 1 ≤ top) (fuel : Nat) (h : InBounds n top s) (hidx : idx ≤ n)
    (hfuel : n < fuel + idx) :
    ∃ k s' calls, BucketPeeling.kcoreLoop lists maxKcore fuel idx s = some (k, s', calls) ∧
      k ≤ n ∧ InBounds n top s' := by
  -- `fuel` bounds the vertices from `idx` on, and each round takes one
  induction fuel generalizing idx s with
  | zero => omega
  | succ fuel ih =>
    have hstop : s.bin[maxKcore + 1]? = some (s.view.bin (maxKcore + 1)) :=
      getElem?_eq_getD (by rw [h.sized.bin]; omega)
    by_cases hlt : idx < s.view.bin (maxKcore + 1)
    · -- a bucket start is at most the number of vertices of smaller degree
      have hbelow := h.bounded.bin_le _ htop
      have hle := BucketOrder.below_le (b := s.view) (n := n) (maxKcore + 1)
      obtain ⟨s₁, call, heq₁, h₁⟩ := h.peelVertex hlists (show idx < n by omega)
      obtain ⟨k, s₂, calls, heq₂, hk, h₂⟩ := ih h₁ (show idx + 1 ≤ n by omega) (by omega)
      refine ⟨k, s₂, call :: calls, ?_, hk, h₂⟩
      simp only [BucketPeeling.kcoreLoop, hstop, Option.bind_eq_bind, Option.bind_some, if_pos hlt,
        heq₁, heq₂]
      rfl
    · refine ⟨idx, s, [], ?_, hidx, h⟩
      simp [BucketPeeling.kcoreLoop, hstop, hlt]

end

/-! ## Section 2: The whole peeling -/

section

variable {vertexSize maxKcore : Nat} {lists : Nat → List (List Nat)} {order : List Nat}
variable (hlists : Peelable vertexSize lists) (horder : SortedOrder vertexSize lists order)
include hlists horder

theorem inBounds_initArrays :
    ∃ s, initArrays vertexSize lists order = some s ∧
      InBounds (vertexSize + 1) (maxDegree vertexSize lists) s := by
  obtain ⟨s, heq, hsize, harr, hkey, -, hbin, -⟩ := initArrays_spec hlists horder
  refine ⟨s, heq, hsize, harr, ?_, ?_⟩
  · intro v hv
    rw [hkey v (by omega)]
    exact degree_le_maxDegree hlists (by omega)
  · intro d hd
    rw [hbin d hd, below_eq_degreeBelow hkey]
    exact filledStart_le hlists d

/-- The peeling runs through if and only if its counters hold the sizes and `bin` has the
    entry that bounds the k-core loop. -/
theorem peel_returns_iff :
    (∃ calls, peel vertexSize lists maxKcore order = some calls) ↔
      vertexSize + 1 < 2 ^ 31 ∧ maxDegree vertexSize lists + 1 < 2 ^ 31 ∧
        maxKcore < maxDegree vertexSize lists := by
  obtain ⟨s, heq, h⟩ := inBounds_initArrays hlists horder
  by_cases hguard : vertexSize + 1 < 2 ^ 31 ∧ maxDegree vertexSize lists + 1 < 2 ^ 31
  · by_cases htop : maxKcore < maxDegree vertexSize lists
    · have hrange : ∀ v, ∀ w ∈ (lists v).flatten, w < vertexSize + 1 := by
        intro v w hw
        exact Nat.lt_succ_of_le (hlists.range v w hw).2
      obtain ⟨k, s₁, calls, hrun, hk, h₁⟩ := h.kcoreLoop hrange htop (vertexSize + 2)
        (Nat.zero_le _) (by omega)
      have hrest := remainingLoop_run lists k (vertexSize + 1 - k) h₁.sized (by omega)
      refine iff_of_true ?_ ⟨hguard.1, hguard.2, htop⟩
      simp only [peel, guard, if_pos hguard, heq, hrun, hrest, Option.bind_eq_bind,
        Option.bind_some, Option.pure_def]
      exact ⟨_, rfl⟩
    · -- the first test of the loop reads behind `bin`
      have hshort : s.bin.length ≤ maxKcore + 1 := by
        rw [h.sized.bin]
        omega
      have hnone := kcoreLoop_of_short lists hshort (vertexSize + 2) 0
      refine iff_of_false ?_ fun hall => htop hall.2.2
      simp [peel, heq, hnone]
  · refine iff_of_false ?_ fun hall => hguard ⟨hall.1, hall.2.1⟩
    simp only [peel, guard, if_neg hguard]
    rintro ⟨calls, hcalls⟩
    cases hcalls

end

/-! ## Section 3: The three builds -/

/-- Every access of a build is inside its array. `calls` is `none` when one of those that
    the model checks is not; the arrays are filled unchecked. -/
structure Accesses (vertexSize : Nat) (degrees : List Nat) (maxDegree : Nat) (order : List Nat)
    (calls : Option (List Call)) : Prop where
  /-- `degrees[vert[i]]` and `pos[vert[i]]`. -/
  ids : ∀ v ∈ order, v < vertexSize + 1
  /-- `bin[j]`, where `j` is the degree of a vertex. -/
  starts : ∀ v ∈ order, degrees.getD v 0 < maxDegree + 1
  returns : ∃ made, calls = some made

theorem accesses_iff {vertexSize maxKcore : Nat} {lists : Nat → List (List Nat)}
    {order : List Nat} (hlists : Peelable vertexSize lists)
    (horder : SortedOrder vertexSize lists order) :
    Accesses vertexSize (initDegrees vertexSize lists) (maxDegree vertexSize lists) order
        (peel vertexSize lists maxKcore order) ↔
      vertexSize + 1 < 2 ^ 31 ∧ maxDegree vertexSize lists + 1 < 2 ^ 31 ∧
        maxKcore < maxDegree vertexSize lists := by
  rw [← peel_returns_iff hlists horder]
  constructor
  · exact Accesses.returns
  · intro hreturns
    refine ⟨?_, ?_, hreturns⟩
    · intro v hv
      have hrange := horder.mem_iff.mp hv
      omega
    · intro v hv
      have hle := (horder.mem_iff.mp hv).2
      rw [getD_initDegrees hlists hle]
      exact Nat.lt_succ_of_le (degree_le_maxDegree hlists hle)

end BucketPeeling

namespace RangeVend

open BucketPeeling

variable {vertexSize : Nat}

/-- `RangeVend::BuildEncoding` from memory stays inside its arrays. -/
def StaysInBounds (g : Graph vertexSize) (intSize : Nat) (order : List Nat) : Prop :=
  Accesses vertexSize (initDegrees vertexSize g.lists) (maxDegree g) order
    (encodeCalls g intSize order)

/-- `RangeVend::BuildEncoding` from the database, which writes `vert[1]` and `degrees[1]` for
    every record. -/
def DbStaysInBounds (vertexSize : Nat) (scan : List (Nat × List Nat)) (intSize : Nat)
    (order : List Nat) : Prop :=
  (scan ≠ [] → 1 < vertexSize + 1) ∧
    Accesses vertexSize (loadDegrees vertexSize scan).degrees (loadDegrees vertexSize scan).maxDegree
      order (dbEncodeCalls vertexSize scan intSize order)

theorem staysInBounds_iff_memory {g : Graph vertexSize} {intSize : Nat} {order : List Nat}
    (horder : SortedOrder vertexSize g.lists order) :
    StaysInBounds g intSize order ↔ vertexSize + 1 < 2 ^ 31 ∧ intSize < maxDegree g := by
  rw [StaysInBounds, encodeCalls, maxDegree, accesses_iff g.peelable horder]
  constructor
  · rintro ⟨hsize, -, hlt⟩
    exact ⟨hsize, hlt⟩
  · rintro ⟨hsize, hlt⟩
    exact ⟨hsize, maxDegree_lt g hsize, hlt⟩

/-- Only vertex 1 has a degree, that of the record scanned last. -/
theorem degrees_loadDegrees_le (scan : List (Nat × List Nat)) (v : Nat) :
    (loadDegrees vertexSize scan).degrees.getD v 0 ≤ (loadDegrees vertexSize scan).maxDegree := by
  rcases List.eq_nil_or_concat' scan with rfl | ⟨front, entry, rfl⟩
  · have hzero : (loadDegrees vertexSize []).degrees = List.replicate (vertexSize + 1) 0 := rfl
    rw [hzero, List.getD_eq_getElem?_getD, List.getElem?_replicate]
    split <;> simp
  · rw [loadDegrees_concat vertexSize front entry.1 entry.2]
    refine Nat.le_trans ?_ (Nat.le_max_left _ _)
    simp only [List.getD_eq_getElem?_getD, List.getElem?_set, List.getElem?_replicate]
    split <;> (try split) <;> simp

/-- Without a record, `bin` has the entry of degree 0 only. -/
theorem dbEncodeCalls_nil (intSize : Nat) (order : List Nat) :
    dbEncodeCalls vertexSize [] intSize order = none := by
  have hshort : (initBin (loadDegrees vertexSize []).degrees order 1 0
      (List.replicate ((loadDegrees vertexSize []).maxDegree + 1) 0)).length ≤ intSize + 1 := by
    rw [length_initBin, List.length_replicate, loadDegrees_nil]
    omega
  have hgaps : ∀ bin, fillGaps (loadDegrees vertexSize []).maxDegree
      ((loadDegrees vertexSize []).maxDegree + 1) 1 bin = some bin :=
    fun bin => fillGaps_done _ _ _ bin Nat.zero_lt_one
  unfold dbEncodeCalls
  simp only [hgaps, Option.bind_eq_bind, Option.bind_some]
  rw [kcoreLoop_of_short noLists hshort]
  simp

theorem staysInBounds_iff_database {g : Graph vertexSize} {scan : List (Nat × List Nat)}
    {intSize : Nat} {order : List Nat} (hscan : Scans g scan)
    (horder : DbSorted vertexSize scan order) :
    DbStaysInBounds vertexSize scan intSize order ↔
      vertexSize + 1 < 2 ^ 31 ∧ ∃ entry, scan.getLast? = some entry ∧
        (∀ other ∈ scan, other.2.length ≤ entry.2.length) ∧ intSize < entry.2.length := by
  rcases List.eq_nil_or_concat' scan with rfl | ⟨front, ⟨v, l⟩, rfl⟩
  · -- no record, and `bin` is too short for every threshold
    refine iff_of_false ?_ ?_
    · rintro ⟨-, -, -, hreturns⟩
      rw [dbEncodeCalls_nil] at hreturns
      obtain ⟨made, hmade⟩ := hreturns
      cases hmade
    · rintro ⟨-, entry, hlast, -⟩
      cases hlast
  · obtain ⟨hadj, hl⟩ := (mem_scan_iff hscan).mp (List.mem_append_right front List.mem_cons_self)
    obtain ⟨w, hw⟩ := List.exists_mem_of_ne_nil _ hl
    rw [← hadj] at hw
    have hone : 1 ≤ vertexSize := by
      have := Graph.mem_range hw
      omega
    -- the largest degree is that of the last record, or the array is too long for it
    generalize hm : (loadDegrees vertexSize (front ++ [(v, l)])).maxDegree = m
    have hlm : l.length ≤ m := (maxDegree_loadDegrees_le _ _ _).mp (Nat.le_of_eq hm) (v, l)
      (List.mem_append_right front List.mem_cons_self)
    have hlast : (∀ other ∈ front ++ [(v, l)], other.2.length ≤ l.length) ↔ l.length = m := by
      rw [← maxDegree_loadDegrees_le vertexSize, hm]
      omega
    have hsmall : l.length ≤ vertexSize := hadj ▸ g.length_adj_le v
    have hrun := @dbEncodeCalls_concat vertexSize intSize v l order front hone hl horder m hm
    have hreturns :
        (∃ made, dbEncodeCalls vertexSize (front ++ [(v, l)]) intSize order = some made) ↔
        vertexSize + 1 < 2 ^ 31 ∧ l.length = m ∧ intSize < l.length := by
      rw [hrun]
      split
      next hcond => exact iff_of_true ⟨_, rfl⟩ ⟨hcond.1.1, hcond.2.1, by omega⟩
      next hcond =>
        refine iff_of_false ?_ fun hall => hcond ⟨⟨hall.1, by omega⟩, hall.2.1, by omega⟩
        rintro ⟨made, hmade⟩
        cases hmade
    have hentry : (∃ entry, (front ++ [(v, l)]).getLast? = some entry ∧
        (∀ other ∈ front ++ [(v, l)], other.2.length ≤ entry.2.length) ∧
          intSize < entry.2.length) ↔ l.length = m ∧ intSize < l.length := by
      rw [List.getLast?_concat, ← hlast]
      constructor
      · rintro ⟨entry, heq, hall, hlt⟩
        obtain rfl := Option.some.inj heq
        exact ⟨hall, hlt⟩
      · rintro ⟨hall, hlt⟩
        exact ⟨(v, l), rfl, hall, hlt⟩
    rw [hentry, ← hreturns]
    constructor
    · exact fun h => h.2.returns
    · intro h
      refine ⟨fun _ => Nat.lt_succ_of_le hone, ?_, fun w _ => ?_, h⟩
      · intro w hw
        rw [order_of_dbSorted hone hl horder, List.mem_append, List.mem_singleton] at hw
        rcases hw with hzero | rfl
        · rw [List.eq_of_mem_replicate hzero]
          exact Nat.succ_pos _
        · exact Nat.lt_succ_of_le hone
      · exact Nat.lt_succ_of_le (degrees_loadDegrees_le _ w)

end RangeVend

namespace DirectedHybVend

open BucketPeeling

variable {vertexSize : Nat}

/-- `Directed_Hyb_Vend::BuildEncoding` stays inside its arrays. -/
def StaysInBounds (g : Digraph vertexSize) (intSize : Nat) (order : List Nat) : Prop :=
  Accesses vertexSize (initDegrees vertexSize g.lists) (maxDegree g) order
    (encodeCalls g intSize order)

end DirectedHybVend

namespace BucketPeeling

/-- The peeling stays inside its arrays exactly when the threshold is below the largest degree
    (and the `int` counters hold the sizes); the build from the database also needs the
    largest degree in the record that is scanned last. -/
theorem staysInBounds_iff (vertexSize intSize : Nat) (order : List Nat) :
    (∀ g : Graph vertexSize, SortedOrder vertexSize g.lists order →
      (RangeVend.StaysInBounds g intSize order ↔
        vertexSize + 1 < 2 ^ 31 ∧ intSize < RangeVend.maxDegree g)) ∧
    (∀ (g : Graph vertexSize) (scan : List (Nat × List Nat)), RangeVend.Scans g scan →
      RangeVend.DbSorted vertexSize scan order →
      (RangeVend.DbStaysInBounds vertexSize scan intSize order ↔
        vertexSize + 1 < 2 ^ 31 ∧ ∃ entry, scan.getLast? = some entry ∧
          (∀ other ∈ scan, other.2.length ≤ entry.2.length) ∧ intSize < entry.2.length)) ∧
    ∀ g : Digraph vertexSize, SortedOrder vertexSize g.lists order →
      (DirectedHybVend.StaysInBounds g intSize order ↔
        vertexSize + 1 < 2 ^ 31 ∧ DirectedHybVend.maxDegree g + 1 < 2 ^ 31 ∧
          intSize < DirectedHybVend.maxDegree g) := by
  refine ⟨?_, ?_, ?_⟩
  · intro g horder
    exact RangeVend.staysInBounds_iff_memory horder
  · intro g scan hscan horder
    exact RangeVend.staysInBounds_iff_database hscan horder
  · intro g horder
    exact accesses_iff g.peelable horder

theorem staysInBounds_iff_pendant :
    RangeVend.StaysInBounds RangeVend.pendantGraph 2 [1, 3, 4, 5, 2] ∧
    ¬ RangeVend.DbStaysInBounds 5 (RangeVend.scanOf RangeVend.pendantGraph) 2 [0, 0, 0, 0, 1] ∧
    DirectedHybVend.StaysInBounds DirectedHybVend.tenTournament 6 (List.range' 1 10) := by
  refine ⟨?_, ?_, ?_⟩
  · exact ((staysInBounds_iff 5 2 _).1 RangeVend.pendantGraph (by decide +kernel)).mpr
      (by decide +kernel)
  · -- vertex 5 is scanned last and does not have the largest degree
    intro h
    have hscan : RangeVend.Scans RangeVend.pendantGraph
        (RangeVend.scanOf RangeVend.pendantGraph) := List.Perm.refl _
    obtain ⟨-, entry, hlast, hall, -⟩ := ((staysInBounds_iff 5 2 _).2.1 RangeVend.pendantGraph _
      hscan ⟨by decide +kernel, by decide +kernel⟩).mp h
    obtain rfl : (5, [2, 3, 4]) = entry := Option.some.inj hlast
    exact absurd (hall (2, [1, 3, 4, 5]) (by decide +kernel)) (by decide)
  · exact ((staysInBounds_iff 10 6 _).2.2 DirectedHybVend.tenTournament (by decide +kernel)).mpr
      (by decide +kernel)

/-- Without edges `bin` has one entry, and `RangeEncode` with three words makes the loop read
    `bin[3]`. -/
theorem edgeless_out_of_bounds :
    SortedOrder 2 (Graph.edgeless 2).lists [1, 2] ∧
    ¬ RangeVend.StaysInBounds (Graph.edgeless 2) 2 [1, 2] := by
  refine ⟨by decide +kernel, ?_⟩
  rintro ⟨-, -, made, hmade⟩
  have hnone : RangeVend.encodeCalls (Graph.edgeless 2) 2 [1, 2] = none := by decide +kernel
  rw [hnone] at hmade
  cases hmade

end BucketPeeling

end Vend
