import Vend.Vend.BloomVend
import Vend.Vend.HybridVend

/-! # The build from the database

    `RangeVend::BuildEncoding` with `adjacency_list_ = nullptr`, as `LargeGraph`
    runs it. The loop over the database reads each record into `vertex1` and
    `neighbors`, but writes the arrays at `id`, the counter that was set to 1
    before the loop; and no list is fetched in the loops that encode. So only
    vertex 1 gets a degree, that of the record scanned last, and the only vertices
    that are encoded are 0 and 1, both from empty lists.

    `builds_agree_iff` compares this with the build from memory: with `RangeEncode`
    the two agree on the graphs where nothing of this shows, with `HybridEncode` never.
-/

namespace Vend

namespace RangeVend

open BucketPeeling

/-! ## Section 1: Model -/

/-- `vert`, `degrees` and `max_degree` while the degrees are loaded. -/
structure Loaded where
  vert : List Nat
  degrees : List Nat
  maxDegree : Nat
  deriving DecidableEq, Repr

/-- The loop over the database. `id` is 1 throughout. -/
def loadDegrees (vertexSize : Nat) (scan : List (Nat × List Nat)) : Loaded :=
  scan.foldl (fun s entry =>
      { vert := s.vert.set 1 1
        maxDegree := max entry.2.length s.maxDegree
        degrees := s.degrees.set 1 entry.2.length })
    ⟨List.replicate (vertexSize + 1) 0, List.replicate (vertexSize + 1) 0, 0⟩

/-- What `std::sort` guarantees for `vert[1 ..]`. -/
structure DbSorted (vertexSize : Nat) (scan : List (Nat × List Nat)) (order : List Nat) : Prop where
  perm : order.Perm ((loadDegrees vertexSize scan).vert.drop 1)
  sorted : order.Pairwise fun v w =>
    (loadDegrees vertexSize scan).degrees.getD v 0 ≤ (loadDegrees vertexSize scan).degrees.getD w 0

/-- The list of every vertex: `adj` and `neighbors` stay empty without an adjacency list. -/
def noLists (_ : Nat) : List (List Nat) := [[]]

/-- The calls of `EncodeVertex` without an adjacency list. -/
def dbEncodeCalls (vertexSize : Nat) (scan : List (Nat × List Nat)) (intSize : Nat)
    (order : List Nat) : Option (List Call) := do
  let loaded := loadDegrees vertexSize scan
  guard (vertexSize + 1 < 2 ^ 31 ∧ loaded.maxDegree + 1 < 2 ^ 31)
  let bin ← fillGaps loaded.maxDegree (loaded.maxDegree + 1) 1
    (initBin loaded.degrees order 1 0 (List.replicate (loaded.maxDegree + 1) 0))
  let (idx, s, calls) ← kcoreLoop noLists intSize (vertexSize + 2) 0 {
    degrees := loaded.degrees
    pos := initPos order 1 (List.replicate (vertexSize + 1) 0)
    vert := 0 :: order
    bin
    filtered := List.replicate (vertexSize + 1) false }
  let rest ← remainingLoop noLists s (vertexSize + 1 - idx) idx
  return calls ++ rest

/-- `data_db_` scans exactly the nonempty lists of the graph, in any order. -/
def Scans {vertexSize : Nat} (g : Graph vertexSize) (scan : List (Nat × List Nat)) : Prop :=
  scan.Perm (((List.range' 1 vertexSize).filter fun v => g.adj v ≠ []).map fun v => (v, g.adj v))

/-- The records after the calls. -/
def encodeAll (encodeVertex : Nat → List Nat → Records → Records) (encodes : Records)
    (calls : List Call) : Records :=
  calls.foldl (fun st call => encodeVertex call.vertex (passed call) st) encodes

/-- No edge gets the verdict `NonNeighbor`. -/
def Graph.KeepsEdges {vertexSize : Nat} (g : Graph vertexSize) (verdict : Nat → Nat → PairType) :
    Prop :=
  ∀ u v, v ∈ g.adj u → verdict u v ≠ .nonNeighbor

/-- The vertex is taken out by the k-core loop. -/
def Peeled (calls : List Call) (v : Nat) : Prop := ∃ call ∈ calls, call.firstLoop = true ∧ call.vertex = v

/-- Both builds run through, deny no edge and peel the same vertices. -/
def BuildsAgree {c : Config} (g : Graph c.vertexSize) (intSize : Nat)
    (encodeVertex : Nat → List Nat → Records → Records)
    (nePairTest : Records → Nat → Nat → PairType) (order : List Nat)
    (scan : List (Nat × List Nat)) (dbOrder : List Nat) : Prop :=
  ∃ calls dbCalls, encodeCalls g intSize order = some calls ∧
    dbEncodeCalls c.vertexSize scan intSize dbOrder = some dbCalls ∧
    Graph.KeepsEdges g (nePairTest (encodeAll encodeVertex (Records.fresh c) calls)) ∧
    Graph.KeepsEdges g (nePairTest (encodeAll encodeVertex (Records.fresh c) dbCalls)) ∧
    ∀ v, Peeled calls v ↔ Peeled dbCalls v

/-! ## Section 2: The arrays that the database leaves -/

/-- After the loop: the degree of the last record stands at vertex 1. -/
theorem loadDegrees_concat (vertexSize : Nat) (scan : List (Nat × List Nat)) (v : Nat)
    (l : List Nat) :
    loadDegrees vertexSize (scan ++ [(v, l)]) =
      { vert := (List.replicate (vertexSize + 1) 0).set 1 1
        degrees := (List.replicate (vertexSize + 1) 0).set 1 l.length
        maxDegree := max l.length (loadDegrees vertexSize scan).maxDegree } := by
  have hinner : ∀ scan : List (Nat × List Nat),
      ((loadDegrees vertexSize scan).vert.set 1 1 = (List.replicate (vertexSize + 1) 0).set 1 1) ∧
      ∀ d, (loadDegrees vertexSize scan).degrees.set 1 d =
        (List.replicate (vertexSize + 1) 0).set 1 d := by
    intro scan
    induction scan using List.reverseRecOn with
    | nil => exact ⟨rfl, fun _ => rfl⟩
    | append_singleton scan entry ih =>
      unfold loadDegrees at ih ⊢
      rw [List.foldl_append]
      simp only [List.foldl_cons, List.foldl_nil, List.set_set]
      exact ih
  rw [loadDegrees, List.foldl_append]
  simp only [List.foldl_cons, List.foldl_nil]
  obtain ⟨hvert, hdegrees⟩ := hinner scan
  unfold loadDegrees at hvert hdegrees
  rw [hvert, hdegrees]
  rfl

theorem loadDegrees_nil (vertexSize : Nat) : (loadDegrees vertexSize []).maxDegree = 0 := rfl

section

variable {n d : Nat}

/-- A list of zeros and one 1, sorted by a degree that only 1 has. -/
theorem eq_of_dbSorted {order : List Nat} (hd : 1 ≤ d)
    (hperm : order.Perm (1 :: List.replicate n 0))
    (hsorted : order.Pairwise fun v w => (if v = 1 then d else 0) ≤ if w = 1 then d else 0) :
    order = List.replicate n 0 ++ [1] := by
  obtain ⟨front, back, rfl⟩ := List.append_of_mem (hperm.mem_iff.mpr (by simp : 1 ∈ _))
  have hrest : (front ++ back).Perm (List.replicate n 0) :=
    (List.perm_cons 1).mp (List.perm_middle.symm.trans hperm)
  have hzero : ∀ v ∈ front ++ back, v = 0 := fun v hv =>
    List.eq_of_mem_replicate (hrest.mem_iff.mp hv)
  rw [List.pairwise_append, List.pairwise_cons] at hsorted
  obtain rfl : back = [] := by
    rcases back with _ | ⟨v, back⟩
    · rfl
    · have hle := hsorted.2.1.1 v (by simp)
      rw [hzero v (by simp)] at hle
      simp only [if_true, Nat.zero_ne_one, if_false] at hle
      omega
  rw [List.append_nil] at hrest hzero
  rw [List.eq_replicate_of_mem hzero, hrest.length_eq, List.length_replicate]

/-- `initBin` on the sorted array. -/
theorem initBin_replicate (degrees bin : List Nat) (h₀ : degrees.getD 0 0 = 0)
    (h₁ : degrees.getD 1 0 = d) (hd : 1 ≤ d) (n i : Nat) :
    initBin degrees (List.replicate n 0 ++ [1]) i 0 bin = bin.set d (i + n) := by
  induction n generalizing i with
  | zero =>
    simp only [List.replicate_zero, List.nil_append, initBin, h₁, Nat.add_zero]
    exact if_pos hd
  | succ n ih =>
    rw [List.replicate_succ, List.cons_append, initBin]
    simp only [h₀, Nat.lt_irrefl, gt_iff_lt, if_false]
    rw [ih (i + 1)]
    congr 1
    omega

/-- A run of gaps behind ones is filled with ones. -/
theorem fillRun_ones (a b stop : Nat) (rest : List Nat) (hstop : stop ≠ 0) :
    ∀ fuel, b < fuel → fillRun fuel (2 + a)
        (0 :: List.replicate (1 + a) 1 ++ (List.replicate b 0 ++ stop :: rest)) =
      some (2 + a + b, 0 :: List.replicate (1 + a + b) 1 ++ stop :: rest) := by
  induction b generalizing a with
  | zero =>
    intro fuel hfuel
    obtain ⟨fuel, rfl⟩ := Nat.exists_eq_succ_of_ne_zero (by omega : fuel ≠ 0)
    have hread : (0 :: List.replicate (1 + a) 1 ++ (List.replicate 0 0 ++ stop :: rest))[2 + a]? =
        some stop := by
      rw [List.getElem?_append_right (by rw [List.length_cons, List.length_replicate]; omega)]
      simp [show 2 + a - (1 + a + 1) = 0 by omega]
    simp only [fillRun, hread, Option.bind_eq_bind, Option.bind_some, if_neg hstop]
    simp
  | succ b ih =>
    intro fuel hfuel
    obtain ⟨fuel, rfl⟩ := Nat.exists_eq_succ_of_ne_zero (by omega : fuel ≠ 0)
    have hlen : (0 :: List.replicate (1 + a) 1).length = 2 + a := by simp; omega
    have hread : (0 :: List.replicate (1 + a) 1 ++
        (List.replicate (b + 1) 0 ++ stop :: rest))[2 + a]? = some 0 := by
      rw [List.getElem?_append_right (by omega), hlen]
      simp [List.replicate_succ]
    have hprev : (0 :: List.replicate (1 + a) 1 ++
        (List.replicate (b + 1) 0 ++ stop :: rest))[2 + a - 1]? = some 1 := by
      rw [List.getElem?_append_left (by omega), show 2 + a - 1 = a + 1 by omega,
        List.getElem?_cons_succ, List.getElem?_replicate, if_pos (by omega)]
    have hset : (0 :: List.replicate (1 + a) 1 ++
        (List.replicate (b + 1) 0 ++ stop :: rest)).set (2 + a) 1 =
        0 :: List.replicate (1 + (a + 1)) 1 ++ (List.replicate b 0 ++ stop :: rest) := by
      rw [List.set_append_right _ _ (by omega), hlen, Nat.sub_self, List.replicate_succ (n := b),
        show 1 + (a + 1) = (1 + a) + 1 by omega, List.replicate_succ' (n := 1 + a)]
      simp
    have hnext := ih (a + 1) fuel (by omega)
    simp only [fillRun, hread, hprev, Option.bind_eq_bind, Option.bind_some, if_true, hset]
    rw [show 2 + a + 1 = 2 + (a + 1) by omega, hnext]
    simp only [Option.some.injEq, Prod.mk.injEq]
    constructor
    · omega
    · rw [show 1 + (a + 1) + b = 1 + a + (b + 1) by omega]

/-- The first gap behind `front`: it is empty, it has a bucket before it, and what is set
    there extends the front. -/
theorem gap_behind {front : List Nat} (b : Nat) (hfront : front ≠ []) :
    (front ++ List.replicate (b + 1) 0)[front.length]? = some 0 ∧
    ∃ prev, (front ++ List.replicate (b + 1) 0)[front.length - 1]? = some prev ∧
      ∀ k, (front ++ List.replicate (b + 1) 0).set front.length k =
        (front ++ [k]) ++ List.replicate b 0 := by
  have hpos := List.length_pos_of_ne_nil hfront
  refine ⟨by simp [List.replicate_succ], _, List.getElem?_eq_getElem (by simp; omega), ?_⟩
  intro k
  simp [List.replicate_succ]

/-- A run of gaps up to the end of the array is read out of bounds. -/
theorem fillRun_overrun (front : List Nat) (b : Nat) (hfront : front ≠ []) :
    ∀ fuel, fillRun fuel front.length (front ++ List.replicate b 0) = none := by
  induction b generalizing front with
  | zero =>
    intro fuel
    cases fuel with
    | zero => rfl
    | succ fuel => simp [fillRun]
  | succ b ih =>
    intro fuel
    cases fuel with
    | zero => rfl
    | succ fuel =>
      obtain ⟨hread, prev, hprev, hset⟩ := gap_behind b hfront
      have hnext := ih (front ++ [prev]) (by simp) fuel
      rw [List.length_append, List.length_singleton] at hnext
      simp only [fillRun, hread, hprev, Option.bind_eq_bind, Option.bind_some, if_true, hset, hnext]

theorem fillGaps_overrun (m : Nat) (front : List Nat) (b : Nat) (hfront : front ≠ [])
    (hm : front.length ≤ m) (fuel : Nat) :
    fillGaps m fuel front.length (front ++ List.replicate (b + 1) 0) = none := by
  cases fuel with
  | zero => rfl
  | succ fuel =>
    obtain ⟨hread, prev, hprev, hset⟩ := gap_behind b hfront
    have hrun := fillRun_overrun (front ++ [prev + 1]) b (by simp) fuel
    rw [List.length_append, List.length_singleton] at hrun
    simp only [fillGaps, if_pos hm, hread, hprev, Option.bind_eq_bind, Option.bind_some, if_true,
      hset, hrun, Option.bind_none]

theorem fillGaps_done (m fuel j : Nat) (bin : List Nat) (hj : m < j) :
    fillGaps m (fuel + 1) j bin = some bin := by
  simp [fillGaps, Nat.not_le.mpr hj]

/-- The gap loop on the array with one bucket. The array ends with `max_degree`, and a
    last bucket in front of it leaves a gap without an end. -/
theorem fillGaps_single (m d stop : Nat) (hd : 1 ≤ d) (hdm : d ≤ m) (hstop : stop ≠ 0) :
    fillGaps m (m + 1) 1 ((List.replicate (m + 1) 0).set d stop) =
      if d = m then some (0 :: List.replicate (m - 1) 1 ++ [stop]) else none := by
  have hbin : (List.replicate (m + 1) 0).set d stop =
      List.replicate d 0 ++ stop :: List.replicate (m - d) 0 := by
    rw [show m + 1 = d + ((m - d) + 1) by omega, ← List.replicate_append_replicate,
      List.set_append_right _ _ (by simp), List.length_replicate, Nat.sub_self,
      List.replicate_succ, List.set_cons_zero]
  -- what is left to do behind the bucket
  have hbehind : ∀ front : List Nat, front.length = d → ∀ fuel,
      fillGaps m (fuel + 1) (d + 1) (front ++ stop :: List.replicate (m - d) 0) =
        if d = m then some (front ++ [stop]) else none := by
    intro front hlen fuel
    by_cases heq : d = m
    · rw [if_pos heq, fillGaps_done _ _ _ _ (by omega), heq, Nat.sub_self, List.replicate_zero]
    · rw [if_neg heq]
      have hover := fillGaps_overrun m (front ++ [stop]) (m - d - 1) (by simp)
        (by simp; omega) (fuel + 1)
      rw [List.length_append, List.length_singleton, hlen,
        show m - d - 1 + 1 = m - d by omega] at hover
      simpa using hover
  rw [hbin]
  obtain ⟨d, rfl⟩ := Nat.exists_eq_add_of_le' hd
  rcases Nat.eq_zero_or_pos d with rfl | hpos
  · -- degree 1 has a bucket, and the loop passes over it
    have hread : (List.replicate (0 + 1) 0 ++ stop :: List.replicate (m - (0 + 1)) 0)[1]? =
        some stop := by simp
    obtain ⟨m, rfl⟩ := Nat.exists_eq_add_of_le' hdm
    rw [fillGaps, if_pos hdm, hread]
    simp only [Option.bind_eq_bind, Option.bind_some, if_neg hstop]
    rw [hbehind _ (by simp)]
    split
    next heq => simp [← heq]
    next => rfl
  · -- a run of ones is written below the bucket
    obtain ⟨d, rfl⟩ := Nat.exists_eq_add_of_le' hpos
    have hread : (List.replicate (d + 1 + 1) 0 ++ stop :: List.replicate (m - (d + 1 + 1)) 0)[1]? =
        some 0 := by simp [List.replicate_succ]
    have hprev : (List.replicate (d + 1 + 1) 0 ++
        stop :: List.replicate (m - (d + 1 + 1)) 0)[1 - 1]? = some 0 := by
      simp [List.replicate_succ]
    have hset : (List.replicate (d + 1 + 1) 0 ++ stop :: List.replicate (m - (d + 1 + 1)) 0).set 1
        (0 + 1) = 0 :: List.replicate (1 + 0) 1 ++
          (List.replicate d 0 ++ stop :: List.replicate (m - (d + 1 + 1)) 0) := by
      simp [List.replicate_succ]
    have hrun := fillRun_ones 0 d stop (List.replicate (m - (d + 1 + 1)) 0) hstop m (by omega)
    rw [fillGaps, if_pos (by omega), hread, hprev]
    simp only [Option.bind_eq_bind, Option.bind_some, if_true, hset]
    obtain ⟨m, rfl⟩ := Nat.exists_eq_add_of_le' (by omega : 1 ≤ m)
    rw [show (1 + 1 : Nat) = 2 + 0 from rfl, hrun]
    simp only [Option.bind_some]
    rw [show 2 + 0 + d + 1 = (d + 1 + 1) + 1 by omega, hbehind _ (by simp; omega)]
    split
    next heq => rw [show 1 + 0 + d = m + 1 - 1 by omega]
    next => rfl

end

/-! ## Section 3: The loops on vertices without neighbours -/

/-- A round of the k-core loop for a vertex without neighbours only marks it. -/
theorem peelVertex_lonely {lists : Nat → List (List Nat)} {s : Arrays} {idx v : Nat}
    (hv : s.vert[idx]? = some v) (hnone : lists v = [[]]) (hdeg : v < s.degrees.length)
    (hfil : v < s.filtered.length) :
    peelVertex lists s idx =
      some ({ s with filtered := s.filtered.set v true }, ⟨true, v, [[]]⟩) := by
  have hread : s.degrees[v]? = some (s.degrees.getD v 0) := getElem?_eq_getD hdeg
  simp only [peelVertex, hv, hread, hnone, Option.bind_eq_bind, Option.bind_some,
    List.flatten_cons, List.flatten_nil, List.append_nil, List.foldlM_nil, Option.pure_def, guard,
    if_pos hfil]
  rfl

/-- The k-core loop over places where the unused vertex 0 stands. -/
theorem kcoreLoop_zeros {lists : Nat → List (List Nat)} {intSize stop : Nat} (hnone : lists 0 = [[]])
    (n fuel idx : Nat) {s : Arrays} (hn : stop = idx + n) (hfuel : n < fuel)
    (hstop : s.bin[intSize + 1]? = some stop)
    (hzero : ∀ i, idx ≤ i → i < stop → s.vert[i]? = some 0) (hdeg : 0 < s.degrees.length)
    (hfil : 0 < s.filtered.length) :
    ∃ filtered, kcoreLoop lists intSize fuel idx s =
        some (stop, { s with filtered }, List.replicate n ⟨true, 0, [[]]⟩) ∧
      ∀ v, v ≠ 0 → filtered.getD v false = s.filtered.getD v false := by
  induction n generalizing fuel idx s with
  | zero =>
    obtain ⟨fuel, rfl⟩ := Nat.exists_eq_succ_of_ne_zero (Nat.ne_of_gt hfuel)
    refine ⟨s.filtered, ?_, fun _ _ => rfl⟩
    rw [Nat.add_zero] at hn
    simp [kcoreLoop, hstop, hn]
  | succ n ih =>
    obtain ⟨fuel, rfl⟩ := Nat.exists_eq_succ_of_ne_zero (by omega : fuel ≠ 0)
    have hpeel := peelVertex_lonely (hzero idx (Nat.le_refl _) (by omega)) hnone hdeg hfil
    obtain ⟨filtered, hrun, hsame⟩ := ih fuel (idx + 1)
      (s := { s with filtered := s.filtered.set 0 true }) (by omega) (by omega) hstop
      (fun i hi => hzero i (by omega)) hdeg (by simpa using hfil)
    refine ⟨filtered, ?_, ?_⟩
    · simp only [kcoreLoop, hstop, hpeel, hrun, Option.bind_eq_bind, Option.bind_some,
        if_pos (by omega : idx < stop), List.replicate_succ]
      rfl
    · intro v hv
      rw [hsame v hv]
      simp [List.getD_eq_getElem?_getD, Ne.symm hv]

/-- The second loop runs through the rest of `vert`. -/
theorem remainingLoop_eq (lists : Nat → List (List Nat)) (s : Arrays) (n idx : Nat)
    (hn : idx + n = s.vert.length) :
    remainingLoop lists s n idx = some ((s.vert.drop idx).map fun v =>
      ⟨false, v, (lists v).map (unfiltered s.filtered)⟩) := by
  induction n generalizing idx with
  | zero =>
    have hle : s.vert.length ≤ idx := by omega
    simp [remainingLoop, hle]
  | succ n ih =>
    have hlt : idx < s.vert.length := by omega
    have hread := List.getElem?_eq_getElem hlt
    simp only [remainingLoop, hread, ih (idx + 1) (by omega), Option.bind_eq_bind, Option.bind_some,
      List.drop_eq_getElem_cons hlt, List.map_cons]
    rfl

/-! ## Section 4: The calls of the build from the database -/

/-- Vertex 0 over and over, then vertex 1. -/
def zeroCalls (vertexSize stop : Nat) : List Call :=
  List.replicate stop ⟨true, 0, [[]]⟩ ++
    (List.replicate (vertexSize - stop) ⟨false, 0, [[]]⟩ ++ [⟨false, 1, [[]]⟩])

theorem maxDegree_loadDegrees_le (vertexSize bound : Nat) (scan : List (Nat × List Nat)) :
    (loadDegrees vertexSize scan).maxDegree ≤ bound ↔ ∀ entry ∈ scan, entry.2.length ≤ bound := by
  induction scan using List.reverseRecOn with
  | nil => simp [loadDegrees_nil]
  | append_singleton scan entry ih =>
    rw [loadDegrees_concat vertexSize scan entry.1 entry.2, Nat.max_le, ih]
    simp only [List.mem_append, List.mem_singleton, or_imp, forall_and, forall_eq]
    exact And.comm

section

variable {vertexSize intSize v : Nat} {l order : List Nat} {scan : List (Nat × List Nat)}

theorem order_of_dbSorted (hsize : 1 ≤ vertexSize) (hl : l ≠ [])
    (hsorted : DbSorted vertexSize (scan ++ [(v, l)]) order) :
    order = List.replicate (vertexSize - 1) 0 ++ [1] := by
  obtain ⟨hperm, hsorted⟩ := hsorted
  rw [loadDegrees_concat] at hperm hsorted
  obtain ⟨n, rfl⟩ := Nat.exists_eq_add_of_le' hsize
  have hdeg : ∀ w, ((List.replicate (n + 1 + 1) 0).set 1 l.length).getD w 0 =
      if w = 1 then l.length else 0 := by
    intro w
    rw [getD_set _ (by simp)]
    congr 1
    simp only [List.getD_eq_getElem?_getD, List.getElem?_replicate]
    split <;> rfl
  have hpos : 1 ≤ l.length := List.length_pos_of_ne_nil hl
  apply eq_of_dbSorted hpos
  · simpa [List.replicate_succ] using hperm
  · exact hsorted.imp fun {a b} h => by simpa only [hdeg] using h

/-- Both loops on the array of the unused vertex and vertex 1. -/
theorem loops_single (hsize : 1 ≤ vertexSize) {m : Nat} (hm : 1 ≤ m) {s : Arrays}
    (hvert : s.vert = List.replicate vertexSize 0 ++ [1])
    (hbin : s.bin = 0 :: List.replicate (m - 1) 1 ++ [vertexSize]) (hdeg : 0 < s.degrees.length)
    (hfil : 0 < s.filtered.length) :
    (do
      let (idx, s, calls) ← kcoreLoop noLists intSize (vertexSize + 2) 0 s
      let rest ← remainingLoop noLists s (vertexSize + 1 - idx) idx
      return calls ++ rest) =
    if intSize + 1 ≤ m then
      some (zeroCalls vertexSize (if intSize + 1 < m then 1 else vertexSize))
    else none := by
  by_cases hle : intSize + 1 ≤ m
  · -- the bound of the k-core loop: one round, or all but the last place
    generalize hs : (if intSize + 1 < m then 1 else vertexSize) = stop
    have hstop : s.bin[intSize + 1]? = some stop := by
      rw [hbin, List.cons_append, List.getElem?_cons_succ, ← hs]
      split
      next hlt => rw [List.getElem?_append_left (by simp; omega), List.getElem?_replicate, if_pos (by omega)]
      next hge =>
        rw [List.getElem?_append_right (by simp; omega), List.length_replicate,
          show intSize - (m - 1) = 0 by omega]
        rfl
    have hle' : stop ≤ vertexSize := by
      rw [← hs]
      split <;> omega
    have hzero : ∀ i, 0 ≤ i → i < stop → s.vert[i]? = some 0 := by
      intro i _ hi
      rw [hvert, List.getElem?_append_left (by simp; omega), List.getElem?_replicate,
        if_pos (by omega)]
    obtain ⟨filtered, hrun, -⟩ := kcoreLoop_zeros (rfl : noLists 0 = [[]]) stop (vertexSize + 2) 0
      (by omega) (by omega) hstop hzero hdeg hfil
    have hrest := remainingLoop_eq noLists { s with filtered } (vertexSize + 1 - stop) stop
      (by simp [hvert]; omega)
    have hdrop : s.vert.drop stop = List.replicate (vertexSize - stop) 0 ++ [1] := by
      rw [hvert, List.drop_append_of_le_length (by simpa using hle'), List.drop_replicate]
    rw [hrun, if_pos hle]
    simp only [Option.bind_eq_bind, Option.bind_some, hrest, hdrop, List.map_append,
      List.map_replicate]
    rfl
  · have hnone : s.bin[intSize + 1]? = none := by
      rw [hbin]
      apply List.getElem?_eq_none
      simp
      omega
    simp [kcoreLoop, hnone, hle]

/-- The build from the database runs through when the last record has the largest
    degree and that degree is above `GetIntSize()`. -/
theorem dbEncodeCalls_concat (hsize : 1 ≤ vertexSize) (hl : l ≠ [])
    (hsorted : DbSorted vertexSize (scan ++ [(v, l)]) order) {m : Nat}
    (hm : (loadDegrees vertexSize (scan ++ [(v, l)])).maxDegree = m) :
    dbEncodeCalls vertexSize (scan ++ [(v, l)]) intSize order =
      if (vertexSize + 1 < 2 ^ 31 ∧ m + 1 < 2 ^ 31) ∧ l.length = m ∧ intSize + 1 ≤ m then
        some (zeroCalls vertexSize (if intSize + 1 < m then 1 else vertexSize))
      else none := by
  have horder := order_of_dbSorted hsize hl hsorted
  have hpos : 1 ≤ l.length := List.length_pos_of_ne_nil hl
  have hload := loadDegrees_concat vertexSize scan v l
  have hlm : l.length ≤ m := by
    rw [hload] at hm
    rw [← hm]
    exact Nat.le_max_left _ _
  have hdegrees : (loadDegrees vertexSize (scan ++ [(v, l)])).degrees =
      (List.replicate (vertexSize + 1) 0).set 1 l.length := by rw [hload]
  have hbin : initBin ((List.replicate (vertexSize + 1) 0).set 1 l.length) order 1 0
      (List.replicate (m + 1) 0) = (List.replicate (m + 1) 0).set l.length vertexSize := by
    rw [horder, initBin_replicate _ _ _ _ hpos, Nat.add_sub_of_le hsize]
    · simp [List.getD_eq_getElem?_getD]
    · rw [getD_set _ (by simp; omega), if_pos rfl]
  simp only [dbEncodeCalls, hm, hdegrees, hbin, fillGaps_single m l.length vertexSize hpos hlm
    (by omega), Option.bind_eq_bind]
  by_cases hguard : vertexSize + 1 < 2 ^ 31 ∧ m + 1 < 2 ^ 31
  · by_cases hlast : l.length = m
    · simp only [guard, Option.pure_def, hguard, hlast, true_and]
      refine loops_single hsize (m := m) (by omega) ?_ rfl ?_ ?_
      · change 0 :: order = _
        rw [horder, ← List.cons_append, ← List.replicate_succ, Nat.sub_add_cancel hsize]
      · simp
      · simp
    · simp only [guard, if_pos hguard, Option.pure_def, Option.bind_some, Option.bind_none, hlast,
        false_and, and_false, if_false]
  · have hnot : ¬((vertexSize + 1 < 2 ^ 31 ∧ m + 1 < 2 ^ 31) ∧ l.length = m ∧ intSize + 1 ≤ m) :=
      fun h => hguard h.1
    rw [if_neg hnot]
    simp only [guard, if_neg hguard]
    rfl

end

/-! ## Section 5: The calls of the build from memory -/

theorem of_initArrays {vertexSize : Nat} {lists : Nat → List (List Nat)} {order : List Nat}
    {s : Arrays} (h : initArrays vertexSize lists order = some s) :
    s.vert = 0 :: order ∧ s.filtered = List.replicate (vertexSize + 1) false := by
  unfold initArrays at h
  obtain ⟨bin, -, h⟩ := Option.bind_eq_some_iff.mp h
  obtain rfl := Option.some.inj h
  exact ⟨rfl, rfl⟩

/-- A round of the k-core loop adds a call for the vertex at `idx`. -/
theorem kcoreLoop_round {lists : Nat → List (List Nat)} {intSize fuel idx stop : Nat} {s : Arrays}
    {r : Nat × Arrays × List Call} (h : kcoreLoop lists intSize (fuel + 1) idx s = some r)
    (hstop : s.bin[intSize + 1]? = some stop) (hlt : idx < stop) :
    ∃ s₁ call r₁, peelVertex lists s idx = some (s₁, call) ∧
      kcoreLoop lists intSize fuel (idx + 1) s₁ = some r₁ ∧ r.2.2 = call :: r₁.2.2 ∧
      call.firstLoop = true ∧ s.vert[idx]? = some call.vertex := by
  simp only [kcoreLoop, hstop, Option.bind_eq_bind, Option.bind_some, if_pos hlt] at h
  obtain ⟨⟨s₁, call⟩, hpeel, h⟩ := Option.bind_eq_some_iff.mp h
  obtain ⟨⟨idx', s', calls⟩, hrest, h⟩ := Option.bind_eq_some_iff.mp h
  obtain rfl := Option.some.inj h
  refine ⟨s₁, call, _, hpeel, hrest, rfl, ?_⟩
  unfold peelVertex at hpeel
  obtain ⟨vertex, hvertex, hpeel⟩ := Option.bind_eq_some_iff.mp hpeel
  obtain ⟨degree, -, hpeel⟩ := Option.bind_eq_some_iff.mp hpeel
  obtain ⟨relaxed, -, hpeel⟩ := Option.bind_eq_some_iff.mp hpeel
  obtain ⟨-, -, hpeel⟩ := Option.bind_eq_some_iff.mp hpeel
  obtain ⟨-, rfl⟩ := Prod.mk.inj (Option.some.inj hpeel)
  exact ⟨rfl, hvertex⟩

section

variable {vertexSize intSize : Nat} {g : Graph vertexSize} {order : List Nat}
variable (horder : SortedOrder vertexSize g.lists order)
include horder

/-- Without degrees in `1 .. GetIntSize() + 1` only the unused vertex is peeled. -/
theorem encodeCalls_of_no_small (hsize : vertexSize + 1 < 2 ^ 31)
    (hdegrees : ∀ v, g.adj v ≠ [] → intSize + 1 < (g.adj v).length)
    (hedge : ∃ v, g.adj v ≠ []) :
    encodeCalls g intSize order =
      some (⟨true, 0, [[]]⟩ :: order.map fun v => ⟨false, v, [g.adj v]⟩) := by
  obtain ⟨s, hinit, hsized, -, -, -, hbin, -⟩ := initArrays_spec g.peelable horder
  obtain ⟨hvert, hfil⟩ := of_initArrays hinit
  have hmax : intSize + 1 < BucketPeeling.maxDegree vertexSize g.lists := by
    obtain ⟨v, hv⟩ := hedge
    have hle : v ≤ vertexSize := by
      by_contra hgt
      exact hv (g.adj_of_lt (by omega))
    have hdeg := degree_le_maxDegree g.peelable hle
    rw [degree, g.flatten_lists] at hdeg
    have := hdegrees v hv
    omega
  -- no small degree occurs, so the start at the bound is that of bucket 0 plus one
  have hnot : ∀ d, 1 ≤ d → d ≤ intSize + 1 → ¬ Occurs vertexSize g.lists d := by
    rintro d h₁ h₂ ⟨v, -, hv⟩
    rw [degree, g.flatten_lists] at hv
    have := hdegrees v (by intro hnil; simp [hnil] at hv; omega)
    omega
  have hstart : filledStart vertexSize g.lists (intSize + 1) = 1 := by
    obtain ⟨b, hb, hocc, -, heq⟩ :=
      filledStart_of_not_occurs g.peelable (hnot (intSize + 1) (by omega) (by omega))
    have hzero : b = 0 := by
      by_contra hne
      exact hnot b (by omega) (by omega) hocc
    rw [heq, hzero]
    simp [degreeBelow]
  have hstop : s.bin[intSize + 1]? = some 1 := by
    rw [getElem?_eq_getD (by rw [hsized.bin]; omega)]
    exact congrArg some ((hbin _ (by omega)).trans hstart)
  have hnone : g.lists 0 = [[]] := by rw [Graph.lists, g.adj_zero]
  -- the first loop passes vertex 0, which nothing else has taken out, and stops
  obtain ⟨filtered, hrun, hsame⟩ := kcoreLoop_zeros hnone 1 (vertexSize + 2) 0 (Nat.zero_add 1).symm (by omega) hstop
    (by
      intro i _ hi
      rw [hvert, show i = 0 by omega]
      rfl)
    (by rw [hsized.degrees]; omega) (by rw [hsized.filtered]; omega)
  have hrest := remainingLoop_eq g.lists { s with filtered } (vertexSize + 1 - 1) 1
    (by rw [hsized.vert]; omega)
  have hdrop : s.vert.drop 1 = order := by rw [hvert]; rfl
  have hkeep : ∀ v, unfiltered filtered (g.adj v) = g.adj v := by
    intro v
    apply List.filter_eq_self.mpr
    intro w hw
    rw [hsame w (by have := (Graph.mem_range hw).1; omega), hfil]
    simp only [List.getD_eq_getElem?_getD, List.getElem?_replicate]
    split <;> rfl
  have hguard : vertexSize + 1 < 2 ^ 31 ∧ BucketPeeling.maxDegree vertexSize g.lists + 1 < 2 ^ 31 :=
    ⟨hsize, maxDegree_lt g hsize⟩
  simp only [encodeCalls, peel, guard, if_pos hguard, Option.pure_def, Option.bind_eq_bind,
    Option.bind_some, hinit, hrun, hrest, hdrop]
  simp only [Graph.lists, List.map_cons, List.map_nil, hkeep]
  rfl

/-- The loop bound `bin[max_kcore + 1]` was read in bounds. -/
theorem le_maxDegree_of_encodeCalls {calls : List Call}
    (hcalls : encodeCalls g intSize order = some calls) :
    intSize + 1 ≤ BucketPeeling.maxDegree vertexSize g.lists := by
  obtain ⟨s, hinit, hsized, -⟩ := initArrays_spec g.peelable horder
  unfold encodeCalls peel at hcalls
  obtain ⟨-, -, hcalls⟩ := Option.bind_eq_some_iff.mp hcalls
  simp only [hinit, Option.bind_eq_bind, Option.bind_some] at hcalls
  obtain ⟨r, hrun, -⟩ := Option.bind_eq_some_iff.mp hcalls
  by_contra hgt
  have hshort : s.bin.length ≤ intSize + 1 := by
    rw [hsized.bin]
    omega
  rw [kcoreLoop_of_short g.lists hshort] at hrun
  cases hrun

/-- A vertex with a degree in `1 .. GetIntSize() + 1` beside the isolated vertex 1: the
    k-core loop goes past the unused vertex. -/
theorem peeled_of_small {calls : List Call} (hcalls : encodeCalls g intSize order = some calls)
    (hone : 1 ≤ vertexSize) (hisolated : g.adj 1 = []) {v : Nat} (hv : g.adj v ≠ [])
    (hsmall : (g.adj v).length ≤ intSize + 1) : ∃ w, w ≠ 0 ∧ Peeled calls w := by
  obtain ⟨s, hinit, hsized, -, -, -, hbin, -⟩ := initArrays_spec g.peelable horder
  obtain ⟨hvert, hfil⟩ := of_initArrays hinit
  have hle := le_maxDegree_of_encodeCalls horder hcalls
  unfold encodeCalls peel at hcalls
  obtain ⟨-, -, hcalls⟩ := Option.bind_eq_some_iff.mp hcalls
  simp only [hinit, Option.bind_eq_bind, Option.bind_some] at hcalls
  obtain ⟨⟨idx, s', first⟩, hrun, hcalls⟩ := Option.bind_eq_some_iff.mp hcalls
  obtain ⟨rest, -, hcalls⟩ := Option.bind_eq_some_iff.mp hcalls
  obtain rfl := Option.some.inj hcalls
  -- two vertices at least stand in front of the bucket of `GetIntSize() + 1`
  have hstart : 2 ≤ filledStart vertexSize g.lists (intSize + 1) := by
    have hpos : 1 ≤ (g.adj v).length := List.length_pos_of_ne_nil hv
    have hdeg : ∀ w, degree g.lists w = (g.adj w).length := fun w => by
      rw [degree, g.flatten_lists]
    by_cases hocc : Occurs vertexSize g.lists (intSize + 1)
    · rw [filledStart_of_occurs hocc]
      have hsub : {0, 1} ⊆ (Finset.range (vertexSize + 1)).filter fun w =>
          degree g.lists w < intSize + 1 := by
        intro w hw
        simp only [Finset.mem_insert, Finset.mem_singleton] at hw
        simp only [Finset.mem_filter, Finset.mem_range, hdeg]
        rcases hw with rfl | rfl
        · rw [g.adj_zero]
          exact ⟨by omega, by simp⟩
        · rw [hisolated]
          exact ⟨by omega, by simp⟩
      exact Finset.card_le_card hsub
    · obtain ⟨b, hb, -, hgap, heq⟩ := filledStart_of_not_occurs g.peelable hocc
      have hv' : v ≤ vertexSize := by
        by_contra hgt
        exact hv (g.adj_of_lt (by omega))
      have hbpos : 1 ≤ b := by
        by_contra hzero
        exact hgap _ (by omega) hsmall ⟨v, hv', hdeg v⟩
      have := degreeBelow_pos g.peelable hbpos
      omega
  have hstop : s.bin[intSize + 1]? = some (filledStart vertexSize g.lists (intSize + 1)) := by
    rw [getElem?_eq_getD (by rw [hsized.bin]; omega)]
    exact congrArg some (hbin _ hle)
  -- the first round takes the unused vertex, the second another one
  obtain ⟨s₁, call, r₁, hpeel, hrun₁, hfirst, -, -⟩ := kcoreLoop_round hrun hstop (by omega)
  have hzero : s.vert[0]? = some 0 := by rw [hvert]; rfl
  have hnone : g.lists 0 = [[]] := by rw [Graph.lists, g.adj_zero]
  have hlonely := peelVertex_lonely hzero hnone (by rw [hsized.degrees]; omega)
    (by rw [hsized.filtered]; omega)
  rw [hlonely] at hpeel
  obtain ⟨rfl, rfl⟩ := Prod.mk.inj (Option.some.inj hpeel)
  obtain ⟨s₂, call, r₂, -, -, hsecond, hfirstLoop, hread⟩ := kcoreLoop_round hrun₁ hstop (by omega)
  refine ⟨call.vertex, ?_, call, ?_, hfirstLoop, rfl⟩
  · change s.vert[1]? = some call.vertex at hread
    rw [hvert, List.getElem?_cons_succ] at hread
    have := (horder.mem_iff.mp (List.mem_of_getElem? hread)).1
    omega
  · change first = _ at hfirst
    rw [hfirst, hsecond]
    simp

end

end RangeVend

/-! ## Section 6: Records that were given nothing -/

namespace RangeEncode

open BitField BitSetSIMD

theorem word_fresh (c : Config) (i : Nat) : word (ofBitSize c.perEncodeBitSize) i = 0 :=
  blockGet_ofBitSize _ _ _

/-- A record that was never written answers nothing. -/
theorem testBits_fresh (c : Config) {w : Nat} (hw : 1 ≤ w) :
    testBits c (ofBitSize c.perEncodeBitSize) w = .uncertain := by
  have hflag : getFlag (ofBitSize c.perEncodeBitSize) = false := by simp [getFlag, word_fresh]
  have hne : w ≠ 0 := by omega
  simp [testBits, hflag, word_fresh, hne, Nat.pos_of_ne_zero hne]

/-- The record of an empty list denies every id. -/
theorem testBits_encodeBits_nil (c : Config) {w : Nat} (hw : 1 ≤ w) :
    testBits c (encodeBits c [] (ofBitSize c.perEncodeBitSize)) w = .nonNeighbor := by
  have hper := c.perEncodeBitSize_ge
  have hlen : (ofBitSize c.perEncodeBitSize).bitLength = c.perEncodeBitSize := isRecord_ofBitSize c
  have hclear : (ofBitSize c.perEncodeBitSize).clear = ofBitSize c.perEncodeBitSize := by
    simp [BitSetSIMD.clear, ofBitSize]
  generalize hencode : encodeBits c [] (ofBitSize c.perEncodeBitSize) = encode
  have hbit : encode.bit = store (ofBitSize c.perEncodeBitSize).bit 0 32 1 := by
    rw [← hencode]
    simp only [encodeBits, List.insertionSort_nil, List.length_nil, Nat.zero_le, if_true, hclear]
    exact bit_blockSet _ (by omega) (by omega) (by omega) (by omega) (by omega)
  have hword : ∀ i, word encode i = field encode.bit (i * 32) 32 :=
    fun i => blockGet_eq _ (by omega) (by omega)
  have hflag : getFlag encode = true := by
    have hzero : word encode 0 = 1 := by
      rw [hword, hbit, Nat.zero_mul]
      exact field_store_self _ (by omega)
    simp [getFlag, hzero]
  have hslots : w ∉ slots c encode := by
    intro hmem
    obtain ⟨i, hi, rfl⟩ := List.mem_map.mp hmem
    rw [List.mem_range'_1] at hi
    have hzero : word encode i = 0 := by
      rw [hword, hbit]
      apply field_eq_zero
      intro p hp _
      rw [store_outside _ (by omega), bit_ofBitSize]
    omega
  rw [testBits, if_pos hflag, if_neg hslots]

end RangeEncode

namespace HybridEncode

open BitField BitSetSIMD

theorem findBlock_of_zero {hsimd : Bool} {encode : BitSetSIMD} {start size n w : Nat} (hw : 1 ≤ w)
    (hzero : ∀ i, encode.blockGet (start + i * size) size = 0) :
    findBlock hsimd encode start size n w = .nonNeighbor := by
  cases hfind : findBlock hsimd encode start size n w with
  | nonNeighbor => rfl
  | uncertain => exact absurd hfind (findBlock_ne_uncertain _ _ _ _ _ _)
  | neighbor =>
    obtain ⟨i, -, heq⟩ := exists_slot_of_findBlock hw hfind
    rw [hzero] at heq
    omega

/-- A record that was never written denies every id: all of them are hashed. -/
theorem testBits_fresh (c : Config) (hsimd : Bool) {w : Nat} (hw : 1 ≤ w) :
    testBits c hsimd (ofBitSize c.perEncodeBitSize) w = .nonNeighbor := by
  have hone : ∀ p, (ofBitSize c.perEncodeBitSize).isOne p = false := by
    intro p
    rw [isOne_eq_bit, bit_ofBitSize]
  have hlog := c.logK_add_four_le
  have hnum : getBlockNum c (ofBitSize c.perEncodeBitSize) = 0 := by
    rw [getBlockNum, blockGet_ofBitSize]
    rfl
  have hrange : blockRange c (ofBitSize c.perEncodeBitSize) = (0, 0) := by
    simp [blockRange, hnum, getBlockModel, hone]
  have hbegin : ¬ 0 * c.vertexBitSize + 3 + c.logK = c.perEncodeBitSize := by omega
  simp only [testBits, hone, hnum, hrange, Bool.false_eq_true, if_false, hbegin, or_false,
    if_pos (show w < 0 ∨ w > 0 by omega)]

/-- The record of an empty list denies every id. -/
theorem testBits_encodeBits_nil {c : Config} (hpos : 0 < c.vertexBitSize) (hsimd : Bool) {w : Nat}
    (hw : 1 ≤ w) :
    testBits c hsimd (encodeBits c [] (ofBitSize c.perEncodeBitSize)) w = .nonNeighbor := by
  have hper := c.perEncodeBitSize_ge
  have hlen : (ofBitSize c.perEncodeBitSize).bitLength = c.perEncodeBitSize := isRecord_ofBitSize c
  have hencode : encodeBits c [] (ofBitSize c.perEncodeBitSize) =
      (ofBitSize c.perEncodeBitSize).setOne 0 := by simp [encodeBits, setSlots, blockSetList]
  have hbit : ∀ p, ((ofBitSize c.perEncodeBitSize).setOne 0).bit p =
      (decide (p = 0) || (ofBitSize c.perEncodeBitSize).bit p) := bit_setOne _ (by omega)
  have hflag : ((ofBitSize c.perEncodeBitSize).setOne 0).isOne 0 = true := by
    rw [isOne_eq_bit, hbit]
    rfl
  rw [hencode, testBits, if_pos hflag]
  apply findBlock_of_zero hw
  intro i
  rw [blockGet_eq _ hpos c.vertexBitSize_le]
  apply field_eq_zero
  intro p hp _
  rw [hbit, bit_ofBitSize]
  simp [show p ≠ 0 by omega]

end HybridEncode

namespace RangeVend

open BucketPeeling

/-- The records after the calls for vertices 0 and 1: one record of an empty list, the
    others as they were allocated. -/
theorem record_zeroCalls {c : Config} (encode : List Nat → BitSetSIMD → BitSetSIMD) (stop : Nat) :
    (encodeAll (fun v l rs => rs.update v (encode l)) (Records.fresh c)
        (zeroCalls c.vertexSize stop)).record 1 =
      encode [] (BitSetSIMD.ofBitSize c.perEncodeBitSize) ∧
    ∀ v, 2 ≤ v → v ≤ c.vertexSize →
      (encodeAll (fun v l rs => rs.update v (encode l)) (Records.fresh c)
        (zeroCalls c.vertexSize stop)).record v = BitSetSIMD.ofBitSize c.perEncodeBitSize := by
  have hne := c.vertexSize_ne
  have hsplit : zeroCalls c.vertexSize stop = (List.replicate stop ⟨true, 0, [[]]⟩ ++
      List.replicate (c.vertexSize - stop) ⟨false, 0, [[]]⟩) ++ [⟨false, 1, [[]]⟩] := by
    simp [zeroCalls]
  generalize hfront : List.replicate stop (⟨true, 0, [[]]⟩ : Call) ++
    List.replicate (c.vertexSize - stop) ⟨false, 0, [[]]⟩ = front at hsplit
  -- all calls but the last one are for vertex 0
  have hzero : ∀ call ∈ front, call.vertex = 0 := by
    intro call hcall
    rw [← hfront] at hcall
    rcases List.mem_append.mp hcall with h | h
    · rw [List.eq_of_mem_replicate h]
    · rw [List.eq_of_mem_replicate h]
  generalize hrs : front.foldl (fun rs call => rs.update call.vertex (encode (passed call)))
    (Records.fresh c) = rs
  have hsame : ∀ v, v ≠ 0 → rs.record v = (Records.fresh c).record v := by
    intro v hv
    rw [← hrs]
    apply Records.record_foldl_update_ne front Call.vertex (fun call => encode (passed call))
    intro call hcall
    rw [hzero call hcall]
    exact hv.symm
  have hlen : 1 < rs.length := by
    rw [← hrs, Records.length_foldl_update front Call.vertex fun call => encode (passed call),
      Records.length_fresh]
    omega
  have hrun : encodeAll (fun v l rs => rs.update v (encode l)) (Records.fresh c)
      (zeroCalls c.vertexSize stop) = rs.update 1 (encode []) := by
    rw [encodeAll, hsplit, List.foldl_append, hrs]
    rfl
  rw [hrun]
  constructor
  · rw [Records.record_update _ _ hlen, if_pos rfl, hsame 1 (by omega),
      Records.record_fresh (by omega)]
  · intro v hv hv'
    rw [Records.record_update _ _ hlen, if_neg (by omega), hsame v (by omega),
      Records.record_fresh hv']

theorem peeled_zeroCalls {vertexSize stop : Nat} (hstop : 1 ≤ stop) (v : Nat) :
    Peeled (zeroCalls vertexSize stop) v ↔ v = 0 := by
  constructor
  · rintro ⟨call, hcall, hfirst, rfl⟩
    simp only [zeroCalls, List.mem_append, List.mem_singleton] at hcall
    rcases hcall with h | h | h
    · rw [List.eq_of_mem_replicate h]
    · rw [List.eq_of_mem_replicate h]
    · rw [h] at hfirst
      cases hfirst
  · rintro rfl
    refine ⟨⟨true, 0, [[]]⟩, ?_, rfl, rfl⟩
    exact List.mem_append_left _ (List.mem_replicate.mpr ⟨by omega, rfl⟩)

/-! ## Section 7: When the builds agree -/

/-- The graphs on which the slips of the build from the database do not show: vertex 1 has
    no neighbours, every other degree is above `GetIntSize() + 1`, and the record scanned
    last has the largest degree. -/
structure LoadsAlike {vertexSize : Nat} (g : Graph vertexSize) (intSize : Nat)
    (scan : List (Nat × List Nat)) : Prop where
  size : vertexSize + 1 < 2 ^ 31
  isolated : g.adj 1 = []
  degrees : ∀ v, g.adj v ≠ [] → intSize + 1 < (g.adj v).length
  last : ∃ entry, scan.getLast? = some entry ∧ ∀ other ∈ scan, other.2.length ≤ entry.2.length

theorem mem_scan_iff {vertexSize : Nat} {g : Graph vertexSize} {scan : List (Nat × List Nat)}
    (hscan : Scans g scan) {v : Nat} {l : List Nat} :
    (v, l) ∈ scan ↔ g.adj v = l ∧ l ≠ [] := by
  rw [hscan.mem_iff, List.mem_map]
  constructor
  · rintro ⟨w, hw, heq⟩
    obtain ⟨rfl, rfl⟩ := Prod.mk.inj heq
    rw [List.mem_filter, decide_eq_true_eq] at hw
    exact ⟨rfl, hw.2⟩
  · rintro ⟨rfl, hne⟩
    refine ⟨v, ?_, rfl⟩
    rw [List.mem_filter, decide_eq_true_eq, List.mem_range'_1]
    refine ⟨?_, hne⟩
    obtain ⟨w, hw⟩ := List.exists_mem_of_ne_nil _ hne
    have := Graph.mem_range (Graph.mem_adj_comm.mp hw)
    omega

section

variable {c : Config} {g : Graph c.vertexSize} {order dbOrder : List Nat}
variable {scan : List (Nat × List Nat)} {intSize : Nat}
variable (horder : SortedOrder c.vertexSize g.lists order) (hscan : Scans g scan)
variable (hdb : DbSorted c.vertexSize scan dbOrder)
include hscan horder hdb

/-- What two builds that run through have in common, whatever the encoder. -/
theorem of_both_run {calls dbCalls : List Call} (hcalls : encodeCalls g intSize order = some calls)
    (hdbCalls : dbEncodeCalls c.vertexSize scan intSize dbOrder = some dbCalls) :
    (∃ v, g.adj v ≠ []) ∧ c.vertexSize + 1 < 2 ^ 31 ∧
    (∃ entry, scan.getLast? = some entry ∧ ∀ other ∈ scan, other.2.length ≤ entry.2.length) ∧
    ∃ stop, 1 ≤ stop ∧ dbCalls = zeroCalls c.vertexSize stop := by
  have hone : 1 ≤ c.vertexSize := Nat.one_le_iff_ne_zero.mpr c.vertexSize_ne
  have hedge : ∃ v, g.adj v ≠ [] := by
    have hle := le_maxDegree_of_encodeCalls horder hcalls
    obtain ⟨v, -, hv⟩ := occurs_maxDegree g.peelable
    refine ⟨v, fun hnil => ?_⟩
    rw [degree, g.flatten_lists, hnil, List.length_nil] at hv
    omega
  rcases List.eq_nil_or_concat' scan with rfl | ⟨front, ⟨v, l⟩, rfl⟩
  · obtain ⟨v, hv⟩ := hedge
    exact absurd ((mem_scan_iff hscan).mpr ⟨rfl, hv⟩) List.not_mem_nil
  · have hl := ((mem_scan_iff hscan).mp (List.mem_append_right front List.mem_cons_self)).2
    rw [dbEncodeCalls_concat hone hl hdb rfl] at hdbCalls
    split at hdbCalls
    next hcond =>
      obtain rfl := Option.some.inj hdbCalls
      refine ⟨hedge, hcond.1.1, ⟨(v, l), by simp, ?_⟩, _, ?_, rfl⟩
      · exact (maxDegree_loadDegrees_le _ _ _).mp (Nat.le_of_eq hcond.2.1.symm)
      · split
        · exact Nat.le_refl 1
        · exact hone
    next => cases hdbCalls

/-- Where the slips do not show, both builds run through. -/
theorem LoadsAlike.both_run (h : LoadsAlike g intSize scan) :
    encodeCalls g intSize order =
        some (⟨true, 0, [[]]⟩ :: order.map fun v => ⟨false, v, [g.adj v]⟩) ∧
      dbEncodeCalls c.vertexSize scan intSize dbOrder = some (zeroCalls c.vertexSize 1) := by
  have hone : 1 ≤ c.vertexSize := Nat.one_le_iff_ne_zero.mpr c.vertexSize_ne
  obtain ⟨⟨v, l⟩, hlast, hmax⟩ := h.last
  obtain ⟨front, rfl⟩ := List.getLast?_eq_some_iff.mp hlast
  obtain ⟨hadj, hl⟩ := (mem_scan_iff hscan).mp (List.mem_append_right front List.mem_cons_self)
  have hlong : intSize + 1 < l.length := by
    rw [← hadj] at hl ⊢
    exact h.degrees v hl
  refine ⟨encodeCalls_of_no_small horder h.size h.degrees ⟨v, hadj ▸ hl⟩, ?_⟩
  have hm : (loadDegrees c.vertexSize (front ++ [(v, l)])).maxDegree = l.length := by
    apply Nat.le_antisymm
    · exact (maxDegree_loadDegrees_le _ _ _).mpr hmax
    · exact (maxDegree_loadDegrees_le _ _ _).mp (Nat.le_refl _) (v, l)
        (List.mem_append_right front List.mem_cons_self)
  have hlt : l.length + 1 < 2 ^ 31 := by
    have hle := g.length_adj_le v
    rw [hadj] at hle
    have := h.size
    omega
  rw [dbEncodeCalls_concat hone hl hdb hm, if_pos ⟨⟨h.size, hlt⟩, rfl, by omega⟩, if_pos hlong]

end

section

variable {c : Config} {g : Graph c.vertexSize} {stop : Nat}

/-- `RangeEncode` after the build from the database: an edge of vertex 1 is denied. -/
theorem range_zeroCalls_denies {v : Nat} (hv : v ∈ g.adj 1) :
    RangeEncode.nePairTest c (encodeAll (RangeEncode.encodeVertex c) (Records.fresh c)
      (zeroCalls c.vertexSize stop)) 1 v = .nonNeighbor := by
  obtain ⟨hrange, hle⟩ := Graph.mem_range hv
  have hne : v ≠ 1 := by
    rintro rfl
    exact Graph.not_mem_adj_self hv
  obtain ⟨hfirst, hother⟩ := record_zeroCalls (c := c) (RangeEncode.encodeBits c) stop
  rw [RangeEncode.nePairTest_eq_min, RangeEncode.nonNeighborTest, RangeEncode.nonNeighborTest]
  unfold RangeEncode.encodeVertex
  rw [hfirst, hother v (by omega) hle, RangeEncode.testBits_encodeBits_nil c hrange,
    RangeEncode.testBits_fresh c (Nat.le_refl 1)]
  rfl

/-- The other edges are uncertain. -/
theorem range_zeroCalls_uncertain (hisolated : g.adj 1 = []) {u v : Nat} (hv : v ∈ g.adj u) :
    RangeEncode.nePairTest c (encodeAll (RangeEncode.encodeVertex c) (Records.fresh c)
      (zeroCalls c.vertexSize stop)) u v = .uncertain := by
  obtain ⟨hv₁, hv₂⟩ := Graph.mem_range hv
  obtain ⟨hu₁, hu₂⟩ := Graph.mem_range (Graph.mem_adj_comm.mp hv)
  have hu : u ≠ 1 := by
    rintro rfl
    simp [hisolated] at hv
  have hv' : v ≠ 1 := by
    rintro rfl
    have := Graph.mem_adj_comm.mp hv
    simp [hisolated] at this
  obtain ⟨-, hother⟩ := record_zeroCalls (c := c) (RangeEncode.encodeBits c) stop
  rw [RangeEncode.nePairTest_eq_min, RangeEncode.nonNeighborTest, RangeEncode.nonNeighborTest]
  unfold RangeEncode.encodeVertex
  rw [hother u (by omega) hu₂, hother v (by omega) hv₂, RangeEncode.testBits_fresh c hu₁,
    RangeEncode.testBits_fresh c hv₁]
  rfl

/-- `HybridEncode` after the build from the database: every edge is denied. -/
theorem hybrid_zeroCalls_denies (hsimd : Bool) {u v : Nat} (hv : v ∈ g.adj u) :
    HybridEncode.nePairTest c hsimd (encodeAll (HybridEncode.encodeVertex c) (Records.fresh c)
      (zeroCalls c.vertexSize stop)) u v = .nonNeighbor := by
  obtain ⟨hv₁, hv₂⟩ := Graph.mem_range hv
  obtain ⟨hu₁, hu₂⟩ := Graph.mem_range (Graph.mem_adj_comm.mp hv)
  have hne : u ≠ v := by
    rintro rfl
    exact Graph.not_mem_adj_self hv
  have hbits : 0 < c.vertexBitSize := Nat.clog_pos (by omega) (by omega)
  obtain ⟨hfirst, hother⟩ := record_zeroCalls (c := c) (HybridEncode.encodeBits c) stop
  -- whichever record is asked, its answer is the same
  have htest : ∀ x w, 1 ≤ x → x ≤ c.vertexSize → 1 ≤ w →
      HybridEncode.nonNeighborTest c hsimd (encodeAll (HybridEncode.encodeVertex c)
        (Records.fresh c) (zeroCalls c.vertexSize stop)) x w = .nonNeighbor := by
    intro x w hx hx' hw
    unfold HybridEncode.nonNeighborTest HybridEncode.encodeVertex
    rcases Nat.eq_or_lt_of_le hx with rfl | hx
    · rw [hfirst, HybridEncode.testBits_encodeBits_nil hbits hsimd hw]
    · rw [hother x hx hx', HybridEncode.testBits_fresh c hsimd hw]
  rw [HybridEncode.nePairTest_eq_combine, htest u v hu₁ hu₂ hv₁, htest v u hv₁ hv₂ hu₁]
  cases HybridEncode.isDecodable _ u <;> cases HybridEncode.isDecodable _ v <;> rfl

end

/-- The calls from memory when only the unused vertex is peeled. -/
theorem covered_of_zero_peeled {vertexSize intSize : Nat} {g : Graph vertexSize} {order : List Nat}
    (horder : SortedOrder vertexSize g.lists order) :
    Covered g intSize (⟨true, 0, [[]]⟩ :: order.map fun v => ⟨false, v, [g.adj v]⟩)
      (fun v => decide (v = 0)) fun _ _ => true := by
  have hpos : ∀ v ∈ order, v ≠ 0 := fun v hv => by
    have := (horder.mem_iff.mp hv).1
    omega
  constructor
  · have hvertices : (order.map fun v => (⟨false, v, [g.adj v]⟩ : Call)).map Call.vertex = order := by
      rw [List.map_map]
      exact List.map_id order
    rw [List.map_cons, hvertices, List.range_eq_range', List.range'_succ]
    exact horder.perm.cons 0
  · intro call hcall
    rcases List.mem_cons.mp hcall with rfl | hcall
    · simp [Graph.lists, g.adj_zero]
    · obtain ⟨v, hv, rfl⟩ := List.mem_map.mp hcall
      simp [Graph.lists, hpos v hv]
  · intro call hcall hfirst
    rcases List.mem_cons.mp hcall with rfl | hcall
    · simp
    · obtain ⟨v, hv, rfl⟩ := List.mem_map.mp hcall
      cases hfirst
  · intro v _ w _ hne
    by_cases hv : v = 0
    · simp [hv]
    · by_cases hw : w = 0
      · simp [hw]
      · simp [hv, hw]

/-- With `RangeEncode` the builds agree exactly where the slips do not show; with
    `HybridEncode` they never do. -/
theorem builds_agree_iff {c : Config} {g : Graph c.vertexSize} {order dbOrder : List Nat}
    {scan : List (Nat × List Nat)} (horder : SortedOrder c.vertexSize g.lists order)
    (hscan : Scans g scan) (hdb : DbSorted c.vertexSize scan dbOrder) :
    (BuildsAgree g (RangeEncode.getIntSize c) (RangeEncode.encodeVertex c)
        (RangeEncode.nePairTest c) order scan dbOrder →
      LoadsAlike g (RangeEncode.getIntSize c) scan) ∧
    (RangeEncode.Ranged c → LoadsAlike g (RangeEncode.getIntSize c) scan →
      BuildsAgree g (RangeEncode.getIntSize c) (RangeEncode.encodeVertex c)
        (RangeEncode.nePairTest c) order scan dbOrder) ∧
    ∀ hsimd, ¬ BuildsAgree g (HybridEncode.getIntSize c) (HybridEncode.encodeVertex c)
      (HybridEncode.nePairTest c hsimd) order scan dbOrder := by
  have hone : 1 ≤ c.vertexSize := Nat.one_le_iff_ne_zero.mpr c.vertexSize_ne
  refine ⟨?_, ?_, ?_⟩
  · -- the records of both builds are known once both return
    rintro ⟨calls, dbCalls, hcalls, hdbCalls, -, hkeeps, hpeeled⟩
    obtain ⟨-, hsize, hlast, stop, hstop, rfl⟩ := of_both_run horder hscan hdb hcalls hdbCalls
    have hisolated : g.adj 1 = [] := by
      by_contra hne
      obtain ⟨v, hv⟩ := List.exists_mem_of_ne_nil _ hne
      exact hkeeps 1 v hv (range_zeroCalls_denies hv)
    refine ⟨hsize, hisolated, ?_, hlast⟩
    intro v hv
    by_contra hsmall
    obtain ⟨w, hw, hpeel⟩ := peeled_of_small horder hcalls hone hisolated hv (by omega)
    exact hw ((peeled_zeroCalls hstop w).mp ((hpeeled w).mp hpeel))
  · intro hc hload
    obtain ⟨hcalls, hdbCalls⟩ := hload.both_run horder hscan hdb
    refine ⟨_, _, hcalls, hdbCalls, ?_, ?_, ?_⟩
    · intro u v hv hnon
      obtain ⟨hv₁, hv₂⟩ := Graph.mem_range hv
      obtain ⟨hu₁, hu₂⟩ := Graph.mem_range (Graph.mem_adj_comm.mp hv)
      have hne : u ≠ v := by
        rintro rfl
        exact Graph.not_mem_adj_self hv
      have hcover : Covered g (RangeEncode.getIntSize c) _ _ _ := covered_of_zero_peeled horder
      exact (range_agrees_of_covered hc hcover u v hu₁ hu₂ hv₁ hv₂ hne).1 hnon hv
    · intro u v hv
      rw [range_zeroCalls_uncertain hload.isolated hv]
      simp
    · intro v
      rw [peeled_zeroCalls (Nat.le_refl 1)]
      constructor
      · rintro ⟨call, hcall, hfirst, rfl⟩
        rcases List.mem_cons.mp hcall with rfl | hcall
        · rfl
        · obtain ⟨v, hv, rfl⟩ := List.mem_map.mp hcall
          cases hfirst
      · rintro rfl
        exact ⟨_, List.mem_cons_self, rfl, rfl⟩
  · -- an edge is enough: its record in the database build is that of the empty list
    rintro hsimd ⟨calls, dbCalls, hcalls, hdbCalls, -, hkeeps, -⟩
    obtain ⟨⟨u, hu⟩, -, -, stop, -, rfl⟩ := of_both_run horder hscan hdb hcalls hdbCalls
    obtain ⟨v, hv⟩ := List.exists_mem_of_ne_nil _ hu
    exact hkeeps u v hv (hybrid_zeroCalls_denies hsimd hv)

/-- Six vertices and three words for each. -/
def sixConfig : Config := Config.ofSizes 3 6 3 (by decide)

/-- The complete graph on `2 .. 6` beside the isolated vertex 1. -/
def cliqueBesideOne : Graph 6 where
  adjacencyList := [] :: [] :: (List.range' 2 5).map fun v => (List.range' 2 5).filter (· ≠ v)
  zero := by decide
  length := by decide
  range := by decide
  loopless := by decide
  nodup := by decide
  symm := by decide

/-- The records of a graph in the order of their ids. -/
def scanOf {vertexSize : Nat} (g : Graph vertexSize) : List (Nat × List Nat) :=
  ((List.range' 1 vertexSize).filter fun v => g.adj v ≠ []).map fun v => (v, g.adj v)

theorem builds_agree_beside_one :
    BuildsAgree (c := sixConfig) cliqueBesideOne 2 (RangeEncode.encodeVertex sixConfig)
      (RangeEncode.nePairTest sixConfig) [1, 2, 3, 4, 5, 6] (scanOf cliqueBesideOne)
      [0, 0, 0, 0, 0, 1] := by
  have hload : LoadsAlike cliqueBesideOne 2 (scanOf cliqueBesideOne) := by
    refine ⟨by decide, by decide, ?_, (6, [2, 3, 4, 5]), by decide, by decide⟩
    intro v hv
    have hle : v ≤ 6 := by
      by_contra hgt
      exact hv (cliqueBesideOne.adj_of_lt (by omega))
    interval_cases v <;> first | exact absurd rfl hv | decide
  exact (builds_agree_iff (c := sixConfig) (by decide +kernel) (List.Perm.refl _)
    ⟨by decide, by decide⟩).2.1 ⟨by decide, by decide, by decide⟩ hload

/-- A run of the build from the database that denies an edge is enough. -/
theorem not_buildsAgree {c : Config} {g : Graph c.vertexSize} {intSize : Nat}
    {encodeVertex : Nat → List Nat → Records → Records}
    {nePairTest : Records → Nat → Nat → PairType} {order dbOrder : List Nat}
    {scan : List (Nat × List Nat)} {u v : Nat} (hv : v ∈ g.adj u)
    (hrun : (dbEncodeCalls c.vertexSize scan intSize dbOrder).map (fun calls =>
      nePairTest (encodeAll encodeVertex (Records.fresh c) calls) u v) = some .nonNeighbor) :
    ¬ BuildsAgree g intSize encodeVertex nePairTest order scan dbOrder := by
  rintro ⟨-, dbCalls, -, hdbCalls, -, hkeeps, -⟩
  rw [hdbCalls, Option.map_some] at hrun
  exact hkeeps u v hv (Option.some.inj hrun)

/-- On complete graphs both builds run through, and the one from the database denies the
    edge between vertices 1 and 2. -/
theorem clique_edge_denied :
    (RangeEncode.Ranged fiveConfig ∧ SortedOrder 5 fiveClique.lists [1, 2, 3, 4, 5] ∧
      Scans fiveClique (scanOf fiveClique) ∧ DbSorted 5 (scanOf fiveClique) [0, 0, 0, 0, 1] ∧
      (encodeCalls fiveClique 3 [1, 2, 3, 4, 5]).isSome ∧ 2 ∈ fiveClique.adj 1 ∧
      (dbEncodeCalls 5 (scanOf fiveClique) 3 [0, 0, 0, 0, 1]).map (fun calls =>
        RangeEncode.nePairTest fiveConfig (encodeAll (RangeEncode.encodeVertex fiveConfig)
          (Records.fresh fiveConfig) calls) 1 2) = some .nonNeighbor ∧
      ¬ BuildsAgree (c := fiveConfig) fiveClique 3 (RangeEncode.encodeVertex fiveConfig)
        (RangeEncode.nePairTest fiveConfig) [1, 2, 3, 4, 5] (scanOf fiveClique)
        [0, 0, 0, 0, 1]) ∧
    (tenConfig.Packed ∧ SortedOrder 10 tenClique.lists (List.range' 1 10) ∧
      Scans tenClique (scanOf tenClique) ∧
      DbSorted 10 (scanOf tenClique) [0, 0, 0, 0, 0, 0, 0, 0, 0, 1] ∧
      (encodeCalls tenClique 6 (List.range' 1 10)).isSome ∧ 2 ∈ tenClique.adj 1 ∧
      (dbEncodeCalls 10 (scanOf tenClique) 6 [0, 0, 0, 0, 0, 0, 0, 0, 0, 1]).map (fun calls =>
        HybridEncode.nePairTest tenConfig false (encodeAll (HybridEncode.encodeVertex tenConfig)
          (Records.fresh tenConfig) calls) 1 2) = some .nonNeighbor ∧
      ¬ BuildsAgree (c := tenConfig) tenClique 6 (HybridEncode.encodeVertex tenConfig)
        (HybridEncode.nePairTest tenConfig false) (List.range' 1 10) (scanOf tenClique)
        [0, 0, 0, 0, 0, 0, 0, 0, 0, 1]) := by
  have hfive : (dbEncodeCalls 5 (scanOf fiveClique) 3 [0, 0, 0, 0, 1]).map (fun calls =>
      RangeEncode.nePairTest fiveConfig (encodeAll (RangeEncode.encodeVertex fiveConfig)
        (Records.fresh fiveConfig) calls) 1 2) = some .nonNeighbor := by decide +kernel
  have hten : (dbEncodeCalls 10 (scanOf tenClique) 6 [0, 0, 0, 0, 0, 0, 0, 0, 0, 1]).map
      (fun calls => HybridEncode.nePairTest tenConfig false (encodeAll
        (HybridEncode.encodeVertex tenConfig) (Records.fresh tenConfig) calls) 1 2) =
      some .nonNeighbor := by decide +kernel
  constructor
  · exact ⟨fiveConfig_ranged, by decide +kernel, List.Perm.refl _, ⟨by decide, by decide⟩,
      by decide +kernel, by decide, hfive, not_buildsAgree (c := fiveConfig) (by decide) hfive⟩
  · exact ⟨tenConfig_packed, by decide +kernel, List.Perm.refl _, ⟨by decide, by decide +kernel⟩,
      by decide +kernel, by decide, hten, not_buildsAgree (c := tenConfig) (by decide) hten⟩

end RangeVend

end Vend
