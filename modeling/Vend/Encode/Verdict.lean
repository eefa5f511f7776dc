import Vend.Graph.Graph
import Vend.Util.BitSetSIMD

/-! # Verdicts from two records

    An encoder answers a query about a pair from two records, one for each
    endpoint, and each record gives a verdict about the other endpoint. This
    module says, apart from any encoding, when the combined verdict can be
    trusted: a record must be exact up to `Uncertain` about the ids it was given
    (`Speaks`), and for every edge the records together must know enough
    (`combine_ne_nonNeighbor`).

    It also holds the array of records that the encoders share, and the state of
    an encoder whose graph changes under it.
-/

namespace Vend

/-! ## Section 1: Combining two verdicts -/

/-- The case split of `NEpairTest`: a decodable record is trusted alone when the
    other one is not decodable. -/
def combine (decodable₁ decodable₂ : Bool) (type₁ type₂ : PairType) : PairType :=
  match decodable₁, decodable₂ with
  | true, false => type₁
  | false, true => type₂
  | _, _ => PairType.min type₁ type₂

/-- What a record says about an id, given whether the id was stored in it. -/
structure Speaks (decodable : Bool) (stored : Prop) (type : PairType) : Prop where
  stored_of_neighbor : type = .neighbor → stored
  ne_nonNeighbor : stored → type ≠ .nonNeighbor
  ne_uncertain : decodable = true → type ≠ .uncertain

theorem Speaks.eq_neighbor {stored : Prop} {type : PairType} (h : Speaks true stored type)
    (hs : stored) : type = .neighbor := by
  have h₁ := h.ne_nonNeighbor hs
  have h₂ := h.ne_uncertain rfl
  cases type <;> simp_all

theorem combine_ne_nonNeighbor {d₁ d₂ : Bool} {s₁ s₂ : Prop} {t₁ t₂ : PairType}
    (h₁ : Speaks d₁ s₁ t₁) (h₂ : Speaks d₂ s₂ t₂)
    (hcover : (d₁ = true ∧ s₁) ∨ (d₂ = true ∧ s₂) ∨ (s₁ ∧ s₂)) :
    combine d₁ d₂ t₁ t₂ ≠ .nonNeighbor := by
  -- a decodable record with the id says `Neighbor`; two records with it never deny it
  rcases hcover with ⟨rfl, hs⟩ | ⟨rfl, hs⟩ | ⟨hs₁, hs₂⟩
  · rw [h₁.eq_neighbor hs]
    cases d₂ <;> simp [combine]
  · rw [h₂.eq_neighbor hs]
    cases d₁ <;> simp [combine]
  · have hne₁ := h₁.ne_nonNeighbor hs₁
    have hne₂ := h₂.ne_nonNeighbor hs₂
    intro hcomb
    cases d₁ <;> cases d₂
    case false.true => exact hne₂ hcomb
    case true.false => exact hne₁ hcomb
    all_goals
      rcases PairType.min_eq_nonNeighbor hcomb with ⟨heq, -⟩ | ⟨heq, -⟩
      · exact hne₁ heq
      · exact hne₂ heq

theorem stored_of_combine_neighbor {d₁ d₂ : Bool} {s₁ s₂ : Prop} {t₁ t₂ : PairType}
    (h₁ : Speaks d₁ s₁ t₁) (h₂ : Speaks d₂ s₂ t₂)
    (hcomb : combine d₁ d₂ t₁ t₂ = .neighbor) : s₁ ∨ s₂ := by
  cases d₁ <;> cases d₂
  case false.true => exact Or.inr (h₂.stored_of_neighbor hcomb)
  case true.false => exact Or.inl (h₁.stored_of_neighbor hcomb)
  all_goals
    rcases PairType.min_eq_neighbor hcomb with heq | heq
    · exact Or.inl (h₁.stored_of_neighbor heq)
    · exact Or.inr (h₂.stored_of_neighbor heq)

/-- The smaller verdict, whichever record is decodable: an edge is not denied. -/
theorem min_ne_nonNeighbor {d₁ d₂ : Bool} {s₁ s₂ : Prop} {t₁ t₂ : PairType}
    (h₁ : Speaks d₁ s₁ t₁) (h₂ : Speaks d₂ s₂ t₂)
    (hcover : (d₁ = true ∧ s₁) ∨ (d₂ = true ∧ s₂) ∨ (s₁ ∧ s₂)) :
    PairType.min t₁ t₂ ≠ .nonNeighbor := by
  -- as for `combine`, where only the third case asks both records
  rcases hcover with ⟨rfl, hs⟩ | ⟨rfl, hs⟩ | ⟨hs₁, hs₂⟩
  · simp [h₁.eq_neighbor hs]
  · simp [h₂.eq_neighbor hs]
  · intro hmin
    rcases PairType.min_eq_nonNeighbor hmin with ⟨heq, -⟩ | ⟨heq, -⟩
    · exact h₁.ne_nonNeighbor hs₁ heq
    · exact h₂.ne_nonNeighbor hs₂ heq

theorem stored_of_min_neighbor {d₁ d₂ : Bool} {s₁ s₂ : Prop} {t₁ t₂ : PairType}
    (h₁ : Speaks d₁ s₁ t₁) (h₂ : Speaks d₂ s₂ t₂) (hmin : PairType.min t₁ t₂ = .neighbor) :
    s₁ ∨ s₂ := by
  rcases PairType.min_eq_neighbor hmin with heq | heq
  · exact Or.inl (h₁.stored_of_neighbor heq)
  · exact Or.inr (h₂.stored_of_neighbor heq)

theorem PairType.min_comm (a b : PairType) : PairType.min a b = PairType.min b a := by
  cases a <;> cases b <;> rfl

theorem combine_comm (d₁ d₂ : Bool) (t₁ t₂ : PairType) :
    combine d₁ d₂ t₁ t₂ = combine d₂ d₁ t₂ t₁ := by
  cases d₁ <;> cases d₂ <;> simp [combine, PairType.min_comm t₁ t₂]

@[simp] theorem combine_true_neighbor (d : Bool) (t : PairType) :
    combine true d .neighbor t = .neighbor := by
  cases d <;> simp [combine]

theorem combine_ne_of_ne {d₁ d₂ : Bool} {t₁ t₂ : PairType} (h₁ : t₁ ≠ .nonNeighbor)
    (h₂ : t₂ ≠ .nonNeighbor) : combine d₁ d₂ t₁ t₂ ≠ .nonNeighbor := by
  cases d₁ <;> cases d₂ <;> cases t₁ <;> cases t₂ <;> simp_all [combine, PairType.min, PairType.val]

theorem combine_ne_neighbor {d₁ d₂ : Bool} {t₁ t₂ : PairType} (h₁ : t₁ ≠ .neighbor)
    (h₂ : t₂ ≠ .neighbor ∨ (d₁ = true ∧ d₂ = false)) : combine d₁ d₂ t₁ t₂ ≠ .neighbor := by
  rcases h₂ with h₂ | ⟨rfl, rfl⟩
  · cases d₁ <;> cases d₂ <;> cases t₁ <;> cases t₂ <;>
      simp_all [combine, PairType.min, PairType.val]
  · exact h₁

/-! ## Section 2: The array of records -/

/-- A record of `PER_ENCODE_BIT_SIZE` bits. -/
def IsRecord (c : Config) (bitset : BitSetSIMD) : Prop := bitset.bitLength = c.perEncodeBitSize

/-- A list of ids that the slots can hold. -/
def IdList (c : Config) (ids : List Nat) : Prop := ∀ id ∈ ids, 1 ≤ id ∧ id ≤ c.vertexSize

theorem isRecord_ofBitSize (c : Config) : IsRecord c (BitSetSIMD.ofBitSize c.perEncodeBitSize) := by
  simp only [IsRecord, BitSetSIMD.bitLength, BitSetSIMD.length_ofBitSize, Config.perEncodeBitSize]
  omega

/-- `encode_bitset_`: one record for each of the ids `0 .. VERTEX_SIZE`. -/
abbrev Records : Type := List BitSetSIMD

/-- `enum class EncodeType { UnFull = 0, Full = 1, NonDecodable = 2 }`. -/
inductive EncodeType where
  | unFull
  | full
  | nonDecodable
  deriving DecidableEq, Repr

/-- The value of the enumerator. -/
def EncodeType.val : EncodeType → Nat
  | .unFull => 0
  | .full => 1
  | .nonDecodable => 2

namespace Records

/-- `VERTEX_SIZE + 1` cleared records. -/
def fresh (c : Config) : Records :=
  List.replicate (c.vertexSize + 1) (BitSetSIMD.ofBitSize c.perEncodeBitSize)

/-- `encode_bitset_[vertex]`. -/
def record (rs : Records) (vertex : Nat) : BitSetSIMD := rs.getD vertex (BitSetSIMD.ofBitSize 0)

/-- Rewrite the record of one vertex. -/
def update (rs : Records) (vertex : Nat) (f : BitSetSIMD → BitSetSIMD) : Records :=
  rs.set vertex (f (rs.record vertex))

@[simp] theorem length_update (rs : Records) (vertex : Nat) (f : BitSetSIMD → BitSetSIMD) :
    (rs.update vertex f).length = rs.length := by
  simp [update]

theorem record_update (rs : Records) {vertex : Nat} (f : BitSetSIMD → BitSetSIMD)
    (hv : vertex < rs.length) (w : Nat) :
    (rs.update vertex f).record w = if w = vertex then f (rs.record vertex) else rs.record w := by
  unfold update record
  by_cases hw : w = vertex
  · subst hw
    simp [List.getD_eq_getElem?_getD, hv]
  · have hne : vertex ≠ w := fun h => hw h.symm
    simp [List.getD_eq_getElem?_getD, hw, hne]

/-- An array of records is its records. -/
theorem eq_of_record {rs rs' : Records} (hlen : rs.length = rs'.length)
    (h : ∀ v < rs.length, rs.record v = rs'.record v) : rs = rs' := by
  apply List.ext_getElem hlen
  intro v hv hv'
  have := h v hv
  rwa [record, record, List.getD_eq_getElem _ _ hv, List.getD_eq_getElem _ _ hv'] at this

theorem record_fresh {c : Config} {v : Nat} (hv : v ≤ c.vertexSize) :
    (fresh c).record v = BitSetSIMD.ofBitSize c.perEncodeBitSize := by
  have hlt : v < c.vertexSize + 1 := by omega
  simp [fresh, record, List.getD_eq_getElem?_getD, hlt]

@[simp] theorem length_fresh (c : Config) : (fresh c).length = c.vertexSize + 1 := by
  simp [fresh]

theorem lt_length_fresh {c : Config} {v : Nat} (hv : v ≤ c.vertexSize) : v < (fresh c).length := by
  rw [length_fresh]
  omega

theorem length_foldl_update {α : Type} (calls : List α) (vertex : α → Nat)
    (f : α → BitSetSIMD → BitSetSIMD) (rs : Records) :
    (calls.foldl (fun rs c => rs.update (vertex c) (f c)) rs).length = rs.length := by
  induction calls generalizing rs with
  | nil => rfl
  | cons c calls ih => rw [List.foldl_cons, ih, length_update]

/-- A run of rewrites leaves the records of the other vertices alone. -/
theorem record_foldl_update_ne {α : Type} (calls : List α) (vertex : α → Nat)
    (f : α → BitSetSIMD → BitSetSIMD) (rs : Records) {v : Nat} (hv : ∀ c ∈ calls, vertex c ≠ v) :
    (calls.foldl (fun rs c => rs.update (vertex c) (f c)) rs).record v = rs.record v := by
  induction calls generalizing rs with
  | nil => rfl
  | cons c calls ih =>
    rw [List.foldl_cons, ih _ fun c' hc' => hv c' (List.mem_cons_of_mem c hc')]
    simp [update, record, List.getD_eq_getElem?_getD, hv c List.mem_cons_self]

/-- A run of rewrites, each of another vertex, rewrites every record once. -/
theorem record_foldl_update {α : Type} (calls : List α) (vertex : α → Nat)
    (f : α → BitSetSIMD → BitSetSIMD) (rs : Records) (hnodup : (calls.map vertex).Nodup)
    (hlt : ∀ c ∈ calls, vertex c < rs.length) {c : α} (hc : c ∈ calls) :
    (calls.foldl (fun rs c => rs.update (vertex c) (f c)) rs).record (vertex c) =
      f c (rs.record (vertex c)) := by
  induction calls generalizing rs with
  | nil => cases hc
  | cons first calls ih =>
    rw [List.map_cons, List.nodup_cons] at hnodup
    obtain ⟨hnot, hnodup'⟩ := hnodup
    have hfirst := hlt first (by simp)
    rw [List.foldl_cons]
    -- the calls behind leave the record of `c` alone, or `c` is one of them
    rcases List.mem_cons.mp hc with rfl | hc'
    · have hne : ∀ c' ∈ calls, vertex c' ≠ vertex c :=
        fun c' hc' heq => hnot (heq ▸ List.mem_map_of_mem hc')
      rw [record_foldl_update_ne _ _ _ _ hne, record_update _ _ hfirst, if_pos rfl]
    · have hne : vertex c ≠ vertex first := fun heq => hnot (heq ▸ List.mem_map_of_mem hc')
      have hlt' : ∀ c' ∈ calls, vertex c' < (rs.update (vertex first) (f first)).length := by
        intro c' hc'
        rw [length_update]
        exact hlt c' (by simp [hc'])
      rw [ih _ hnodup' hlt' hc', record_update _ _ hfirst, if_neg hne]

/-- The records that the constructor of `EncodeBitSet` allocates. Their number
    `VERTEX_SIZE + 1` is computed in `uint32_t`. -/
def constructed (c : Config) : Records :=
  List.replicate c.vertexIdUpper (BitSetSIMD.ofBitSize c.perEncodeBitSize)

/-- Rewrite the record of one vertex, which has to be there: `encode_bitset_[vertex]`
    behind the end of the array has no defined result. -/
def updateAt (rs : Records) (vertex : Nat) (f : BitSetSIMD → BitSetSIMD) : Option Records :=
  if vertex < rs.length then some (rs.update vertex f) else none

theorem constructed_eq {c : Config} (hv : c.vertexSize + 1 < 2 ^ 32) : constructed c = fresh c := by
  rw [constructed, Config.vertexIdUpper, Nat.mod_eq_of_lt hv, fresh]

theorem constructed_eq_nil {c : Config} (hv : ¬ c.vertexSize + 1 < 2 ^ 32) :
    constructed c = [] := by
  have hlt := c.vertexSize_lt
  rw [constructed, Config.vertexIdUpper, show c.vertexSize + 1 = 2 ^ 32 by omega]
  rfl

/-- The records of an encoder, whatever was written to them. -/
structure Built (c : Config) (rs : Records) : Prop where
  length : rs.length = c.vertexIdUpper
  isRecord : ∀ bitset ∈ rs, IsRecord c bitset

theorem built_constructed (c : Config) : Built c (constructed c) := by
  refine ⟨List.length_replicate, fun bitset hmem => ?_⟩
  rw [List.eq_of_mem_replicate hmem]
  exact isRecord_ofBitSize c

theorem Built.record {c : Config} {rs : Records} (h : Built c rs) {v : Nat} (hv : v < rs.length) :
    IsRecord c (rs.record v) := by
  rw [Records.record, List.getD_eq_getElem _ _ hv]
  exact h.isRecord _ (List.getElem_mem hv)

theorem Built.lt_length {c : Config} {rs : Records} (h : Built c rs)
    (hsize : c.vertexSize + 1 < 2 ^ 32) {v : Nat} (hv : v ≤ c.vertexSize) : v < rs.length := by
  rw [h.length, Config.vertexIdUpper, Nat.mod_eq_of_lt hsize]
  omega

/-- A rewrite goes through only when there are records. -/
theorem Built.vertexSize_lt {c : Config} {rs rs' : Records} (h : Built c rs) {v : Nat}
    {f : BitSetSIMD → BitSetSIMD} (heq : rs.updateAt v f = some rs') :
    c.vertexSize + 1 < 2 ^ 32 := by
  have hlt := c.vertexSize_lt
  by_contra hnot
  rw [updateAt, h.length, Config.vertexIdUpper, show c.vertexSize + 1 = 2 ^ 32 by omega,
    Nat.mod_self, if_neg (Nat.not_lt_zero v)] at heq
  cases heq

/-- A run of rewrites goes through when all its vertices have a record. -/
theorem foldlM_updateAt {α : Type} (calls : List α) (vertex : α → Nat)
    (f : α → BitSetSIMD → BitSetSIMD) (rs : Records) :
    calls.foldlM (fun rs c => rs.updateAt (vertex c) (f c)) rs =
      if ∀ c ∈ calls, vertex c < rs.length then
        some (calls.foldl (fun rs c => rs.update (vertex c) (f c)) rs)
      else none := by
  induction calls generalizing rs with
  | nil => simp
  | cons c calls ih =>
    rw [List.foldlM_cons, updateAt]
    -- the first call that has no record ends the run
    by_cases hc : vertex c < rs.length
    · rw [if_pos hc]
      simp [ih, hc]
    · rw [if_neg hc, if_neg fun h => hc (h c (by simp))]
      rfl

/-- Every record written once, on cleared bits. -/
def writeAll (c : Config) (f : Nat → BitSetSIMD → BitSetSIMD) : Records :=
  (List.range' 1 c.vertexSize).foldl (fun rs x => rs.update x (f x)) (fresh c)

theorem length_writeAll (c : Config) (f : Nat → BitSetSIMD → BitSetSIMD) :
    (writeAll c f).length = c.vertexSize + 1 :=
  (length_foldl_update _ id f _).trans (length_fresh c)

theorem record_writeAll {c : Config} (f : Nat → BitSetSIMD → BitSetSIMD) {x : Nat} (hx : 1 ≤ x)
    (hx' : x ≤ c.vertexSize) :
    (writeAll c f).record x = f x (BitSetSIMD.ofBitSize c.perEncodeBitSize) := by
  have hnodup : ((List.range' 1 c.vertexSize).map id).Nodup := by
    rw [List.map_id]
    exact List.nodup_range'
  have hlt : ∀ y ∈ List.range' 1 c.vertexSize, id y < (fresh c).length := by
    intro y hy
    rw [List.mem_range'_1] at hy
    rw [length_fresh, id]
    omega
  have hself := record_foldl_update (List.range' 1 c.vertexSize) id f (fresh c) hnodup hlt
    (List.mem_range'_1.mpr (by omega) : x ∈ _)
  rw [id, record_fresh hx'] at hself
  exact hself

/-- Record 0 belongs to no vertex. -/
theorem record_writeAll_zero (c : Config) (f : Nat → BitSetSIMD → BitSetSIMD) :
    (writeAll c f).record 0 = BitSetSIMD.ofBitSize c.perEncodeBitSize := by
  -- the vertices begin with 1
  have hother : (writeAll c f).record 0 = (fresh c).record 0 := by
    apply record_foldl_update_ne (List.range' 1 c.vertexSize) id f
    intro y hy
    rw [List.mem_range'_1] at hy
    rw [id]
    omega
  rw [hother, record_fresh (Nat.zero_le _)]

end Records

/-! ## Section 3: Records beside a graph that changes -/

/-- The records and the graph in the database. -/
abbrev UpdateState (c : Config) : Type := Records × Db c.vertexSize

/-- A pair of distinct ids. -/
def IsPair (c : Config) (u v : Nat) : Prop :=
  1 ≤ u ∧ u ≤ c.vertexSize ∧ 1 ≤ v ∧ v ≤ c.vertexSize ∧ u ≠ v

theorem IsPair.of_ends {c : Config} {u v a b : Nat} (h : IsPair c u v)
    (hends : (a = u ∧ b = v) ∨ (a = v ∧ b = u)) : IsPair c a b := by
  unfold IsPair at h ⊢
  omega

instance (c : Config) (u v : Nat) : Decidable (IsPair c u v) :=
  inferInstanceAs (Decidable (1 ≤ u ∧ u ≤ c.vertexSize ∧ 1 ≤ v ∧ v ≤ c.vertexSize ∧ u ≠ v))

end Vend
