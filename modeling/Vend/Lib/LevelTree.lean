import Mathlib.Data.List.Nodup
import Mathlib.Data.List.Pairwise
import Mathlib.Data.List.Perm.Basic
import Mathlib.Logic.Relation

/-! # Trees with numbered nodes

    A tree whose nodes are the numbers below `n`, given by the list of the children of every
    node. The nodes are numbered in the order in which their parents are: read from the
    first node on, the lists of children count up from 1 (`Numbered`). Then every node but
    0 has exactly one parent, and all nodes are below node 0 (`nodes_zero_perm`).

    Section 4 is about searching. Every node holds keys, and a tag for each of its children;
    a search compares what it looks for with the keys of the node, which gives a sign, and
    moves to the child with that tag. It ends at the node that holds the key when the signs
    tell the subtrees apart (`Guided`, `exists_finds`).
-/

namespace LevelTree

open Relation (ReflTransGen)

/-! ## Section 1: Numbered nodes -/

/-- Every node but 0 stands once among the children, in order, behind its parent. -/
structure Numbered (n : Nat) (children : Nat → List Nat) : Prop where
  pos : 0 < n
  flat : (List.range n).flatMap children = List.range' 1 (n - 1)
  lt : ∀ p, ∀ c ∈ children p, p < c

/-- A node and the nodes below it, down to a depth. -/
def below (children : Nat → List Nat) : Nat → Nat → List Nat
  | 0, _ => []
  | rounds + 1, p => p :: (children p).flatMap (below children rounds)

/-- A node and all nodes below it. A path from `p` has at most `n - p` nodes. -/
def nodes (n : Nat) (children : Nat → List Nat) (p : Nat) : List Nat :=
  below children (n - p) p

/-- The second node is the last child of the first. -/
def LastChild (children : Nat → List Nat) (p q : Nat) : Prop := (children p).getLast? = some q

variable {n : Nat} {children : Nat → List Nat}

namespace Numbered

theorem child_lt (h : Numbered n children) {p c : Nat} (hp : p < n) (hc : c ∈ children p) :
    c < n := by
  have hflat : c ∈ (List.range n).flatMap children :=
    List.mem_flatMap.mpr ⟨p, List.mem_range.mpr hp, hc⟩
  rw [h.flat, List.mem_range'_1] at hflat
  have := h.pos
  omega

/-- From the children to the parent. -/
theorem rec_up (h : Numbered n children) {motive : Nat → Prop}
    (step : ∀ p < n, (∀ c ∈ children p, motive c) → motive p) {p : Nat} (hp : p < n) :
    motive p := by
  -- on the distance to `n`, which is smaller for a child
  suffices hall : ∀ height p, p < n → n - p ≤ height → motive p from
    hall (n - p) p hp (Nat.le_refl _)
  intro height
  induction height with
  | zero =>
    intro p hp hle
    omega
  | succ height ih =>
    intro p hp hle
    apply step p hp
    intro c hc
    have hlt := h.lt p c hc
    exact ih c (h.child_lt hp hc) (by omega)

/-- Every node but 0 has exactly one parent, and it is there once. -/
theorem exists_parent (h : Numbered n children) {c : Nat} (hpos : 1 ≤ c) (hc : c < n) :
    ∃ p < n, (children p).count c = 1 ∧ ∀ q < n, c ∈ children q → q = p := by
  have hnodup : ((List.range n).flatMap children).Nodup := by
    rw [h.flat]
    exact List.nodup_range'
  have hmem : c ∈ (List.range n).flatMap children := by
    rw [h.flat, List.mem_range'_1]
    omega
  obtain ⟨p, hp, hcp⟩ := List.mem_flatMap.mp hmem
  obtain ⟨heach, hpair⟩ := List.nodup_flatMap.mp hnodup
  refine ⟨p, List.mem_range.mp hp, List.count_eq_one_of_mem (heach p hp) hcp, ?_⟩
  intro q hq hcq
  -- two different parents would share the child in the list of all children
  by_contra hne
  have hsymm : Std.Symm (Function.onFun List.Disjoint children) :=
    ⟨fun _ _ hab _ hx hy => hab hy hx⟩
  exact hpair.forall (List.mem_range.mpr hq) hp hne hcq hcp

/-! ## Section 2: Subtrees -/

/-- From the height of the node on the depth does not matter. -/
theorem below_eq (h : Numbered n children) {rounds p : Nat} (hp : p < n)
    (hrounds : n ≤ p + rounds) : below children rounds p = nodes n children p := by
  -- both depths reach the leaves
  suffices hall : ∀ r r' p, p < n → n ≤ p + r → n ≤ p + r' →
      below children r p = below children r' p from
    hall rounds (n - p) p hp hrounds (by omega)
  intro r
  induction r with
  | zero =>
    intro r' p hp hr
    omega
  | succ r ih =>
    intro r' p hp hr hr'
    cases r' with
    | zero => omega
    | succ r' =>
      rw [below, below, List.flatMap_congr fun c hc => ?_]
      have hlt := h.lt p c hc
      exact ih r' c (h.child_lt hp hc) (by omega) (by omega)

theorem nodes_eq (h : Numbered n children) {p : Nat} (hp : p < n) :
    nodes n children p = p :: (children p).flatMap (nodes n children) := by
  rw [nodes, show n - p = n - (p + 1) + 1 by omega, below, List.flatMap_congr fun c hc => ?_]
  have hlt := h.lt p c hc
  exact h.below_eq (h.child_lt hp hc) (by omega)

theorem self_mem_nodes (h : Numbered n children) {p : Nat} (hp : p < n) :
    p ∈ nodes n children p := by
  rw [h.nodes_eq hp]
  exact List.mem_cons_self

theorem child_mem_nodes (h : Numbered n children) {p c : Nat} (hp : p < n)
    (hc : c ∈ children p) : c ∈ nodes n children p := by
  rw [h.nodes_eq hp]
  exact List.mem_cons_of_mem _
    (List.mem_flatMap.mpr ⟨c, hc, h.self_mem_nodes (h.child_lt hp hc)⟩)

theorem lt_of_mem_nodes (h : Numbered n children) {p x : Nat} (hp : p < n)
    (hx : x ∈ nodes n children p) : x < n := by
  refine h.rec_up (motive := fun p => ∀ x ∈ nodes n children p, x < n) ?_ hp x hx
  intro p hp ih x hx
  rw [h.nodes_eq hp] at hx
  rcases List.mem_cons.mp hx with rfl | hx
  · exact hp
  · obtain ⟨c, hc, hx⟩ := List.mem_flatMap.mp hx
    exact ih c hc x hx

theorem nodes_sublist (h : Numbered n children) {p q : Nat} (hp : p < n)
    (hq : q ∈ nodes n children p) :
    (nodes n children q).Sublist (nodes n children p) := by
  refine h.rec_up (motive := fun p => ∀ q ∈ nodes n children p,
    (nodes n children q).Sublist (nodes n children p)) ?_ hp q hq
  intro p hp ih q hq
  have heq := h.nodes_eq hp
  rw [heq] at hq
  rcases List.mem_cons.mp hq with rfl | hq
  · exact List.Sublist.refl _
  · obtain ⟨c, hc, hq⟩ := List.mem_flatMap.mp hq
    have hflat : (nodes n children c).Sublist ((children p).flatMap (nodes n children)) := by
      rw [List.flatMap_def]
      exact List.sublist_flatten_of_mem (List.mem_map_of_mem hc)
    rw [heq]
    exact ((ih c hc q hq).trans hflat).trans (List.sublist_cons_self _ _)

/-- The children of the first nodes are the first numbers. -/
theorem flat_take (h : Numbered n children) {k : Nat} (hk : k ≤ n) :
    (List.range k).flatMap children =
      List.range' 1 ((List.range k).flatMap children).length := by
  -- a beginning of a range is a range
  have hsplit : (List.range k).flatMap children ++ (List.range' k (n - k)).flatMap children =
      List.range' 1 (n - 1) := by
    have hrange := @List.range'_append_1 0 k (n - k)
    rw [Nat.zero_add, Nat.add_sub_cancel' hk] at hrange
    rw [← List.flatMap_append, List.range_eq_range', hrange, ← List.range_eq_range', h.flat]
  have hprefix := List.prefix_iff_eq_take.mp ⟨_, hsplit⟩
  have hlen := congrArg List.length hsplit
  rw [List.length_append, List.length_range'] at hlen
  rw [List.take_range'_of_length_ge (by omega)] at hprefix
  exact hprefix

/-- A node is one of the first children by the time it is reached. -/
theorem le_flat (h : Numbered n children) {k : Nat} (hk : k < n) :
    k ≤ ((List.range k).flatMap children).length := by
  rcases Nat.eq_zero_or_pos k with rfl | hpos
  · exact Nat.zero_le _
  · obtain ⟨p, hp, hcount, -⟩ := h.exists_parent hpos hk
    have hkp : k ∈ children p := List.count_pos_iff.mp (by omega)
    -- its parent comes before it
    have hmem : k ∈ (List.range k).flatMap children :=
      List.mem_flatMap.mpr ⟨p, List.mem_range.mpr (h.lt p k hkp), hkp⟩
    rw [h.flat_take (Nat.le_of_lt hk), List.mem_range'_1] at hmem
    omega

/-! ## Section 3: All nodes are below the first one -/

/-- The nodes below 0 are the first `k` numbers and those below the children of these that
    are still to come. -/
theorem nodes_zero_queue (h : Numbered n children) {k : Nat} (hk : k ≤ n) :
    (nodes n children 0).Perm (List.range k ++
      (List.range' k (1 + ((List.range k).flatMap children).length - k)).flatMap
        (nodes n children)) := by
  induction k with
  | zero => simp
  | succ k ih =>
    have hlt : k < n := hk
    have hqueue := h.le_flat hlt
    have hflat := h.flat_take (Nat.le_of_lt hlt)
    have hflat' := h.flat_take hk
    rw [List.range_succ, List.flatMap_append, List.flatMap_singleton] at hflat' ⊢
    refine (ih (Nat.le_of_lt hlt)).trans ?_
    generalize (List.range k).flatMap children = front at *
    -- the children of `k` go to the end of the queue
    have hchildren : children k = List.range' (1 + front.length) (children k).length := by
      rw [List.length_append, ← List.range'_append_1, ← hflat] at hflat'
      exact List.append_cancel_left hflat'
    have htail : List.range' (k + 1) (1 + (front ++ children k).length - (k + 1)) =
        List.range' (k + 1) (front.length - k) ++ children k := by
      rw [hchildren, List.length_append, List.length_range',
        show 1 + front.length = k + 1 + (front.length - k) by omega, List.range'_append_1]
      congr 1
      omega
    -- node `k` is at the head of the queue
    have hhead : List.range' k (1 + front.length - k) =
        k :: List.range' (k + 1) (front.length - k) := by
      rw [show 1 + front.length - k = front.length - k + 1 by omega, List.range'_succ]
    rw [hhead, htail, List.flatMap_cons, h.nodes_eq hlt, List.flatMap_append, List.append_assoc,
      List.cons_append, List.singleton_append]
    exact ((List.perm_append_comm).cons k).append_left _

/-- Every node is below the first one, once. -/
theorem nodes_zero_perm (h : Numbered n children) :
    (nodes n children 0).Perm (List.range n) := by
  have hqueue := h.nodes_zero_queue (Nat.le_refl n)
  have hpos := h.pos
  rw [h.flat, List.length_range', show 1 + (n - 1) - n = 0 by omega] at hqueue
  simpa using hqueue

theorem mem_nodes_zero (h : Numbered n children) {p : Nat} :
    p ∈ nodes n children 0 ↔ p < n := by
  rw [h.nodes_zero_perm.mem_iff, List.mem_range]

/-- A subtree has every node once. -/
theorem nodup_nodes (h : Numbered n children) {p : Nat} (hp : p < n) :
    (nodes n children p).Nodup :=
  (h.nodes_sublist h.pos (h.mem_nodes_zero.mpr hp)).nodup
    (h.nodes_zero_perm.nodup_iff.mpr List.nodup_range)

end Numbered

/-! ## Section 4: Searching -/

section Search

variable {κ τ : Type*}

/-- The keys at a node and below it. -/
def keysBelow (n : Nat) (children : Nat → List Nat) (keys : Nat → List κ) (p : Nat) : List κ :=
  (nodes n children p).flatMap keys

/-- The sign of a key below a child is the tag of the child, and the tags differ. -/
structure Guided (n : Nat) (children : Nat → List Nat) (keys : Nat → List κ)
    (tags : Nat → List τ) (sign : List κ → κ → τ) (p : Nat) : Prop where
  length : (tags p).length = (children p).length
  nodup : (tags p).Nodup
  sign : ∀ child ∈ (tags p).zip (children p), ∀ x ∈ keysBelow n children keys child.2,
    sign (keys p) x = child.1

variable {keys : Nat → List κ} {tags : Nat → List τ} {sign : List κ → κ → τ}

/-- Whether a node is guided depends on the keys below it and on its own tags. -/
theorem Guided.congr (h : Numbered n children) {keys' : Nat → List κ} {tags' : Nat → List τ}
    {p : Nat} (hp : p < n) (hkeys : ∀ q ∈ nodes n children p, keys' q = keys q)
    (htags : tags' p = tags p) (hguided : Guided n children keys tags sign p) :
    Guided n children keys' tags' sign p := by
  have hself := hkeys p (h.self_mem_nodes hp)
  constructor
  · rw [htags]
    exact hguided.length
  · rw [htags]
    exact hguided.nodup
  · intro child hchild x hx
    rw [htags] at hchild
    have hsub := h.nodes_sublist hp (h.child_mem_nodes hp (List.of_mem_zip hchild).2)
    have hbelow : keysBelow n children keys' child.2 = keysBelow n children keys child.2 :=
      List.flatMap_congr fun q hq => hkeys q (hsub.subset hq)
    rw [hbelow] at hx
    rw [hself]
    exact hguided.sign child hchild x hx

/-- The children of a node with a tag. -/
def choices [DecidableEq τ] (children : Nat → List Nat) (tags : Nat → List τ) (p : Nat)
    (tag : τ) : List Nat :=
  (((tags p).zip (children p)).filter fun child => child.1 = tag).map Prod.snd

/-- Going from node to node, each time to the one child that the sign chooses, the search
    for `x` ends at a node that holds it. -/
inductive Finds [DecidableEq τ] (children : Nat → List Nat) (keys : Nat → List κ)
    (tags : Nat → List τ) (sign : List κ → κ → τ) (x : κ) : Nat → Nat → Prop where
  | here : ∀ {p}, x ∈ keys p → Finds children keys tags sign x p p
  | move : ∀ {p child goal}, x ∉ keys p → choices children tags p (sign (keys p) x) = [child] →
      Finds children keys tags sign x child goal → Finds children keys tags sign x p goal

variable [DecidableEq τ]

theorem choices_eq {p : Nat} (hlen : (tags p).length = (children p).length)
    (hnodup : (tags p).Nodup) {child : τ × Nat} (hchild : child ∈ (tags p).zip (children p)) :
    choices children tags p child.1 = [child.2] := by
  -- the tags of the pairs are the tags, so no two pairs share one
  have hmap : ((tags p).zip (children p)).map Prod.fst = tags p :=
    List.map_fst_zip (Nat.le_of_eq hlen)
  have hpairs : (((tags p).zip (children p)).map Prod.fst).Nodup := by rwa [hmap]
  unfold choices
  clear hmap hlen hnodup
  generalize (tags p).zip (children p) = pairs at hchild hpairs
  induction pairs with
  | nil => cases hchild
  | cons pair pairs ih =>
    rw [List.map_cons, List.nodup_cons] at hpairs
    rcases List.mem_cons.mp hchild with rfl | hmem
    · have hnone : pairs.filter (fun other => decide (other.1 = child.1)) = [] := by
        rw [List.filter_eq_nil_iff]
        intro other hother heq
        exact hpairs.1 (List.mem_map.mpr ⟨other, hother, of_decide_eq_true heq⟩)
      rw [List.filter_cons, if_pos (decide_eq_true rfl), hnone]
      rfl
    · have hne : pair.1 ≠ child.1 := fun heq =>
        hpairs.1 (List.mem_map.mpr ⟨child, hmem, heq.symm⟩)
      rw [List.filter_cons_of_neg (by simpa using hne)]
      exact ih hmem hpairs.2

/-- A guided search ends at the node that holds the key. -/
theorem exists_finds (h : Numbered n children) {p : Nat} (hp : p < n)
    (hguided : ∀ q ∈ nodes n children p, Guided n children keys tags sign q) {x : κ}
    (hx : x ∈ keysBelow n children keys p) :
    ∃ goal ∈ nodes n children p, x ∈ keys goal ∧ Finds children keys tags sign x p goal := by
  refine h.rec_up (motive := fun p =>
    (∀ q ∈ nodes n children p, Guided n children keys tags sign q) →
    x ∈ keysBelow n children keys p →
    ∃ goal ∈ nodes n children p, x ∈ keys goal ∧ Finds children keys tags sign x p goal)
    ?_ hp hguided hx
  intro p hp ih hguided hx
  have hself := h.self_mem_nodes hp
  by_cases hhere : x ∈ keys p
  · exact ⟨p, hself, hhere, .here hhere⟩
  · -- the key is below a child, and the sign is the tag of that child
    unfold keysBelow at hx
    rw [h.nodes_eq hp, List.flatMap_cons, List.mem_append, or_iff_right hhere,
      List.flatMap_assoc, List.mem_flatMap] at hx
    obtain ⟨child, hchild, hx⟩ := hx
    have hg := hguided p hself
    obtain ⟨i, hi, rfl⟩ := List.mem_iff_getElem.mp hchild
    have hi' : i < (tags p).length := by
      rw [hg.length]
      exact hi
    have hpair : ((tags p)[i], (children p)[i]) ∈ (tags p).zip (children p) :=
      List.mem_iff_getElem.mpr ⟨i, by rw [List.length_zip]; omega, List.getElem_zip⟩
    have hsub := h.nodes_sublist hp (h.child_mem_nodes hp hchild)
    obtain ⟨goal, hgoal, hkey, hfinds⟩ :=
      ih _ hchild (fun q hq => hguided q (hsub.subset hq)) hx
    have hchoice := choices_eq hg.length hg.nodup hpair
    rw [← hg.sign _ hpair x hx] at hchoice
    exact ⟨goal, hsub.subset hgoal, hkey, .move hhere hchoice hfinds⟩

end Search

end LevelTree
