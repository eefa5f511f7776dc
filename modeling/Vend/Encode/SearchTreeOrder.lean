import Mathlib.Order.Lattice
import Vend.Encode.SearchTree
import Vend.Encode.SearchTreeLinks
import Mathlib.Tactic.IntervalCases

/-! # `SearchTree`: the order of the ids

    `encode/codec/SIMD/delta_simd_codec.h`. `init_order` walks through the tree and numbers
    the places of the groups: a child, a place of its parent that separates it from the next
    child, the next child, and so on. Where a node has too few children, the rest of its
    places come before the last child. The mask of a child tells which places of the parent
    are before it.

    The sum of `size` and 3 has to be an `int`. Then the tree is a search tree over all
    positions, whatever the number of levels (`searches_iff`). Up to 40 ids it is the one that
    the searches of the codec go through (`treeNode_searchTree`).
-/

namespace Vend

namespace SearchTree

open LevelTree
open Relation (ReflTransGen)
open DeltaSIMDCodecV3 (searchMask)

/-! ## Section 1: Model -/

/-- `encode_list`, and the `masks` of the nodes. -/
structure Order where
  encodeList : Nat → List Nat
  masks : Nat → List Nat

def Order.empty : Order := ⟨fun _ => [], fun _ => []⟩

/-- `encode_list[g] = ids`. -/
def Order.assign (st : Order) (g : Nat) (ids : List Nat) : Order :=
  { st with encodeList := fun i => if i = g then ids else st.encodeList i }

/-- `nodes[g]->masks = masks`. -/
def Order.assignMasks (st : Order) (g : Nat) (masks : List Nat) : Order :=
  { st with masks := fun i => if i = g then masks else st.masks i }

/-- `encode_list[g].push_back`, once for every id. -/
def Order.push (st : Order) (g : Nat) (ids : List Nat) : Order :=
  st.assign g (st.encodeList g ++ ids)

/-- `nodes[g]->masks.push_back(SEARCH_MASK[i])`. -/
def Order.pushMask (st : Order) (g i : Nat) : Order :=
  st.assignMasks g (st.masks g ++ [searchMask.getD i 0])

/-- The loop over the children of node `idx`, with the visit of the last child. Before that
    child the node is filled up to `cap` places. `search_children` has `cap = 4` and begins
    with mask 0, `init_order` has `cap = 3` and begins with mask 1. -/
def searchLoop (visit : Nat → Nat → Order → Nat × Order) (idx cap : Nat) :
    Nat → List Nat → Nat → Order → Nat × Order
  | _, [], pivot, st => (pivot, st)
  | _, [child], pivot, st =>
    -- `while (encode_list[idx].size() < cap)` before the last child
    let missing := cap - (st.encodeList idx).length
    visit child (pivot + missing) ((st.push idx (List.range' pivot missing)).pushMask idx cap)
  | i, child :: next :: rest, pivot, st =>
    -- the position behind the child separates it from the next one
    let (pivot, st) := visit child pivot st
    searchLoop visit idx cap (i + 1) (next :: rest) (pivot + 1)
      ((st.pushMask idx i).push idx [pivot])

/-- `search_children(nodes[idx], begin)`: the next position and the state. A path from node
    `idx` has at most `groups - idx` nodes. -/
def searchChildren (nodes : Children) (groups size : Nat) :
    Nat → Nat → Nat → Order → Nat × Order
  | 0, _, start, st => (start, st)
  | rounds + 1, idx, start, st =>
    if nodes idx = [] then
      -- the last group leaves the last position to the root
      if idx = groups - 1 then
        (max start (size - 1), st.push idx (List.range' start (size - 1 - start)))
      else (start + 4, st.assign idx [start, start + 1, start + 2, start + 3])
    else searchLoop (searchChildren nodes groups size rounds) idx 4 0 (nodes idx) start st

/-- `init_order()`. -/
def initOrder (nodes : Children) (groups size : Nat) : Order :=
  let visit := searchChildren nodes groups size groups
  -- up to four positions the constructor has returned before
  if size ≤ 4 then Order.empty.push 0 (List.range size)
  else if groups ≤ 4 then
    (searchLoop visit 0 3 1 (nodes 0) 1 (Order.empty.push 0 [0])).2.push 0 [size - 1]
  else
    -- the two places in the middle are set when the walk has passed them
    let st := (Order.empty.assign 0 [0, 0, 0, size - 1]).assignMasks 0
      [searchMask.getD 1 0, searchMask.getD 2 0, searchMask.getD 3 0]
    let (pivot1, st) := visit ((nodes 0).getD 0 0) 1 st
    let st := st.assign 0 ((st.encodeList 0).set 1 pivot1)
    let (pivot2, st) := visit ((nodes 0).getD 1 0) (pivot1 + 1) st
    let st := st.assign 0 ((st.encodeList 0).set 2 pivot2)
    (visit ((nodes 0).getD 2 0) (pivot2 + 1) st).2

/-- `struct SearchTree`. -/
structure Tree where
  groups : Nat
  nodes : Children
  order : Order

/-- `SearchTree(size)`. There is no tree when a sum is no `int`, and none without a node. -/
def searchTree (size : Nat) : Option Tree :=
  if size = 0 ∨ 2 ^ 31 ≤ size + 3 then none
  else
    let groups := (size + 3) / 4
    (link groups).map fun linked =>
      ⟨groups, linked.1, if linked.2 then initOrder linked.1 groups size else Order.empty⟩

/-- `get_order()`. -/
def Tree.getOrder (t : Tree) : List Nat := (List.range t.groups).flatMap t.order.encodeList

/-- Node `g` with the levels below it, as the codec walks through them. -/
def Tree.treeNode (t : Tree) : Nat → Nat → DeltaSIMDCodecV3.TreeNode
  | 0, g => .mk g [] (t.order.masks g)
  | levels + 1, g => .mk g ((t.nodes g).map (t.treeNode levels)) (t.order.masks g)

/-- The trees of the codec have the nodes and masks that `SearchTree(size)` gives to them, and
    the rows of the table in the source are their orders. Up to four ids are one group, and the
    constructor returns before it makes an order. -/
theorem treeNode_searchTree {size : Nat} (hpos : 1 ≤ size) (hsize : size ≤ 40) :
    ∃ t, searchTree size = some t ∧ t.treeNode 2 0 = DeltaSIMDCodecV3.searchTree size ∧
      (4 < size → t.getOrder = DeltaSIMDCodecV3.aryOrder.getD (size - 1) []) := by
  have htrees : (searchTree size).map (fun t => t.treeNode 2 0) =
      some (DeltaSIMDCodecV3.searchTree size) := by
    interval_cases size <;> rfl
  have horders : ∀ n < 41, 4 < n →
      (searchTree n).map Tree.getOrder = some (DeltaSIMDCodecV3.aryOrder.getD (n - 1) []) := by
    decide +kernel
  obtain ⟨t, ht, hnode⟩ := Option.map_eq_some_iff.mp htrees
  refine ⟨t, ht, hnode, fun hlarge => ?_⟩
  have horder := horders size (by omega) hlarge
  rwa [ht, Option.map_some, Option.some.injEq] at horder

/-- The lanes of a group that hold a key below `a j`, as a mask. -/
def lanesBelow {α : Type} [LinearOrder α] (a : Nat → α) : List Nat → Nat → Nat
  | [], _ => 0
  | p :: group, j => (if a p < a j then 1 else 0) + 2 * lanesBelow a group j

/-! ## Section 2: What a tree has to be -/

/-- A search tree over the positions below `size`. -/
structure IsSearchTree (size : Nat) (t : Tree) : Prop where
  parent : ∀ c, 1 ≤ c → c < (size + 3) / 4 → ∃ p < (size + 3) / 4,
    (t.nodes p).count c = 1 ∧ ∀ q < (size + 3) / 4, c ∈ t.nodes q → q = p
  perm : t.getOrder.Perm (List.range size)
  full : ∀ g, g + 1 < (size + 3) / 4 →
    (t.order.encodeList g).length = 4 ∧ (t.order.encodeList g).Pairwise (· < ·)
  finds : ∀ (α : Type) [LinearOrder α] (a : Nat → α), (∀ i j, i < j → j < size → a i < a j) →
    ∀ j < size, ∃ goal < (size + 3) / 4, j ∈ t.order.encodeList goal ∧
      Finds t.nodes t.order.encodeList t.order.masks (lanesBelow a) j 0 goal

/-- `SearchTree(size)` gives a search tree. -/
def Searches (size : Nat) : Prop := ∃ t, searchTree size = some t ∧ IsSearchTree size t

/-! ## Section 3: Masks -/

theorem lanesBelow_append {front back : List Nat} {x : Nat} (hfront : ∀ p ∈ front, p < x)
    (hback : ∀ p ∈ back, x ≤ p) : lanesBelow id (front ++ back) x = 2 ^ front.length - 1 := by
  induction front with
  | nil =>
    rw [List.nil_append]
    induction back with
    | nil => rfl
    | cons p back ih =>
      have hp : ¬ id p < id x := Nat.not_lt_of_le (hback p List.mem_cons_self)
      rw [lanesBelow, if_neg hp, ih fun q hq => hback q (List.mem_cons_of_mem _ hq)]
      rfl
  | cons p front ih =>
    have hp : id p < id x := hfront p List.mem_cons_self
    -- a lane that is below puts one bit in front of the mask
    have hpos := Nat.two_pow_pos front.length
    rw [List.cons_append, lanesBelow, if_pos hp,
      ih fun q hq => hfront q (List.mem_cons_of_mem _ hq), List.length_cons, Nat.pow_succ]
    omega

/-- Places behind the key do not count. -/
theorem lanesBelow_append_of_le {group back : List Nat} {x : Nat} (hback : ∀ p ∈ back, x ≤ p) :
    lanesBelow id (group ++ back) x = lanesBelow id group x := by
  induction group with
  | nil => exact @lanesBelow_append [] back x (fun _ hp => by cases hp) hback
  | cons p group ih => rw [List.cons_append, lanesBelow, ih, lanesBelow]

/-- Comparing keys of an ascending sequence is comparing positions. -/
theorem lanesBelow_eq {α : Type} [LinearOrder α] {a : Nat → α} {size : Nat}
    (hasc : ∀ i j, i < j → j < size → a i < a j) {group : List Nat}
    (hgroup : ∀ p ∈ group, p < size) {x : Nat} (hx : x < size) :
    lanesBelow a group x = lanesBelow id group x := by
  induction group with
  | nil => rfl
  | cons p group ih =>
    have hp := hgroup p List.mem_cons_self
    -- the sequence is ascending, so it can be compared by positions
    have hiff : a p < a x ↔ id p < id x := by
      constructor
      · intro hlt
        by_contra hge
        rcases Nat.eq_or_lt_of_le (Nat.le_of_not_lt hge) with heq | hgt
        · exact (lt_irrefl (a x)) (by rwa [show p = x from heq.symm] at hlt)
        · exact lt_asymm hlt (hasc x p hgt hp)
      · exact fun hlt => hasc p x hlt hx
    rw [lanesBelow, lanesBelow, ih fun q hq => hgroup q (List.mem_cons_of_mem _ hq)]
    simp only [hiff]

theorem searchMask_eq {k : Nat} (hk : k ≤ 4) : searchMask.getD k 0 = 2 ^ k - 1 := by
  have hall : ∀ k < 5, searchMask.getD k 0 = 2 ^ k - 1 := by decide
  exact hall k (by omega)

/-- The masks that a loop over `count + 1` children gives to the node. -/
def loopMasks (i count cap : Nat) : List Nat :=
  (List.range' i count ++ [cap]).map fun k => searchMask.getD k 0

theorem length_loopMasks (i count cap : Nat) : (loopMasks i count cap).length = count + 1 := by
  simp [loopMasks]

theorem loopMasks_succ (i count cap : Nat) :
    loopMasks i (count + 1) cap = searchMask.getD i 0 :: loopMasks (i + 1) count cap := by
  rw [loopMasks, List.range'_succ, List.cons_append, List.map_cons, loopMasks]

theorem nodup_loopMasks {i count cap : Nat} (hfits : i + count ≤ cap) (hcap : cap ≤ 4) :
    (loopMasks i count cap).Nodup := by
  -- different places of the table hold different masks
  have hplaces : (List.range' i count ++ [cap]).Nodup := by
    rw [List.nodup_append]
    refine ⟨List.nodup_range', List.nodup_singleton cap, ?_⟩
    intro k hk l hl
    rw [List.mem_range'_1] at hk
    rw [List.mem_singleton] at hl
    omega
  apply hplaces.map_on
  intro k hk l hl heq
  have hbound : ∀ k ∈ List.range' i count ++ [cap], k ≤ 4 := by
    intro k hk
    rcases List.mem_append.mp hk with hk | hk
    · rw [List.mem_range'_1] at hk
      omega
    · rw [List.mem_singleton.mp hk]
      exact hcap
  rw [searchMask_eq (hbound k hk), searchMask_eq (hbound l hl)] at heq
  have hposk := Nat.two_pow_pos k
  have hposl := Nat.two_pow_pos l
  exact Nat.pow_right_injective (Nat.le_refl 2) (show 2 ^ k = 2 ^ l by omega)

/-! ## Section 4: Subtrees that are numbered -/

/-- A group is left as it is. -/
def Same (st st' : Order) (g : Nat) : Prop :=
  st'.encodeList g = st.encodeList g ∧ st'.masks g = st.masks g

theorem Same.trans {st st' st'' : Order} {g : Nat} (h : Same st st' g) (h' : Same st' st'' g) :
    Same st st'' g := ⟨h'.1.trans h.1, h'.2.trans h.2⟩

theorem same_push {st : Order} {g i : Nat} (h : i ≠ g) (ids : List Nat) :
    Same st (st.push g ids) i := ⟨if_neg h, rfl⟩

theorem same_pushMask {st : Order} {g i : Nat} (h : i ≠ g) (mask : Nat) :
    Same st (st.pushMask g mask) i := ⟨rfl, if_neg h⟩

theorem same_assign {st : Order} {g i : Nat} (h : i ≠ g) (ids : List Nat) :
    Same st (st.assign g ids) i := ⟨if_neg h, rfl⟩

/-- Nothing is written to a group yet. -/
def Fresh (st : Order) (g : Nat) : Prop := st.encodeList g = [] ∧ st.masks g = []

theorem Fresh.same {st st' : Order} {g : Nat} (h : Fresh st g) (hsame : Same st st' g) :
    Fresh st' g := ⟨hsame.1.trans h.1, hsame.2.trans h.2⟩

section

variable (groups : Nat) (nodes : Children)

/-- A group has its places, and the masks of its children lead to them. -/
structure Placed (st : Order) (g : Nat) : Prop where
  full : g + 1 < groups → (st.encodeList g).length = 4
  ascending : (st.encodeList g).Pairwise (· < ·)
  guided : Guided groups nodes st.encodeList st.masks (lanesBelow id) g

/-- The subtree of a group has the positions from `start` on and before `stop`. -/
structure Spans (st : Order) (p start stop : Nat) : Prop where
  le : start ≤ stop
  keys : (keysBelow groups nodes st.encodeList p).Perm (List.range' start (stop - start))
  placed : ∀ g ∈ LevelTree.nodes groups nodes p, Placed groups nodes st g

/-- So have the subtrees of children together with the places between them: `i` places of the
    parent are before them, and the last child comes after `cap` places. -/
structure Spread (st : Order) (i cap : Nat) (children : List Nat) (start stop : Nat)
    (places : List Nat) : Prop where
  le : start ≤ stop
  keys : (places ++ children.flatMap (keysBelow groups nodes st.encodeList)).Perm
    (List.range' start (stop - start))
  ascending : places.Pairwise (· < ·)
  length : i + places.length = cap
  placed : ∀ c ∈ children, ∀ g ∈ LevelTree.nodes groups nodes c, Placed groups nodes st g
  lanes : ∀ front : List Nat, front.length = i → (∀ p ∈ front, p < start) →
    ∀ child ∈ (loopMasks i (children.length - 1) cap).zip children,
      ∀ x ∈ keysBelow groups nodes st.encodeList child.2,
        lanesBelow id (front ++ places) x = child.1

end

variable {groups : Nat} {nodes : Children}

theorem Spans.mem_iff {st : Order} {p start stop : Nat} (h : Spans groups nodes st p start stop)
    {x : Nat} : x ∈ keysBelow groups nodes st.encodeList p ↔ start ≤ x ∧ x < stop := by
  have := h.le
  rw [h.keys.mem_iff, List.mem_range'_1]
  omega

theorem Spread.mem {st : Order} {i cap : Nat} {children : List Nat} {start stop : Nat}
    {places : List Nat} (h : Spread groups nodes st i cap children start stop places) {x : Nat}
    (hx : x ∈ places ∨ ∃ c ∈ children, x ∈ keysBelow groups nodes st.encodeList c) :
    start ≤ x ∧ x < stop := by
  have hle := h.le
  have hmem : x ∈ places ++ children.flatMap (keysBelow groups nodes st.encodeList) := by
    rw [List.mem_append, List.mem_flatMap]
    exact hx
  rw [h.keys.mem_iff, List.mem_range'_1] at hmem
  omega

/-- Groups that are not in the subtree do not matter. -/
theorem Placed.congr (hlinked : Numbered groups nodes) {st st' : Order} {g : Nat} (hg : g < groups)
    (hsame : ∀ q ∈ LevelTree.nodes groups nodes g, Same st st' q) (h : Placed groups nodes st g) :
    Placed groups nodes st' g := by
  obtain ⟨hlist, hmasks⟩ := hsame g (hlinked.self_mem_nodes hg)
  constructor
  · rw [hlist]
    exact h.full
  · rw [hlist]
    exact h.ascending
  · exact h.guided.congr hlinked hg (fun q hq => (hsame q hq).1) hmasks

theorem keysBelow_congr {st st' : Order} {p : Nat}
    (hsame : ∀ g ∈ LevelTree.nodes groups nodes p, Same st st' g) :
    keysBelow groups nodes st'.encodeList p = keysBelow groups nodes st.encodeList p :=
  List.flatMap_congr fun g hg => (hsame g hg).1

theorem Spans.congr (hlinked : Numbered groups nodes) {st st' : Order} {p start stop : Nat}
    (hp : p < groups) (hsame : ∀ g ∈ LevelTree.nodes groups nodes p, Same st st' g)
    (h : Spans groups nodes st p start stop) : Spans groups nodes st' p start stop := by
  constructor
  · exact h.le
  · rw [keysBelow_congr hsame]
    exact h.keys
  · intro g hg
    -- what is below a group of the subtree is in the subtree
    have hsub := hlinked.nodes_sublist hp hg
    exact (h.placed g hg).congr hlinked (hlinked.lt_of_mem_nodes hp hg)
      fun q hq => hsame q (hsub.subset hq)

theorem Spread.congr (hlinked : Numbered groups nodes) {st st' : Order} {i cap start stop : Nat}
    {children places : List Nat} (hlt : ∀ c ∈ children, c < groups)
    (hsame : ∀ c ∈ children, ∀ g ∈ LevelTree.nodes groups nodes c, Same st st' g)
    (h : Spread groups nodes st i cap children start stop places) :
    Spread groups nodes st' i cap children start stop places := by
  constructor
  · exact h.le
  · rw [List.flatMap_congr fun c hc => keysBelow_congr (hsame c hc)]
    exact h.keys
  · exact h.ascending
  · exact h.length
  · intro c hc g hg
    have hsub := hlinked.nodes_sublist (hlt c hc) hg
    exact (h.placed c hc g hg).congr hlinked (hlinked.lt_of_mem_nodes (hlt c hc) hg)
      fun q hq => hsame c hc q (hsub.subset hq)
  · intro front hfront hbefore child hchild x hx
    rw [keysBelow_congr (hsame _ (List.of_mem_zip hchild).2)] at hx
    exact h.lanes front hfront hbefore child hchild x hx

/-- The last child comes when the node has all its places. -/
theorem spread_last {st : Order} {i cap c start stop : Nat} (hcap : cap ≤ 4) (hi : i ≤ cap)
    (h : Spans groups nodes st c (start + (cap - i)) stop) :
    Spread groups nodes st i cap [c] start stop (List.range' start (cap - i)) := by
  have hle := h.le
  constructor
  · omega
  · rw [List.flatMap_singleton, show stop - start = cap - i + (stop - (start + (cap - i))) by omega,
      ← List.range'_append_1]
    exact h.keys.append_left _
  · exact List.pairwise_lt_range'
  · rw [List.length_range']
    omega
  · intro c' hc'
    rw [List.mem_singleton.mp hc']
    exact h.placed
  · intro front hfront hbefore child hchild x hx
    -- the mask of the last child is that of all places
    have hpair : child = (searchMask.getD cap 0, c) := by simpa [loopMasks] using hchild
    subst hpair
    rw [h.mem_iff] at hx
    rw [← List.append_nil (front ++ List.range' start (cap - i)), lanesBelow_append,
      searchMask_eq hcap, List.length_append, List.length_range', hfront, Nat.add_sub_cancel' hi]
    · intro p hp
      rcases List.mem_append.mp hp with hp | hp
      · have := hbefore p hp
        omega
      · rw [List.mem_range'_1] at hp
        omega
    · intro p hp
      cases hp

/-- A child, and the place that separates it from the next one. -/
theorem Spread.cons {st : Order} {i cap c pivot start stop : Nat} {children places : List Nat}
    (hne : children ≠ []) (hcap : cap ≤ 4) (h : Spans groups nodes st c start pivot)
    (hrest : Spread groups nodes st (i + 1) cap children (pivot + 1) stop places) :
    Spread groups nodes st i cap (c :: children) start stop (pivot :: places) := by
  have hle := h.le
  have hle' := hrest.le
  have hcount : (c :: children).length - 1 = children.length - 1 + 1 := by
    have := List.length_pos_iff.mpr hne
    rw [List.length_cons]
    omega
  constructor
  · omega
  · -- the keys of the child, the pivot, and the rest follow each other
    have hswap : (pivot :: places ++ (c :: children).flatMap
        (keysBelow groups nodes st.encodeList)).Perm
        (keysBelow groups nodes st.encodeList c ++
          (pivot :: (places ++ children.flatMap (keysBelow groups nodes st.encodeList)))) := by
      rw [List.flatMap_cons, ← List.cons_append, ← List.append_assoc, ← List.append_assoc]
      exact (List.perm_append_comm).append_right _
    have hrange : List.range' start (stop - start) =
        List.range' start (pivot - start) ++
          (pivot :: List.range' (pivot + 1) (stop - (pivot + 1))) := by
      rw [← List.range'_succ, show stop - (pivot + 1) + 1 = stop - pivot by omega,
        show stop - start = pivot - start + (stop - pivot) by omega, ← List.range'_append_1,
        Nat.add_sub_cancel' hle]
    rw [hrange]
    exact hswap.trans (h.keys.append (hrest.keys.cons pivot))
  · rw [List.pairwise_cons]
    -- the other places are behind the pivot
    refine ⟨fun x hx => ?_, hrest.ascending⟩
    have := hrest.mem (Or.inl hx)
    omega
  · have := hrest.length
    rw [List.length_cons]
    omega
  · intro c' hc'
    rcases List.mem_cons.mp hc' with rfl | hc'
    · exact h.placed
    · exact hrest.placed c' hc'
  · intro front hfront hbefore child hchild x hx
    rw [hcount, loopMasks_succ, List.zip_cons_cons, List.mem_cons] at hchild
    rcases hchild with rfl | hchild
    · -- the places from the pivot on are behind the child
      rw [h.mem_iff] at hx
      have hlen := hrest.length
      rw [lanesBelow_append, hfront, searchMask_eq (by omega)]
      · intro p hp
        have := hbefore p hp
        omega
      · intro p hp
        rcases List.mem_cons.mp hp with rfl | hp
        · omega
        · have := hrest.mem (Or.inl hp)
          omega
    · -- for the other children the pivot is one of the places before
      rw [List.append_cons]
      refine hrest.lanes (front ++ [pivot]) (by rw [List.length_append, hfront]; rfl) ?_ child
        hchild x hx
      intro p hp
      rcases List.mem_append.mp hp with hp | hp
      · have := hbefore p hp
        omega
      · rw [List.mem_singleton.mp hp]
        omega

/-! ## Section 5: The walk -/

/-- The last group took all positions that were left but the last one. -/
def Tail (groups size : Nat) (res : Nat × Order) : Prop :=
  ∃ b, res.2.encodeList (groups - 1) = List.range' b (size - 1 - b) ∧ res.1 = max b (size - 1)

/-- What the visit of a node does. -/
structure Visited (groups size : Nat) (nodes : Children) (p start : Nat) (st : Order)
    (res : Nat × Order) : Prop where
  spans : Spans groups nodes res.2 p start res.1
  other : ∀ g, g ∉ LevelTree.nodes groups nodes p → Same st res.2 g
  tail : ReflTransGen (LastChild nodes) p (groups - 1) → Tail groups size res

/-- What the loop over some children of node `idx` does. -/
structure Looped (groups size : Nat) (nodes : Children) (idx cap i : Nat) (children : List Nat)
    (start : Nat) (st : Order) (places : List Nat) (res : Nat × Order) : Prop where
  spread : Spread groups nodes res.2 i cap children start res.1 places
  own : res.2.encodeList idx = st.encodeList idx ++ places
  masks : res.2.masks idx = st.masks idx ++ loopMasks i (children.length - 1) cap
  other : ∀ g, g ∉ idx :: children.flatMap (LevelTree.nodes groups nodes) → Same st res.2 g
  tail : ∀ q, children.getLast? = some q → ReflTransGen (LastChild nodes) q (groups - 1) →
    Tail groups size res

theorem push_self (st : Order) (g : Nat) (ids : List Nat) :
    (st.push g ids).encodeList g = st.encodeList g ++ ids := if_pos rfl

theorem pushMask_self (st : Order) (g i : Nat) :
    (st.pushMask g i).masks g = st.masks g ++ [searchMask.getD i 0] := if_pos rfl

section Loop

variable {size idx cap : Nat} {visit : Nat → Nat → Order → Nat × Order}

/-- The last child. -/
theorem looped_last {i c start : Nat} {st : Order} (hcap : cap ≤ 4) (hi : i ≤ cap)
    (hidx : idx ∉ LevelTree.nodes groups nodes c)
    (hvisit : Visited groups size nodes c (start + (cap - i))
      ((st.push idx (List.range' start (cap - i))).pushMask idx cap)
      (searchLoop visit idx cap i [c] start st)) :
    Looped groups size nodes idx cap i [c] start st (List.range' start (cap - i))
      (searchLoop visit idx cap i [c] start st) := by
  obtain ⟨hlist, hmasks⟩ := hvisit.other idx hidx
  constructor
  · exact spread_last hcap hi hvisit.spans
  · rw [hlist]
    exact push_self st idx _
  · rw [hmasks]
    exact pushMask_self _ idx cap
  · intro g hg
    rw [List.flatMap_singleton, List.mem_cons, not_or] at hg
    exact ((same_push hg.1 _).trans (same_pushMask hg.1 cap)).trans (hvisit.other g hg.2)
  · intro q hq
    rw [List.getLast?_singleton, Option.some.injEq] at hq
    rw [← hq]
    exact hvisit.tail

/-- One more child in front. -/
theorem Looped.cons (hlinked : Numbered groups nodes) {i c start : Nat} {st : Order}
    {children places : List Nat} {first res : Nat × Order} (hne : children ≠ []) (hcap : cap ≤ 4)
    (hc : c < groups)
    (hnodup : (idx :: (c :: children).flatMap (LevelTree.nodes groups nodes)).Nodup)
    (hfirst : Visited groups size nodes c start st first)
    (hrest : Looped groups size nodes idx cap (i + 1) children (first.1 + 1)
      ((first.2.pushMask idx i).push idx [first.1]) places res) :
    Looped groups size nodes idx cap i (c :: children) start st (first.1 :: places) res := by
  rw [List.flatMap_cons, List.nodup_cons, List.mem_append, not_or, List.nodup_append] at hnodup
  obtain ⟨⟨hidx, hidx'⟩, -, -, hdisj⟩ := hnodup
  obtain ⟨hlist, hmasks⟩ := hfirst.other idx hidx
  have hpushed : ∀ g, g ≠ idx →
      Same first.2 ((first.2.pushMask idx i).push idx [first.1]) g :=
    fun g hg => (same_pushMask hg i).trans (same_push hg _)
  -- the other children leave the first one as it is
  have hkept : ∀ g ∈ LevelTree.nodes groups nodes c, Same first.2 res.2 g := by
    intro g hg
    -- neither the node itself nor the subtrees of the others meet it
    have hne' : g ≠ idx := by
      rintro rfl
      exact hidx hg
    apply (hpushed g hne').trans
    apply hrest.other
    rw [List.mem_cons, not_or]
    exact ⟨hne', fun hg' => hdisj g hg g hg' rfl⟩
  constructor
  · exact Spread.cons hne hcap (hfirst.spans.congr hlinked hc hkept) hrest.spread
  · rw [hrest.own, push_self]
    change first.2.encodeList idx ++ [first.1] ++ places = _
    rw [hlist, List.append_assoc, List.singleton_append]
  · rw [hrest.masks]
    change (first.2.pushMask idx i).masks idx ++ _ = _
    have hcount : (c :: children).length - 1 = children.length - 1 + 1 := by
      have := List.length_pos_iff.mpr hne
      rw [List.length_cons]
      omega
    rw [pushMask_self, hmasks, hcount, loopMasks_succ, List.append_assoc, List.singleton_append]
  · intro g hg
    rw [List.flatMap_cons, List.mem_cons, List.mem_append, not_or, not_or] at hg
    obtain ⟨hne', hg, hg'⟩ := hg
    refine ((hfirst.other g hg).trans (hpushed g hne')).trans (hrest.other g ?_)
    rw [List.mem_cons, not_or]
    exact ⟨hne', hg'⟩
  · intro q hq
    rw [List.getLast?_cons_of_ne_nil hne] at hq
    exact hrest.tail q hq

theorem searchLoop_spec (hlinked : Numbered groups nodes) (hcap : cap ≤ 4) {i start : Nat}
    {st : Order} {children : List Nat} (hne : children ≠ [])
    (hfits : i + children.length ≤ cap + 1) (hlt : ∀ c ∈ children, c < groups)
    (hvisit : ∀ c ∈ children, ∀ start st,
      (∀ g ∈ LevelTree.nodes groups nodes c, Fresh st g) →
      Visited groups size nodes c start st (visit c start st))
    (hnodup : (idx :: children.flatMap (LevelTree.nodes groups nodes)).Nodup)
    (hfresh : ∀ g ∈ children.flatMap (LevelTree.nodes groups nodes), Fresh st g)
    (hlen : (st.encodeList idx).length = i) :
    ∃ places, Looped groups size nodes idx cap i children start st places
      (searchLoop visit idx cap i children start st) := by
  -- along the children; the loop knows the last one by having no next one
  induction children generalizing i start st with
  | nil => exact absurd rfl hne
  | cons c children ih =>
    have hfreshc : ∀ g ∈ LevelTree.nodes groups nodes c, Fresh st g := fun g hg =>
      hfresh g (List.mem_flatMap.mpr ⟨c, List.mem_cons_self, hg⟩)
    have hidx : idx ∉ LevelTree.nodes groups nodes c := fun hg =>
      (List.nodup_cons.mp hnodup).1 (List.mem_flatMap.mpr ⟨c, List.mem_cons_self, hg⟩)
    cases children with
    | nil =>
      simp only [List.length_singleton] at hfits
      refine ⟨_, looped_last hcap (by omega) hidx ?_⟩
      rw [searchLoop, hlen]
      apply hvisit c List.mem_cons_self
      intro g hg
      have hg' : g ≠ idx := by
        rintro rfl
        exact hidx hg
      exact (hfreshc g hg).same ((same_push hg' _).trans (same_pushMask hg' cap))
    | cons next rest =>
      have hfirst := hvisit c List.mem_cons_self start st hfreshc
      rw [searchLoop]
      generalize visit c start st = first at hfirst
      have hnodup' := hnodup
      rw [List.flatMap_cons, List.nodup_cons, List.mem_append, not_or, List.nodup_append] at hnodup'
      obtain ⟨⟨-, hidx'⟩, -, hrest, hdisj⟩ := hnodup'
      obtain ⟨places, hlooped⟩ := @ih (i + 1) (first.1 + 1)
        ((first.2.pushMask idx i).push idx [first.1]) (List.cons_ne_nil _ _)
        (by rw [List.length_cons] at hfits; omega)
        (fun c hc => hlt c (List.mem_cons_of_mem _ hc))
        (fun c hc => hvisit c (List.mem_cons_of_mem _ hc))
        (List.nodup_cons.mpr ⟨hidx', hrest⟩)
        (fun g hg => by
          have hg' : g ≠ idx := by
            rintro rfl
            exact hidx' hg
          have hother := hfirst.other g fun hgc => hdisj g hgc g hg rfl
          rw [List.flatMap_cons] at hfresh
          exact (hfresh g (List.mem_append_right _ hg)).same
            (hother.trans ((same_pushMask hg' i).trans (same_push hg' _))))
        (by
          rw [push_self, List.length_append]
          change (first.2.encodeList idx).length + 1 = i + 1
          rw [(hfirst.other idx hidx).1, hlen])
      exact ⟨_, hlooped.cons hlinked (List.cons_ne_nil _ _) hcap (hlt c List.mem_cons_self) hnodup
        hfirst⟩

end Loop

/-- A group without children. -/
theorem visited_leaf (hlinked : Numbered groups nodes) {size p start : Nat} {st : Order}
    {ids : List Nat} {stop : Nat} (hp : p < groups) (hleaf : nodes p = [])
    (hfresh : Fresh st p) (hle : start ≤ stop) (hids : ids = List.range' start (stop - start))
    (hfull : p + 1 < groups → stop = start + 4)
    (htail : p = groups - 1 → ids = List.range' start (size - 1 - start) ∧
      stop = max start (size - 1)) :
    Visited groups size nodes p start st (stop, st.assign p ids) := by
  have hself : (st.assign p ids).encodeList p = ids := if_pos rfl
  have hnodes : LevelTree.nodes groups nodes p = [p] := by
    rw [hlinked.nodes_eq hp, hleaf, List.flatMap_nil]
  constructor
  · constructor
    · exact hle
    · rw [keysBelow, hnodes, List.flatMap_singleton, hself, hids]
    · intro g hg
      rw [hnodes, List.mem_singleton] at hg
      subst hg
      have hmasks : (st.assign g ids).masks g = [] := hfresh.2
      constructor
      · intro hlast
        rw [hself, hids, List.length_range', hfull hlast]
        omega
      · rw [hself, hids]
        exact List.pairwise_lt_range'
      · constructor
        · rw [hmasks, hleaf]
        · rw [hmasks]
          exact List.nodup_nil
        · intro child hchild
          rw [hmasks, List.zip_nil_left] at hchild
          cases hchild
  · intro g hg
    rw [hnodes, List.mem_singleton] at hg
    exact same_assign hg ids
  · intro hspine
    -- without children there is no further last child: this is the last group
    rcases hspine.cases_head with rfl | ⟨c, hc, -⟩
    · obtain ⟨hids', hstop⟩ := htail rfl
      exact ⟨start, by rw [hself, hids'], hstop⟩
    · rw [LastChild, hleaf] at hc
      cases hc

/-- A group with children has four places. -/
theorem Looped.visited (hlinked : Numbered groups nodes) {size p start : Nat} {st : Order}
    {places : List Nat} {res : Nat × Order} (hp : p < groups) (hne : nodes p ≠ [])
    (hfive : (nodes p).length ≤ 5) (hfresh : Fresh st p)
    (h : Looped groups size nodes p 4 0 (nodes p) start st places res) :
    Visited groups size nodes p start st res := by
  have hnodes := hlinked.nodes_eq hp
  have hcount := List.length_pos_iff.mpr hne
  have hown := h.own
  have hmasks := h.masks
  rw [hfresh.1, List.nil_append] at hown
  rw [hfresh.2, List.nil_append] at hmasks
  constructor
  · constructor
    · exact h.spread.le
    · have hkeys : keysBelow groups nodes res.2.encodeList p =
          places ++ (nodes p).flatMap (keysBelow groups nodes res.2.encodeList) := by
        rw [keysBelow, hnodes, List.flatMap_cons, hown, List.flatMap_assoc]
        rfl
      rw [hkeys]
      exact h.spread.keys
    · intro g hg
      rw [hnodes, List.mem_cons] at hg
      rcases hg with rfl | hg
      · constructor
        · intro _
          have hlen := h.spread.length
          rw [hown]
          omega
        · rw [hown]
          exact h.spread.ascending
        · constructor
          · rw [hmasks, length_loopMasks]
            omega
          · rw [hmasks]
            exact nodup_loopMasks (by omega) (Nat.le_refl 4)
          · intro child hchild x hx
            rw [hmasks] at hchild
            rw [hown]
            exact h.spread.lanes [] rfl (fun _ hp => by cases hp) child hchild x hx
      · obtain ⟨c, hc, hg⟩ := List.mem_flatMap.mp hg
        exact h.spread.placed c hc g hg
  · intro g hg
    rw [hnodes] at hg
    exact h.other g hg
  · intro hspine
    rcases hspine.cases_head with rfl | ⟨c, hc, hspine⟩
    · -- the last group has no children
      obtain ⟨c, hc⟩ := List.exists_mem_of_ne_nil _ hne
      have hlt := hlinked.lt _ c hc
      have hlt' := hlinked.child_lt hp hc
      omega
    · exact h.tail c hc hspine

/-- `search_children` numbers the subtree. -/
theorem searchChildren_spec (hlinked : Linked groups nodes) {size rounds p start : Nat} {st : Order}
    (hp : p < groups) (hrounds : groups ≤ p + rounds)
    (hfresh : ∀ g ∈ LevelTree.nodes groups nodes p, Fresh st g) :
    Visited groups size nodes p start st (searchChildren nodes groups size rounds p start st) := by
  have hnum := hlinked.toNumbered
  induction rounds generalizing p start st with
  | zero => omega
  | succ rounds ih =>
    have hself := hfresh p (hnum.self_mem_nodes hp)
    rw [searchChildren]
    split
    · rename_i hleaf
      split
      · rename_i hlast
        -- the list of the last group is still empty, so pushing is assigning
        have hpush : st.push p (List.range' start (size - 1 - start)) =
            st.assign p (List.range' start (size - 1 - start)) := by
          rw [Order.push, hself.1, List.nil_append]
        rw [hpush]
        refine visited_leaf hnum hp hleaf hself (Nat.le_max_left _ _) ?_ (by omega)
          fun _ => ⟨rfl, rfl⟩
        congr 1
        omega
      · rename_i hlast
        refine visited_leaf hnum hp hleaf hself (Nat.le_add_right start 4) ?_ (fun _ => rfl)
          fun h => absurd h hlast
        rw [Nat.add_sub_cancel_left]
        rfl
    · rename_i hne
      -- the children are deeper, so one round less is enough for them
      have hnodes := hnum.nodes_eq hp
      obtain ⟨places, hlooped⟩ : ∃ places, Looped groups size nodes p 4 0 (nodes p) start st places
          (searchLoop (searchChildren nodes groups size rounds) p 4 0 (nodes p) start st) := by
        apply searchLoop_spec hnum (Nat.le_refl 4) hne
        · have := hlinked.small p
          omega
        · exact fun c hc => hnum.child_lt hp hc
        · intro c hc start st hfresh
          have hlt := hnum.lt p c hc
          exact ih (hnum.child_lt hp hc) (by omega) hfresh
        · rw [← hnodes]
          exact hnum.nodup_nodes hp
        · intro g hg
          apply hfresh
          rw [hnodes]
          exact List.mem_cons_of_mem _ hg
        · rw [hself.1]
          rfl
      exact hlooped.visited hnum hp hne (hlinked.small p) hself

/-! ## Section 6: The root -/

/-- What `init_order` leaves: the root has the first and the last position, and two between
    its children. -/
structure Rooted (groups size : Nat) (nodes : Children) (st : Order) (stop : Nat)
    (places : List Nat) : Prop where
  spread : Spread groups nodes st 1 3 (nodes 0) 1 stop places
  own : st.encodeList 0 = 0 :: (places ++ [size - 1])
  masks : st.masks 0 = loopMasks 1 ((nodes 0).length - 1) 3
  tail : Tail groups size (stop, st)

theorem fresh_empty (g : Nat) : Fresh Order.empty g := ⟨rfl, rfl⟩

/-- Up to four groups. -/
theorem rooted_of_le (hlinked : Linked groups nodes) {size : Nat} (htwo : 2 ≤ groups)
    (hfour : groups ≤ 4) (hsize : 4 < size) :
    ∃ stop places, Rooted groups size nodes (initOrder nodes groups size) stop places := by
  have hnum := hlinked.toNumbered
  have hnodes := hnum.nodes_eq hnum.pos
  have hnodup := hnum.nodup_nodes hnum.pos
  rw [hnodes] at hnodup
  have hroot := hlinked.root
  rw [if_pos hfour] at hroot
  have hcount : (nodes 0).length = groups - 1 := by rw [hroot, List.length_range']
  have hne : nodes 0 ≠ [] := by
    intro hnil
    rw [hnil, List.length_nil] at hcount
    omega
  -- the root is not below its children
  have hzero : ∀ g ∈ (nodes 0).flatMap (LevelTree.nodes groups nodes), g ≠ 0 := by
    rintro g hg rfl
    exact (List.nodup_cons.mp hnodup).1 hg
  obtain ⟨places, hlooped⟩ : ∃ places, Looped groups size nodes 0 3 1 (nodes 0) 1
      (Order.empty.push 0 [0]) places (searchLoop (searchChildren nodes groups size groups) 0 3 1
        (nodes 0) 1 (Order.empty.push 0 [0])) := by
    apply searchLoop_spec hnum (by decide) hne
    · omega
    · exact fun c hc => hnum.child_lt hnum.pos hc
    · intro c hc start st hfresh
      exact searchChildren_spec hlinked (hnum.child_lt hnum.pos hc) (Nat.le_add_left _ _) hfresh
    · exact hnodup
    · exact fun g hg => (fresh_empty g).same (same_push (hzero g hg) _)
    · rfl
  rw [initOrder, if_neg (Nat.not_le_of_lt hsize), if_pos hfour]
  generalize searchLoop (searchChildren nodes groups size groups) 0 3 1 (nodes 0) 1
    (Order.empty.push 0 [0]) = res at hlooped
  refine ⟨res.1, places, ?_, ?_, hlooped.masks, ?_⟩
  · apply hlooped.spread.congr hnum fun c hc => hnum.child_lt hnum.pos hc
    intro c hc g hg
    exact same_push (hzero g (List.mem_flatMap.mpr ⟨c, hc, hg⟩)) _
  · rw [push_self, hlooped.own, List.append_assoc]
    rfl
  · -- the walk down the last children ends at the last group, which is not the root
    rcases hlinked.spine.cases_head with hzero' | ⟨q, hq, hspine⟩
    · omega
    · obtain ⟨b, hlist, hstop⟩ := hlooped.tail q hq hspine
      refine ⟨b, ?_, hstop⟩
      rw [(same_push (show groups - 1 ≠ 0 by omega) _).1]
      exact hlist

/-- The three visits that `init_order` makes from more than four groups on. Between them only
    the root changes. -/
theorem spread_three (hnum : Numbered groups nodes) {size pivot₁ pivot₂ stop : Nat}
    {st₀ st₁ st₁' st₂ st₂' st₃ : Order} (hfour : 4 < groups)
    (hnodup : (0 :: [1, 2, 3].flatMap (LevelTree.nodes groups nodes)).Nodup)
    (hfirst : Visited groups size nodes 1 1 st₀ (pivot₁, st₁))
    (hroot₁ : ∀ g, g ≠ 0 → Same st₁ st₁' g)
    (hsecond : Visited groups size nodes 2 (pivot₁ + 1) st₁' (pivot₂, st₂))
    (hroot₂ : ∀ g, g ≠ 0 → Same st₂ st₂' g)
    (hthird : Visited groups size nodes 3 (pivot₂ + 1) st₂' (stop, st₃)) :
    Spread groups nodes st₃ 1 3 [1, 2, 3] 1 stop [pivot₁, pivot₂] := by
  simp only [List.flatMap_cons, List.flatMap_nil, List.append_nil, List.nodup_cons,
    List.nodup_append, List.mem_append, not_or] at hnodup
  obtain ⟨⟨hzero₁, hzero₂, -⟩, -, ⟨-, -, hdisj₂⟩, hdisj₁⟩ := hnodup
  -- the second and the third child do not change the groups of those before
  have hkept₂ : ∀ g ∈ LevelTree.nodes groups nodes 2, Same st₂ st₃ g := by
    intro g hg
    apply (hroot₂ g fun hzero => hzero₂ (hzero ▸ hg)).trans
    exact hthird.other g fun hg' => hdisj₂ g hg g hg' rfl
  have hkept₁ : ∀ g ∈ LevelTree.nodes groups nodes 1, Same st₁ st₃ g := by
    intro g hg
    have hzero : g ≠ 0 := fun hzero => hzero₁ (hzero ▸ hg)
    have hthrough : Same st₁' st₂ g :=
      hsecond.other g fun hg' => hdisj₁ g hg g (Or.inl hg') rfl
    apply (((hroot₁ g hzero).trans hthrough).trans (hroot₂ g hzero)).trans
    exact hthird.other g fun hg' => hdisj₁ g hg g (Or.inr hg') rfl
  have hspans₁ := hfirst.spans.congr hnum (by omega) hkept₁
  have hspans₂ := hsecond.spans.congr hnum (by omega) hkept₂
  have hlast : Spread groups nodes st₃ 3 3 [3] (pivot₂ + 1) stop [] :=
    spread_last (by decide) (Nat.le_refl 3) hthird.spans
  exact Spread.cons (List.cons_ne_nil _ _) (by decide) hspans₁
    (Spread.cons (List.cons_ne_nil _ _) (by decide) hspans₂ hlast)

/-- More than four groups. -/
theorem rooted_of_lt (hlinked : Linked groups nodes) {size : Nat} (hfour : 4 < groups)
    (hsize : 4 < size) :
    ∃ stop places, Rooted groups size nodes (initOrder nodes groups size) stop places := by
  have hnum := hlinked.toNumbered
  have hroot : nodes 0 = [1, 2, 3] := by
    rw [hlinked.root, if_neg (Nat.not_le_of_lt hfour)]
    rfl
  have hnodup := hnum.nodup_nodes hnum.pos
  rw [hnum.nodes_eq hnum.pos, hroot] at hnodup
  have hdisj := hnodup
  simp only [List.flatMap_cons, List.flatMap_nil, List.append_nil, List.nodup_cons,
    List.nodup_append, List.mem_append, not_or] at hdisj
  obtain ⟨⟨hzero₁, hzero₂, hzero₃⟩, -, ⟨-, -, hdisj₂⟩, hdisj₁⟩ := hdisj
  have hvisit : ∀ c start st, c < groups → (∀ g ∈ LevelTree.nodes groups nodes c, Fresh st g) →
      Visited groups size nodes c start st
        (searchChildren nodes groups size groups c start st) :=
    fun c start st hc => searchChildren_spec hlinked hc (Nat.le_add_left _ _)
  rw [initOrder, if_neg (Nat.not_le_of_lt hsize), if_neg (Nat.not_le_of_lt hfour), hroot]
  simp only [List.getD_cons_zero, List.getD_cons_succ]
  generalize hst₀ : (Order.empty.assign 0 [0, 0, 0, size - 1]).assignMasks 0
    [searchMask.getD 1 0, searchMask.getD 2 0, searchMask.getD 3 0] = st₀
  -- before the first visit only the root has something
  have hfresh₀ : ∀ g, g ≠ 0 → Fresh st₀ g := by
    intro g hg
    rw [← hst₀]
    exact ⟨if_neg hg, if_neg hg⟩
  have hown₀ : st₀.encodeList 0 = [0, 0, 0, size - 1] ∧ st₀.masks 0 = loopMasks 1 2 3 := by
    rw [← hst₀]
    exact ⟨rfl, rfl⟩
  -- the first child
  have hfirst := hvisit 1 1 st₀ (by omega) fun g hg =>
    hfresh₀ g fun hzero => hzero₁ (hzero ▸ hg)
  generalize searchChildren nodes groups size groups 1 1 st₀ = first at *
  obtain ⟨pivot₁, st₁⟩ := first
  have hown₁ : st₁.encodeList 0 = [0, 0, 0, size - 1] ∧ st₁.masks 0 = loopMasks 1 2 3 :=
    ⟨(hfirst.other 0 hzero₁).1.trans hown₀.1, (hfirst.other 0 hzero₁).2.trans hown₀.2⟩
  have hfresh₁ : ∀ g, g ≠ 0 → g ∉ LevelTree.nodes groups nodes 1 → Fresh st₁ g :=
    fun g hg hg' => (hfresh₀ g hg).same (hfirst.other g hg')
  simp only [hown₁.1, List.set_cons_succ, List.set_cons_zero]
  -- the second child
  have hsecond := hvisit 2 (pivot₁ + 1) (st₁.assign 0 [0, pivot₁, 0, size - 1]) (by omega)
    fun g hg => by
      have hzero : g ≠ 0 := fun hzero => hzero₂ (hzero ▸ hg)
      have hother : g ∉ LevelTree.nodes groups nodes 1 :=
        fun hg' => hdisj₁ g hg' g (Or.inl hg) rfl
      exact (hfresh₁ g hzero hother).same (same_assign hzero _)
  generalize searchChildren nodes groups size groups 2 (pivot₁ + 1)
    (st₁.assign 0 [0, pivot₁, 0, size - 1]) = second at *
  obtain ⟨pivot₂, st₂⟩ := second
  have hown₂ : st₂.encodeList 0 = [0, pivot₁, 0, size - 1] ∧ st₂.masks 0 = loopMasks 1 2 3 :=
    ⟨(hsecond.other 0 hzero₂).1, (hsecond.other 0 hzero₂).2.trans hown₁.2⟩
  simp only [hown₂.1, List.set_cons_succ, List.set_cons_zero]
  -- the third child
  have hthird := hvisit 3 (pivot₂ + 1) (st₂.assign 0 [0, pivot₁, pivot₂, size - 1]) (by omega)
    fun g hg => by
      have hzero : g ≠ 0 := fun hzero => hzero₃ (hzero ▸ hg)
      have hother : g ∉ LevelTree.nodes groups nodes 1 :=
        fun hg' => hdisj₁ g hg' g (Or.inr hg) rfl
      have hother' : g ∉ LevelTree.nodes groups nodes 2 := fun hg' => hdisj₂ g hg' g hg rfl
      exact (((hfresh₁ g hzero hother).same (same_assign hzero _)).same
        (hsecond.other g hother')).same (same_assign hzero _)
  generalize searchChildren nodes groups size groups 3 (pivot₂ + 1)
    (st₂.assign 0 [0, pivot₁, pivot₂, size - 1]) = third at *
  obtain ⟨stop, st₃⟩ := third
  refine ⟨stop, [pivot₁, pivot₂], ?_, ?_, ?_, ?_⟩
  · rw [hroot]
    exact spread_three hnum hfour hnodup hfirst (fun g hg => same_assign hg _) hsecond
      (fun g hg => same_assign hg _) hthird
  · exact (hthird.other 0 hzero₃).1
  · rw [hroot]
    exact (hthird.other 0 hzero₃).2.trans hown₂.2
  · rcases hlinked.spine.cases_head with hzero | ⟨q, hq, hspine⟩
    · omega
    · rw [LastChild, hroot] at hq
      cases hq
      exact hthird.tail hspine

/-- `init_order` numbers the tree. -/
theorem initOrder_spec (hlinked : Linked groups nodes) {size : Nat} (htwo : 2 ≤ groups)
    (hsize : 4 < size) :
    ∃ stop places, Rooted groups size nodes (initOrder nodes groups size) stop places := by
  rcases Nat.lt_or_ge 4 groups with hfour | hfour
  · exact rooted_of_lt hlinked hfour hsize
  · exact rooted_of_le hlinked htwo hfour hsize

/-! ## Section 7: The search tree -/

theorem length_flatMap_four {f : Nat → List Nat} {k : Nat} (h : ∀ g < k, (f g).length = 4) :
    ((List.range k).flatMap f).length = 4 * k := by
  induction k with
  | zero => rfl
  | succ k ih =>
    rw [List.range_succ, List.flatMap_append, List.flatMap_singleton, List.length_append,
      ih fun g hg => h g (Nat.lt_succ_of_lt hg), h k (Nat.lt_succ_self k)]
    omega

section

variable {size stop : Nat} {st : Order} {places : List Nat}

theorem Rooted.places_length (h : Rooted groups size nodes st stop places) : places.length = 2 := by
  have := h.spread.length
  omega

theorem Rooted.keys (hnum : Numbered groups nodes) (h : Rooted groups size nodes st stop places) :
    ((List.range groups).flatMap st.encodeList).Perm
      (0 :: (List.range' 1 (stop - 1) ++ [size - 1])) := by
  refine ((hnum.nodes_zero_perm.flatMap_right st.encodeList).symm).trans ?_
  rw [hnum.nodes_eq hnum.pos, List.flatMap_cons, h.own, List.flatMap_assoc, List.cons_append,
    List.append_assoc]
  refine List.Perm.cons 0 (List.Perm.trans ?_ (h.spread.keys.append_right _))
  rw [List.append_assoc]
  exact List.perm_append_comm.append_left places

theorem Rooted.full (hnum : Numbered groups nodes) (h : Rooted groups size nodes st stop places)
    {g : Nat} (hg : g + 1 < groups) : (st.encodeList g).length = 4 := by
  have hmem := hnum.mem_nodes_zero.mpr (show g < groups by omega)
  rw [hnum.nodes_eq hnum.pos, List.mem_cons] at hmem
  rcases hmem with rfl | hmem
  · rw [h.own]
    simp [h.places_length]
  · obtain ⟨c, hc, hmem⟩ := List.mem_flatMap.mp hmem
    exact (h.spread.placed c hc g hmem).full hg

/-- The walk ends at the last position: if it went further there would be too many ids. -/
theorem Rooted.stop_eq (hnum : Numbered groups nodes) (hgroups : groups = (size + 3) / 4)
    (htwo : 2 ≤ groups) (h : Rooted groups size nodes st stop places) : stop = size - 1 := by
  -- all groups but the last hold four, and the keys are the positions up to `stop` and the last
  obtain ⟨b, hlast, hstop⟩ := h.tail
  dsimp only at hlast hstop
  have hcount := (h.keys hnum).length_eq
  rw [show groups = groups - 1 + 1 by omega, List.range_succ, List.flatMap_append,
    List.flatMap_singleton, List.length_append, hlast, List.length_range',
    length_flatMap_four fun g hg => h.full hnum (by omega)] at hcount
  simp only [List.length_cons, List.length_append, List.length_range', List.length_nil] at hcount
  omega

theorem Rooted.perm (hnum : Numbered groups nodes) (hgroups : groups = (size + 3) / 4)
    (htwo : 2 ≤ groups) (h : Rooted groups size nodes st stop places) :
    ((List.range groups).flatMap st.encodeList).Perm (List.range size) := by
  have hkeys := h.keys hnum
  rw [h.stop_eq hnum hgroups htwo] at hkeys
  -- the first position, those between, and the last one
  have hrange : List.range size = 0 :: (List.range' 1 (size - 1 - 1) ++ [size - 1]) := by
    have hsize : size = size - 1 - 1 + 1 + 1 := by omega
    have hlast : size - 1 = 1 + (size - 1 - 1) := by omega
    conv_lhs => rw [hsize, List.range_eq_range', List.range'_succ, List.range'_1_concat]
    rw [← hlast]
  rw [hrange]
  exact hkeys

/-- Every group has its places, the root too. -/
theorem Rooted.placed (hnum : Numbered groups nodes) (hsmall : (nodes 0).length ≤ 3)
    (hgroups : groups = (size + 3) / 4) (htwo : 2 ≤ groups)
    (h : Rooted groups size nodes st stop places) {g : Nat} (hg : g < groups) :
    Placed groups nodes st g := by
  have hmem := hnum.mem_nodes_zero.mpr hg
  rw [hnum.nodes_eq hnum.pos, List.mem_cons] at hmem
  -- the root is above the subtrees that the walk has placed
  rcases hmem with rfl | hmem
  · have hstop := h.stop_eq hnum hgroups htwo
    have hne : nodes 0 ≠ [] := by
      obtain ⟨p, hp, hcount, -⟩ := hnum.exists_parent (Nat.le_refl 1) htwo
      have hparent := hnum.lt p 1 (List.count_pos_iff.mp (by omega))
      rintro hnil
      rw [show p = 0 by omega, hnil] at hcount
      cases hcount
    have hpos := List.length_pos_iff.mpr hne
    have hbefore : ∀ p ∈ places, 1 ≤ p ∧ p < size - 1 := by
      intro p hp
      have := h.spread.mem (Or.inl hp)
      omega
    constructor
    · exact fun hlast => h.full hnum hlast
    · rw [h.own, List.pairwise_cons, List.pairwise_append]
      refine ⟨?_, h.spread.ascending, List.pairwise_singleton _ _, ?_⟩
      · intro p hp
        rcases List.mem_append.mp hp with hp | hp
        · exact (hbefore p hp).1
        · rw [List.mem_singleton.mp hp]
          omega
      · intro p hp q hq
        rw [List.mem_singleton.mp hq]
        exact (hbefore p hp).2
    · constructor
      · rw [h.masks, length_loopMasks]
        omega
      · rw [h.masks]
        exact nodup_loopMasks (by omega) (by decide)
      · intro child hchild x hx
        rw [h.masks] at hchild
        have hx' := h.spread.mem (Or.inr ⟨child.2, (List.of_mem_zip hchild).2, hx⟩)
        -- the last position is behind every key below a child
        rw [h.own, ← List.cons_append, lanesBelow_append_of_le]
        · exact h.spread.lanes [0] rfl (fun p hp => by rw [List.mem_singleton.mp hp]; decide) child
            hchild x hx
        · intro p hp
          rw [List.mem_singleton.mp hp]
          omega
  · obtain ⟨c, hc, hmem⟩ := List.mem_flatMap.mp hmem
    exact h.spread.placed c hc g hmem

theorem Rooted.isSearchTree (hlinked : Linked groups nodes) (hgroups : groups = (size + 3) / 4)
    (htwo : 2 ≤ groups) (h : Rooted groups size nodes st stop places) :
    IsSearchTree size ⟨groups, nodes, st⟩ := by
  have hnum := hlinked.toNumbered
  have hperm := h.perm hnum hgroups htwo
  have hsmall : (nodes 0).length ≤ 3 := by
    rw [hlinked.root, List.length_range']
    split <;> omega
  have hplaced : ∀ g < groups, Placed groups nodes st g :=
    fun g hg => h.placed hnum hsmall hgroups htwo hg
  have hlt : ∀ g < groups, ∀ p ∈ st.encodeList g, p < size := by
    intro g hg p hp
    have hmem : p ∈ (List.range groups).flatMap st.encodeList :=
      List.mem_flatMap.mpr ⟨g, List.mem_range.mpr hg, hp⟩
    rwa [hperm.mem_iff, List.mem_range] at hmem
  constructor
  · rw [← hgroups]
    exact fun c hpos hc => hnum.exists_parent hpos hc
  · exact hperm
  · rw [← hgroups]
    exact fun g hg => ⟨h.full hnum hg, (hplaced g (by omega)).ascending⟩
  · intro α _ a hasc j hj
    rw [← hgroups]
    have hguided : ∀ q ∈ LevelTree.nodes groups nodes 0,
        Guided groups nodes st.encodeList st.masks (lanesBelow a) q := by
      intro q hq
      have hqlt := hnum.lt_of_mem_nodes hnum.pos hq
      have hq' := (hplaced q hqlt).guided
      refine ⟨hq'.length, hq'.nodup, fun child hchild x hx => ?_⟩
      -- positions are compared as the keys are
      obtain ⟨g, hg, hxg⟩ := List.mem_flatMap.mp hx
      have hglt := hnum.lt_of_mem_nodes (hnum.child_lt hqlt (List.of_mem_zip hchild).2) hg
      rw [lanesBelow_eq hasc (hlt q hqlt) (hlt g hglt x hxg)]
      exact hq'.sign child hchild x hx
    -- every position is somewhere below the root
    have hj' : j ∈ keysBelow groups nodes st.encodeList 0 := by
      rw [keysBelow, (hnum.nodes_zero_perm.flatMap_right st.encodeList).mem_iff, hperm.mem_iff,
        List.mem_range]
      exact hj
    obtain ⟨goal, hgoal, hkey, hfinds⟩ := exists_finds hnum hnum.pos hguided hj'
    exact ⟨goal, hnum.lt_of_mem_nodes hnum.pos hgoal, hkey, hfinds⟩

end

/-- From five positions on there is a search tree exactly when the sum with 3 is an `int`. -/
theorem searches_iff {n : Nat} (hfive : 5 ≤ n) : Searches n ↔ n + 3 < 2 ^ 31 := by
  constructor
  · rintro ⟨t, ht, -⟩
    by_contra hlarge
    rw [searchTree, if_pos (Or.inr (Nat.le_of_not_lt hlarge))] at ht
    cases ht
  · intro hsum
    have htwo : 2 ≤ (n + 3) / 4 := by omega
    obtain ⟨nodes, hlink, hlinked⟩ := link_spec htwo (by omega)
    obtain ⟨stop, places, hrooted⟩ := initOrder_spec hlinked htwo (show 4 < n by omega)
    refine ⟨_, ?_, hrooted.isSearchTree hlinked rfl htwo⟩
    rw [searchTree, if_neg (by omega)]
    simp only [hlink]
    rfl

theorem searches_iff_thirty : Searches 30 ↔ 30 + 3 < 2 ^ 31 :=
  searches_iff (by decide)

/-- For the largest `int` the sum is none. -/
theorem not_searches_largest : ¬ Searches (2 ^ 31 - 1) := by
  rintro ⟨t, ht, -⟩
  rw [searchTree, if_pos (Or.inr (by decide))] at ht
  cases ht

end SearchTree

end Vend
