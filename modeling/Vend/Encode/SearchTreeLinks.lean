import Mathlib.Algebra.GroupWithZero.Nat
import Vend.Lib.LevelTree

/-! # `SearchTree`: the constructor

    `encode/codec/SIMD/delta_simd_codec.h`. A tree over the groups of four of a list. The
    root has three children, and while the groups fill a level every node of it gets five
    children, from the left. The groups that are left go to the last level from the right:
    the last node above gets the last five.

    From two groups on the tree is numbered, no node has more than five children, and going
    from the root to the last child again and again ends at the last group (`link_spec`).
-/

namespace Vend

namespace SearchTree

open LevelTree
open Relation (ReflTransGen)

/-! ## Section 1: Model -/

/-- `nodes[p]->children` as indices in `nodes`; a null pointer is the empty list. -/
abbrev Children := Nat → List Nat

/-- `nodes[p]->add_children(size)` and the assignments to `nodes[p]->children` after it. -/
def addChildren (nodes : Children) (p : Nat) (children : List Nat) : Children :=
  fun q => if q = p then children else nodes q

/-- The variables of the constructor. -/
structure Level where
  nodes : Children
  parentsIdx : Nat
  parentsNum : Nat
  currentIdx : Nat
  nodeNums : Nat

/-- One round of the loop over the parents of a full level. -/
def fillParent (s : Level) (i : Nat) : Level :=
  { s with
    nodes := addChildren s.nodes (i + s.parentsIdx) (List.range' s.currentIdx 5)
    currentIdx := s.currentIdx + 5 }

/-- The loop over full levels; `none` when `parents_num * 5` is no `int`. -/
def fullLevels : Nat → Level → Option Level
  | 0, _ => none
  | rounds + 1, s =>
    -- the condition of the loop is computed first
    if 2 ^ 31 ≤ s.parentsNum * 5 then none
    else if s.parentsNum * 5 < s.nodeNums then
      let filled := (List.range s.parentsNum).foldl fillParent s
      -- the nodes that just got a parent are the parents of the next level
      fullLevels rounds { filled with
        parentsIdx := s.parentsIdx + s.parentsNum
        parentsNum := s.parentsNum * 5
        nodeNums := s.nodeNums - s.parentsNum * 5 }
    else some s

/-- The last level, and whether the constructor goes on to `init_order`. -/
def lastLevel : Nat → Level → Option (Children × Bool)
  | 0, _ => none
  | rounds + 1, s =>
    if 5 < s.nodeNums then
      -- the last five nodes go to the last parent that has none yet
      lastLevel rounds { s with
        nodes := addChildren s.nodes s.parentsIdx
          (List.range' (s.nodeNums + s.currentIdx - 5) 5)
        nodeNums := s.nodeNums - 5
        parentsIdx := s.parentsIdx - 1 }
    -- this return skips `init_order`
    else if s.nodeNums = 0 then some (s.nodes, false)
    else some (addChildren s.nodes s.parentsIdx (List.range' s.currentIdx s.nodeNums), true)

/-- The constructor up to `init_order`, for `groups_` nodes. -/
def link (groups : Nat) : Option (Children × Bool) :=
  let nodes : Children := fun _ => []
  -- a single group: this return skips `init_order` too
  if groups = 1 then some (nodes, false)
  else if groups ≤ 4 then some (addChildren nodes 0 (List.range' 1 (groups - 1)), true)
  else
    -- the root and its three children are four of the groups
    match fullLevels groups ⟨addChildren nodes 0 (List.range' 1 3), 1, 3, 4, groups - 4⟩ with
    | none => none
    | some s => lastLevel groups { s with parentsIdx := s.currentIdx - 1 }

/-! ## Section 2: Giving children to the next node -/

@[simp] theorem addChildren_self (nodes : Children) (p : Nat) (children : List Nat) :
    addChildren nodes p children p = children :=
  if_pos rfl

theorem addChildren_of_ne (nodes : Children) {p q : Nat} (children : List Nat) (h : q ≠ p) :
    addChildren nodes p children q = nodes q :=
  if_neg h

/-- The last children stay where they are. -/
theorem lastChild_addChildren {nodes : Children} {p : Nat} (hempty : nodes p = [])
    (children : List Nat) {x y : Nat} (h : ReflTransGen (LastChild nodes) x y) :
    ReflTransGen (LastChild (addChildren nodes p children)) x y := by
  refine ReflTransGen.mono ?_ _ _ h
  intro a b hab
  -- `p` has had no last child so far
  have hne : a ≠ p := by
    rintro rfl
    rw [LastChild, hempty] at hab
    cases hab
  rw [LastChild, addChildren_of_ne nodes children hne]
  exact hab

/-- The nodes before `parents` have children, which are the nodes from 1 to `current - 1`. -/
structure Grown (nodes : Children) (parents current : Nat) : Prop where
  flat : (List.range parents).flatMap nodes = List.range' 1 (current - 1)
  empty : ∀ p, parents ≤ p → nodes p = []
  lt : ∀ p, ∀ c ∈ nodes p, p < c
  small : ∀ p, (nodes p).length ≤ 5

theorem grown_none : Grown (fun _ => []) 0 1 where
  flat := rfl
  empty := fun _ _ => rfl
  lt := fun _ _ hc => by cases hc
  small := fun _ => Nat.zero_le 5

theorem Grown.add {nodes : Children} {parents current : Nat} (h : Grown nodes parents current)
    (hlt : parents < current) {w : Nat} (hw : w ≤ 5) :
    Grown (addChildren nodes parents (List.range' current w)) (parents + 1) (current + w) := by
  constructor
  · -- the children of the nodes before stay, and the new ones continue the count
    have hfront : (List.range parents).flatMap (addChildren nodes parents (List.range' current w)) =
        (List.range parents).flatMap nodes :=
      List.flatMap_congr fun p hp =>
        addChildren_of_ne nodes _ (Nat.ne_of_lt (List.mem_range.mp hp))
    rw [List.range_succ, List.flatMap_append, hfront, h.flat, List.flatMap_singleton,
      addChildren_self, show current + w - 1 = current - 1 + w by omega, ← List.range'_append_1,
      show 1 + (current - 1) = current by omega]
  · intro p hp
    rw [addChildren_of_ne nodes _ (show p ≠ parents by omega)]
    exact h.empty p (by omega)
  · intro p c hc
    rcases eq_or_ne p parents with rfl | hne
    · rw [addChildren_self, List.mem_range'_1] at hc
      omega
    · rw [addChildren_of_ne nodes _ hne] at hc
      exact h.lt p c hc
  · intro p
    rcases eq_or_ne p parents with rfl | hne
    · rw [addChildren_self, List.length_range']
      exact hw
    · rw [addChildren_of_ne nodes _ hne]
      exact h.small p

/-! ## Section 3: Full levels -/

/-- After some levels: all parents but those of the last level have their children. -/
structure Leveled (groups : Nat) (s : Level) : Prop
    extends Grown s.nodes s.parentsIdx s.currentIdx where
  pos : 1 ≤ s.parentsIdx
  root : s.nodes 0 = List.range' 1 3
  spine : ReflTransGen (LastChild s.nodes) 0 (s.currentIdx - 1)
  width : s.parentsIdx + s.parentsNum = s.currentIdx
  total : s.currentIdx + s.nodeNums = groups
  left : 1 ≤ s.nodeNums
  pow : ∃ k, s.parentsNum = 3 * 5 ^ k

theorem Leveled.parents_lt {groups : Nat} {s : Level} (h : Leveled groups s) :
    s.parentsIdx < s.currentIdx := by
  obtain ⟨k, hk⟩ := h.pow
  have hwidth := h.width
  have := Nat.pow_pos (n := k) (show 0 < 5 by decide)
  omega

/-- The first rounds of the loop over the parents. -/
theorem fill_spec {groups : Nat} {s : Level} (h : Leveled groups s) (k : Nat) :
    let filled := (List.range k).foldl fillParent s
    Grown filled.nodes (s.parentsIdx + k) (s.currentIdx + 5 * k) ∧
    filled.nodes 0 = List.range' 1 3 ∧
    ReflTransGen (LastChild filled.nodes) 0 (s.currentIdx - 1) ∧
    (1 ≤ k → LastChild filled.nodes (s.parentsIdx + k - 1) (s.currentIdx + 5 * k - 1)) ∧
    filled.parentsIdx = s.parentsIdx ∧ filled.currentIdx = s.currentIdx + 5 * k := by
  induction k with
  | zero => exact ⟨h.toGrown, h.root, h.spine, by omega, rfl, rfl⟩
  | succ k ih =>
    -- round `k` gives the children of parent `k`, which had none
    obtain ⟨hgrown, hroot, hspine, -, hparents, hcurrent⟩ := ih
    have hpos := h.pos
    have hlt := h.parents_lt
    simp only [List.range_succ, List.foldl_append, List.foldl_cons, List.foldl_nil, fillParent]
    generalize (List.range k).foldl fillParent s = filled at *
    rw [hparents, hcurrent, show k + s.parentsIdx = s.parentsIdx + k from Nat.add_comm _ _]
    refine ⟨hgrown.add (by omega) (Nat.le_refl 5), ?_, ?_, fun _ => ?_, rfl, rfl⟩
    · rw [addChildren_of_ne _ _ (by omega)]
      exact hroot
    · exact lastChild_addChildren (hgrown.empty _ (Nat.le_refl _)) _ hspine
    · rw [LastChild, show s.parentsIdx + (k + 1) - 1 = s.parentsIdx + k by omega,
        addChildren_self, List.getLast?_range', if_neg (by decide)]
      rfl

/-- A round of the loop over full levels. -/
theorem Leveled.next {groups : Nat} {s : Level} (h : Leveled groups s)
    (hleft : s.parentsNum * 5 < s.nodeNums) :
    Leveled groups { (List.range s.parentsNum).foldl fillParent s with
      parentsIdx := s.parentsIdx + s.parentsNum
      parentsNum := s.parentsNum * 5
      nodeNums := s.nodeNums - s.parentsNum * 5 } := by
  obtain ⟨hgrown, hroot, hspine, hlast, -, hcurrent⟩ := fill_spec h s.parentsNum
  have hwidth := h.width
  have htotal := h.total
  have hlt := h.parents_lt
  generalize (List.range s.parentsNum).foldl fillParent s = filled at *
  constructor
  · dsimp only
    rw [hcurrent]
    exact hgrown
  · exact Nat.le_add_right_of_le h.pos
  · exact hroot
  · -- the last parent was the last node, and its last child is the last node now
    have hedge := hlast (by omega)
    rw [hwidth] at hedge
    dsimp only
    rw [hcurrent]
    exact hspine.tail hedge
  · dsimp only
    omega
  · dsimp only
    omega
  · dsimp only
    omega
  · obtain ⟨k, hk⟩ := h.pow
    -- five times as many parents
    exact ⟨k + 1, by dsimp only; rw [hk, Nat.pow_succ, Nat.mul_assoc]⟩

/-- The number of parents is three times a power of five, and the next such number after the
    last one below `2 ^ 29` is an `int`. -/
theorem Leveled.parents_mul_lt {groups : Nat} {s : Level} (h : Leveled groups s)
    (hgroups : groups < 2 ^ 29) : s.parentsNum * 5 < 2 ^ 31 := by
  obtain ⟨k, hk⟩ := h.pow
  have hwidth := h.width
  have htotal := h.total
  -- 3 * 5^12 is above 2^29, and 3 * 5^11 * 5 is below 2^31
  have hsmall : k ≤ 11 := by
    by_contra hlarge
    have hpow : 5 ^ 12 ≤ 5 ^ k := Nat.pow_le_pow_right (by decide) (by omega)
    omega
  have hpow : 5 ^ k ≤ 5 ^ 11 := Nat.pow_le_pow_right (by decide) hsmall
  omega

/-- The loop over full levels ends with all that is left fitting below the last one. -/
theorem fullLevels_spec {groups : Nat} (hgroups : groups < 2 ^ 29) {rounds : Nat} {s : Level}
    (h : Leveled groups s) (hrounds : s.nodeNums ≤ rounds) :
    ∃ s', fullLevels rounds s = some s' ∧ Leveled groups s' ∧ s'.nodeNums ≤ s'.parentsNum * 5 := by
  induction rounds generalizing s with
  | zero =>
    have := h.left
    omega
  | succ rounds ih =>
    rw [fullLevels, if_neg (Nat.not_le_of_lt (h.parents_mul_lt hgroups))]
    split
    · rename_i hleft
      have hlt := h.parents_lt
      have hwidth := h.width
      -- every round takes nodes away, so the rounds are enough
      apply ih (h.next hleft)
      dsimp only
      omega
    · rename_i hfits
      exact ⟨s, rfl, h, Nat.le_of_not_lt hfits⟩

/-! ## Section 4: The last level -/

/-- The nodes left get their parents between `low` and `high`, from the right. -/
structure LastFilled (nodes nodes' : Children) (low high current left : Nat) : Prop where
  other : ∀ p, p < low ∨ high < p → nodes' p = nodes p
  flat : (List.range' low (high + 1 - low)).flatMap nodes' = List.range' current left
  behind : ∀ p, low ≤ p → p ≤ high → ∀ c ∈ nodes' p, current ≤ c
  small : ∀ p, low ≤ p → p ≤ high → (nodes' p).length ≤ 5
  last : LastChild nodes' high (current + left - 1)

theorem lastFilled_one {nodes : Children} {low high current left : Nat}
    (hempty : ∀ p, low ≤ p → p ≤ high → nodes p = []) (hle : low ≤ high) (hpos : 1 ≤ left)
    (hleft : left ≤ 5) :
    LastFilled nodes (addChildren nodes high (List.range' current left)) low high current left := by
  have hother : ∀ p, p ≠ high →
      addChildren nodes high (List.range' current left) p = nodes p :=
    fun p hne => addChildren_of_ne nodes _ hne
  constructor
  · intro p hp
    exact hother p (by omega)
  · -- only the last parent has children
    have hfront : (List.range' low (high - low)).flatMap
        (addChildren nodes high (List.range' current left)) = [] := by
      rw [List.flatMap_eq_nil_iff]
      intro p hp
      rw [List.mem_range'_1] at hp
      rw [hother p (by omega)]
      exact hempty p hp.1 (by omega)
    rw [show high + 1 - low = high - low + 1 by omega, List.range'_1_concat, List.flatMap_append,
      hfront, List.flatMap_singleton, List.nil_append, Nat.add_sub_cancel' hle, addChildren_self]
  · intro p hlow hhigh c hc
    rcases eq_or_ne p high with rfl | hne
    · rw [addChildren_self, List.mem_range'_1] at hc
      exact hc.1
    · rw [hother p hne, hempty p hlow hhigh] at hc
      cases hc
  · intro p hlow hhigh
    rcases eq_or_ne p high with rfl | hne
    · rw [addChildren_self, List.length_range']
      exact hleft
    · rw [hother p hne, hempty p hlow hhigh]
      exact Nat.zero_le 5
  · rw [LastChild, addChildren_self, List.getLast?_range', if_neg (by omega)]

/-- The last parent gets five, and those before it what remains. -/
theorem LastFilled.before {nodes nodes' : Children} {low high current left : Nat}
    (h : LastFilled (addChildren nodes high (List.range' (left + current - 5) 5)) nodes' low
      (high - 1) current (left - 5))
    (hle : low < high) (hleft : 5 < left) : LastFilled nodes nodes' low high current left := by
  have hhigh : nodes' high = List.range' (left + current - 5) 5 := by
    rw [h.other high (by omega), addChildren_self]
  constructor
  · intro p hp
    rw [h.other p (by omega)]
    exact addChildren_of_ne nodes _ (by omega)
  · -- the five of the last parent come behind those of the parents before it
    have hflat := h.flat
    rw [show high - 1 + 1 - low = high - low by omega] at hflat
    rw [show high + 1 - low = high - low + 1 by omega, List.range'_1_concat, List.flatMap_append,
      hflat, List.flatMap_singleton, Nat.add_sub_cancel' (Nat.le_of_lt hle), hhigh,
      show left + current - 5 = current + (left - 5) by omega, List.range'_append_1,
      Nat.sub_add_cancel (Nat.le_of_lt hleft)]
  · intro p hlow hp c hc
    rcases eq_or_ne p high with rfl | hne
    · rw [hhigh, List.mem_range'_1] at hc
      omega
    · exact h.behind p hlow (by omega) c hc
  · intro p hlow hp
    rcases eq_or_ne p high with rfl | hne
    · exact Nat.le_of_eq (by rw [hhigh, List.length_range'])
    · exact h.small p hlow (by omega)
  · rw [LastChild, hhigh, List.getLast?_range', if_neg (by decide)]
    congr 1
    omega

theorem lastLevel_spec {rounds low : Nat} {s : Level} (hle : low ≤ s.parentsIdx)
    (hempty : ∀ p, low ≤ p → p ≤ s.parentsIdx → s.nodes p = []) (hpos : 1 ≤ s.nodeNums)
    (hfits : s.nodeNums ≤ (s.parentsIdx + 1 - low) * 5) (hrounds : s.nodeNums ≤ rounds) :
    ∃ nodes', lastLevel rounds s = some (nodes', true) ∧
      LastFilled s.nodes nodes' low s.parentsIdx s.currentIdx s.nodeNums := by
  induction rounds generalizing s with
  | zero => omega
  | succ rounds ih =>
    rw [lastLevel]
    split
    · rename_i hleft
      -- more than five are left, so one parent cannot be enough
      have hlt : low < s.parentsIdx := by omega
      obtain ⟨nodes', hres, hfilled⟩ := @ih { s with
        nodes := addChildren s.nodes s.parentsIdx
          (List.range' (s.nodeNums + s.currentIdx - 5) 5)
        nodeNums := s.nodeNums - 5
        parentsIdx := s.parentsIdx - 1 } (Nat.le_sub_one_of_lt hlt)
        (fun p hlow hp => by
          dsimp only at hp ⊢
          rw [addChildren_of_ne _ _ (by omega)]
          exact hempty p hlow (by omega))
        (by dsimp only; omega) (by dsimp only; omega) (by dsimp only; omega)
      exact ⟨nodes', hres, hfilled.before hlt hleft⟩
    · rw [if_neg (by omega)]
      exact ⟨_, rfl, lastFilled_one hempty hle hpos (by omega)⟩

/-! ## Section 5: The tree -/

/-- What the constructor builds. -/
structure Linked (groups : Nat) (nodes : Children) : Prop extends Numbered groups nodes where
  small : ∀ p, (nodes p).length ≤ 5
  root : nodes 0 = List.range' 1 (if groups ≤ 4 then groups - 1 else 3)
  spine : ReflTransGen (LastChild nodes) 0 (groups - 1)

/-- The root is the only parent of up to four groups. -/
theorem linked_root {groups : Nat} (htwo : 2 ≤ groups) (hfour : groups ≤ 4) :
    Linked groups (addChildren (fun _ => []) 0 (List.range' 1 (groups - 1))) := by
  have hgrown := grown_none.add (show 0 < 1 by decide) (show groups - 1 ≤ 5 by omega)
  constructor
  · constructor
    · omega
    · have hrange := @List.range'_append_1 0 1 (groups - 1)
      rw [show 1 + (groups - 1) = groups by omega] at hrange
      -- the root has all the children
      have hnone : (List.range' 1 (groups - 1)).flatMap
          (addChildren (fun _ => []) 0 (List.range' 1 (groups - 1))) = [] := by
        rw [List.flatMap_eq_nil_iff]
        intro p hp
        exact hgrown.empty p (List.mem_range'_1.mp hp).1
      rw [List.range_eq_range', ← hrange, List.flatMap_append, hnone, List.append_nil]
      exact hgrown.flat.trans (by congr 1; omega)
    · exact hgrown.lt
  · exact hgrown.small
  · rw [addChildren_self, if_pos hfour]
  · apply ReflTransGen.single
    rw [LastChild, addChildren_self, List.getLast?_range', if_neg (by omega)]
    congr 1
    omega

theorem leveled_root {groups : Nat} (hfour : 4 < groups) :
    Leveled groups ⟨addChildren (fun _ => []) 0 (List.range' 1 3), 1, 3, 4, groups - 4⟩ where
  toGrown := grown_none.add (by decide) (by decide)
  pos := Nat.le_refl 1
  root := rfl
  spine := .single rfl
  width := rfl
  total := Nat.add_sub_cancel' (Nat.le_of_lt hfour)
  left := Nat.le_sub_of_add_le (by omega)
  pow := ⟨0, rfl⟩

/-- The last level completes the tree. -/
theorem Leveled.linked {groups : Nat} {s : Level} (h : Leveled groups s) (hfour : 4 < groups)
    {nodes' : Children} (hfilled : LastFilled s.nodes nodes' s.parentsIdx (s.currentIdx - 1)
      s.currentIdx s.nodeNums) : Linked groups nodes' := by
  have hlt := h.parents_lt
  have hpos := h.pos
  have hleft := h.left
  have htotal := h.total
  have hhigh : s.currentIdx - 1 + 1 = s.currentIdx := by omega
  have hflat := hfilled.flat
  rw [hhigh] at hflat
  constructor
  · constructor
    · omega
    · -- the parents of the levels before, those of the last level, and the leaves
      have hsplit : List.range groups =
          List.range s.parentsIdx ++ List.range' s.parentsIdx (s.currentIdx - s.parentsIdx) ++
            List.range' s.currentIdx s.nodeNums := by
        have hfirst := @List.range'_append_1 0 s.parentsIdx (s.currentIdx - s.parentsIdx)
        have hsecond := @List.range'_append_1 0 s.currentIdx s.nodeNums
        rw [Nat.zero_add, Nat.add_sub_cancel' (Nat.le_of_lt hlt)] at hfirst
        rw [Nat.zero_add, htotal] at hsecond
        rw [List.range_eq_range', List.range_eq_range', hfirst, hsecond]
      have hfront : (List.range s.parentsIdx).flatMap nodes' =
          (List.range s.parentsIdx).flatMap s.nodes :=
        List.flatMap_congr fun p hp => hfilled.other p (Or.inl (List.mem_range.mp hp))
      have hleaves : (List.range' s.currentIdx s.nodeNums).flatMap nodes' = [] := by
        rw [List.flatMap_eq_nil_iff]
        intro p hp
        rw [List.mem_range'_1] at hp
        rw [hfilled.other p (by omega)]
        exact h.empty p (by omega)
      rw [hsplit, List.flatMap_append, List.flatMap_append, hfront, h.flat, hflat, hleaves,
        List.append_nil, ← htotal, show s.currentIdx + s.nodeNums - 1 =
          s.currentIdx - 1 + s.nodeNums by omega, ← List.range'_append_1,
        show 1 + (s.currentIdx - 1) = s.currentIdx by omega]
    · -- a child in the last level is behind all parents
      intro p c hc
      by_cases hp : s.parentsIdx ≤ p ∧ p ≤ s.currentIdx - 1
      · have hbehind := hfilled.behind p hp.1 hp.2 c hc
        omega
      · rw [hfilled.other p (by omega)] at hc
        exact h.lt p c hc
  · intro p
    by_cases hp : s.parentsIdx ≤ p ∧ p ≤ s.currentIdx - 1
    · exact hfilled.small p hp.1 hp.2
    · rw [hfilled.other p (by omega)]
      exact h.small p
  · rw [if_neg (Nat.not_le_of_lt hfour), hfilled.other 0 (Or.inl hpos)]
    exact h.root
  · -- the path down to the last node of the level above, and one step more
    have hspine : ReflTransGen (LastChild nodes') 0 (s.currentIdx - 1) := by
      refine ReflTransGen.mono ?_ _ _ h.spine
      intro p q hpq
      have hparent : p < s.parentsIdx := by
        by_contra hge
        rw [LastChild, h.empty p (Nat.le_of_not_lt hge)] at hpq
        cases hpq
      rw [LastChild, hfilled.other p (Or.inl hparent)]
      exact hpq
    have hedge := hfilled.last
    rw [htotal] at hedge
    exact hspine.tail hedge

/-- From two groups on the constructor goes on to `init_order` with a complete tree. -/
theorem link_spec {groups : Nat} (htwo : 2 ≤ groups) (hgroups : groups < 2 ^ 29) :
    ∃ nodes, link groups = some (nodes, true) ∧ Linked groups nodes := by
  unfold link
  rw [if_neg (by omega)]
  rcases Nat.lt_or_ge 4 groups with hfour | hfour
  · rw [if_neg (Nat.not_le_of_lt hfour)]
    obtain ⟨s, hres, hs, hfits⟩ := fullLevels_spec hgroups (leveled_root hfour)
      (show groups - 4 ≤ groups from Nat.sub_le groups 4)
    have hlt := hs.parents_lt
    have hwidth := hs.width
    have htotal := hs.total
    obtain ⟨nodes', hres', hfilled⟩ := @lastLevel_spec groups s.parentsIdx
      { s with parentsIdx := s.currentIdx - 1 } (Nat.le_sub_one_of_lt hlt)
      (fun p hlow _ => hs.empty p hlow) hs.left (by dsimp only; omega) (by dsimp only; omega)
    rw [hres]
    exact ⟨nodes', hres', hs.linked hfour hfilled⟩
  · rw [if_pos hfour]
    exact ⟨_, rfl, linked_root htwo hfour⟩

end SearchTree

end Vend
