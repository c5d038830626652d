import F1Goal.BasicTypes
import F1Goal.Lib.Lts
import F1Goal.Lib.SearchTree

/-!
# The binary tree (`bitree.c`)

`bitree_insert` puts an integer into a search tree and returns by how much the tree has become
taller, which the caller adds to the height of the node it has called it for. `bitree_insert_shape`
says that the links of the nodes are those of the insertion of `SearchTree`; the traversal follows,
`bitree_sorted_set`. The heights do not: what is returned is passed on to the root, past nodes whose
other side is taller. `heights_true_iff` says when they are right. `malloc` succeeds.
-/

namespace F1Goal

open BinaryTree

/-- `bitree_t`, or `NULL`. -/
inductive Bitree
  | null
  | node (elem height : ℤ) (pLeft pRight : Bitree)
  deriving DecidableEq, Repr

/-- `bitree_height` -/
def bitreeHeight : Bitree → ℤ
  | .null => -1
  | .node _ height _ _ => height

/-- `bitree_create` -/
def bitreeCreate (elem : ℤ) : Bitree := .node elem 0 .null .null

/-- Change the height of a node. -/
def Bitree.setHeight (f : ℤ → ℤ) : Bitree → Bitree
  | .null => .null
  | .node elem height pLeft pRight => .node elem (f height) pLeft pRight

/-- `p_bt->height += added` -/
def Bitree.addHeight (added : ℤ) (t : Bitree) : Bitree :=
  t.setHeight fun height => i32 (height + added)

/-- `bitree_insert`: what it returns, and the tree after it; `none` when it follows `NULL`. -/
def bitreeInsert : Bitree → ℤ → Option (ℤ × Bitree)
  | .null, _ => none
  | .node e height pLeft pRight, elem =>
    if elem < e then
      if pLeft = .null then
        some (if pRight = .null then 1 else 0, .node e height (bitreeCreate elem) pRight)
      else
        (bitreeInsert pLeft elem).map fun (added, pLeft) =>
          (added, .node e height (pLeft.addHeight added) pRight)
    else if e < elem then
      if pRight = .null then
        some (if pLeft = .null then 1 else 0, .node e height pLeft (bitreeCreate elem))
      else
        (bitreeInsert pRight elem).map fun (added, pRight) =>
          (added, .node e height pLeft (pRight.addHeight added))
    else some (0, .node e height pLeft pRight)

/-- `bitree_mid_show`: the elements and heights that it prints. -/
def bitreeMidShow : Bitree → List (ℤ × ℤ)
  | .null => []
  | .node elem height pLeft pRight =>
    bitreeMidShow pLeft ++ (elem, height) :: bitreeMidShow pRight

/-- An insertion by a caller who makes `caller height added` of the height of the root. -/
def bitreeStep (caller : ℤ → ℤ → ℤ) (t : Bitree) (elem : ℤ) : Option Bitree :=
  (bitreeInsert t elem).map fun (added, t) => t.setHeight fun height => caller height added

/-- The caller adds what is returned. -/
def addReturned (height added : ℤ) : ℤ := i32 (height + added)

/-! ### The shape of the tree -/

/-- The elements and the links of the nodes. -/
def Bitree.shape : Bitree → BinaryTree ℤ
  | .null => .nil
  | .node elem _ pLeft pRight => .node elem pLeft.shape pRight.shape

@[simp] theorem shape_eq_nil {t : Bitree} : t.shape = .nil ↔ t = .null := by
  cases t <;> simp [Bitree.shape]

@[simp] theorem shape_setHeight (f : ℤ → ℤ) (t : Bitree) : (t.setHeight f).shape = t.shape := by
  cases t <;> rfl

@[simp] theorem shape_addHeight (added : ℤ) (t : Bitree) : (t.addHeight added).shape = t.shape :=
  shape_setHeight _ t

theorem inorder_shape (t : Bitree) :
    SearchTree.inorder t.shape = (bitreeMidShow t).map Prod.fst := by
  induction t with
  | null => rfl
  | node elem height pLeft pRight ihl ihr =>
    rw [Bitree.shape, SearchTree.inorder, bitreeMidShow, List.map_append, List.map_cons, ihl, ihr]

/-- **`bitree_insert` inserts into a search tree**, and returns 1 when the new node hangs below a
leaf. -/
theorem bitree_insert_shape {t : Bitree} (ht : t ≠ .null) (elem : ℤ) :
    ∃ t', bitreeInsert t elem = some (if SearchTree.belowLeaf elem t.shape then 1 else 0, t') ∧
      t'.shape = SearchTree.insert elem t.shape := by
  induction t with
  | null => exact absurd rfl ht
  | node e height pLeft pRight ihl ihr =>
    simp only [bitreeInsert, Bitree.shape, SearchTree.insert, SearchTree.belowLeaf, shape_eq_nil]
    rcases lt_trichotomy elem e with hlt | rfl | hgt
    · rw [if_pos hlt, if_pos hlt, if_pos hlt]
      by_cases hl : pLeft = .null
      · subst hl
        refine ⟨.node e height (bitreeCreate elem) pRight, ?_, rfl⟩
        by_cases hr : pRight = .null <;> simp [hr, Bitree.shape, SearchTree.belowLeaf]
      · obtain ⟨l', hins, hshape⟩ := ihl hl
        refine ⟨_, by rw [if_neg hl, hins]; simp [hl]; rfl, ?_⟩
        simp [Bitree.shape, hshape]
    · simp only [lt_irrefl, if_false]
      exact ⟨_, rfl, rfl⟩
    · rw [if_neg hgt.not_gt, if_neg hgt.not_gt, if_neg hgt.not_gt, if_pos hgt, if_pos hgt,
        if_pos hgt]
      by_cases hr : pRight = .null
      · subst hr
        refine ⟨.node e height pLeft (bitreeCreate elem), ?_, rfl⟩
        by_cases hl : pLeft = .null <;> simp [hl, Bitree.shape, SearchTree.belowLeaf]
      · obtain ⟨r', hins, hshape⟩ := ihr hr
        refine ⟨_, by rw [if_neg hr, hins]; simp [hr]; rfl, ?_⟩
        simp [Bitree.shape, hshape]

/-- What an insertion makes of the tree, whatever the caller does with the height of the root. -/
theorem bitreeStep_shape {t : Bitree} (ht : t ≠ .null) (caller : ℤ → ℤ → ℤ) (elem : ℤ) :
    ∃ t', bitreeStep caller t elem = some t' ∧ t' ≠ .null ∧
      t'.shape = SearchTree.insert elem t.shape := by
  obtain ⟨t', hins, hshape⟩ := bitree_insert_shape ht elem
  refine ⟨_, by rw [bitreeStep, hins]; rfl, fun hnull => ?_, (shape_setHeight _ _).trans hshape⟩
  have hnil := congrArg Bitree.shape hnull
  rw [shape_setHeight, hshape] at hnil
  exact SearchTree.insert_ne_nil _ _ hnil

/-- A run of insertions keeps the order of the traversal, and adds what is inserted. -/
theorem bitree_run_sorted {t : Bitree} (ht : t ≠ .null)
    (hsorted : (SearchTree.inorder t.shape).Pairwise (· < ·)) (caller : ℤ → ℤ → ℤ)
    (elems : List ℤ) :
    ∃ t', Lts.run (bitreeStep caller) t elems = some t' ∧
      (SearchTree.inorder t'.shape).Pairwise (· < ·) ∧
        ∀ x, x ∈ SearchTree.inorder t'.shape ↔ x ∈ elems ∨ x ∈ SearchTree.inorder t.shape := by
  induction elems generalizing t with
  | nil => exact ⟨t, rfl, hsorted, fun x => by simp⟩
  | cons elem elems ih =>
    obtain ⟨u, hstep, hu, hshape⟩ := bitreeStep_shape ht caller elem
    have husorted : (SearchTree.inorder u.shape).Pairwise (· < ·) := by
      rw [hshape]
      exact SearchTree.pairwise_inorder_insert hsorted elem
    obtain ⟨t', hrun, htsorted, hmem⟩ := ih hu husorted
    refine ⟨t', by rw [Lts.run_cons, hstep]; exact hrun, htsorted, fun x => ?_⟩
    rw [hmem x, hshape, SearchTree.mem_inorder_insert hsorted, List.mem_cons, ← or_assoc,
      or_comm (a := x ∈ elems)]

/-- **The tree is a sorted set**: after any insertions the traversal is strictly increasing and
contains exactly the integers given, whatever the caller does with the height of the root. -/
theorem bitree_sorted_set (caller : ℤ → ℤ → ℤ) (first : ℤ) (elems : List ℤ) :
    ∃ t, Lts.run (bitreeStep caller) (bitreeCreate first) elems = some t ∧
      ((bitreeMidShow t).map Prod.fst).Pairwise (· < ·) ∧
        ∀ x, x ∈ (bitreeMidShow t).map Prod.fst ↔ x = first ∨ x ∈ elems := by
  have hone : SearchTree.inorder (bitreeCreate first).shape = [first] := rfl
  obtain ⟨t, hrun, hsorted, hmem⟩ := bitree_run_sorted (t := bitreeCreate first)
    (fun h => by cases h) (by rw [hone]; exact List.pairwise_singleton _ _) caller elems
  refine ⟨t, hrun, inorder_shape t ▸ hsorted, fun x => ?_⟩
  rw [← inorder_shape, hmem x, hone, List.mem_singleton, or_comm]

/-! ### Heights -/

/-- **Each height is that of the tree**: the number of links on the longest path down to a leaf. -/
def HeightsTrue : Bitree → Prop
  | .null => True
  | .node elem height pLeft pRight =>
    height = (Bitree.node elem height pLeft pRight).shape.height - 1 ∧
      HeightsTrue pLeft ∧ HeightsTrue pRight

/-- **The condition on an insertion**: when the new node hangs below a leaf, no other side of the
way to it is taller, and the height of the root with the new node is an `int`. -/
def HeightOk (t : Bitree) (elem : ℤ) : Prop :=
  SearchTree.belowLeaf elem t.shape = true →
    SearchTree.onTallSide elem t.shape = true ∧ t.shape.height < 2 ^ 31

instance (t : Bitree) (elem : ℤ) : Decidable (HeightOk t elem) :=
  inferInstanceAs (Decidable (_ → _ ∧ _))

theorem heightsTrue_node {elem height : ℤ} {pLeft pRight : Bitree} :
    HeightsTrue (.node elem height pLeft pRight) ↔
      height = max pLeft.shape.height pRight.shape.height ∧
        HeightsTrue pLeft ∧ HeightsTrue pRight := by
  rw [HeightsTrue, Bitree.shape, BinaryTree.height]
  push_cast
  rw [add_sub_cancel_right]

/-- The height of a node on the way to a new node below a leaf, where `way` is the height of the
side that has become taller, and `other` that of the other side. -/
theorem i32_height_iff {way other : ℕ} (hsmall : max way other + 1 ≤ 2 ^ 31) :
    i32 ((max way other : ℕ) + 1) = (max (way + 1) other : ℕ) ↔
      other ≤ way ∧ max way other + 1 < 2 ^ 31 := by
  rcases Nat.lt_or_eq_of_le hsmall with hlt | heq
  · rw [i32_of_range (by omega) (by omega)]
    omega
  · -- the sum overflows
    have hover : i32 ((max way other : ℕ) + 1) = -2 ^ 31 := by
      rw [show ((max way other : ℕ) + 1 : ℤ) = 2 ^ 31 by omega]
      rfl
    rw [hover]
    omega

/-- The heights on the way to a new node, when its side is `way` before and `way'` after, and the
other side is `other`: `deep` and `tall` say that the node hangs below a leaf, and that no other
side further down is taller. -/
theorem height_on_way {way way' other : ℕ} {deep tall : Bool}
    (hsmall : max way other + 1 ≤ 2 ^ 31) (hsame : deep = false → way' = way)
    (htall : deep = true → (way' = way + 1 ↔ tall = true)) :
    (i32 ((max way other : ℕ) + if deep then 1 else 0) = (max way' other : ℕ) ∧
        (deep = true → tall = true ∧ way < 2 ^ 31)) ↔
      (deep = true → (other ≤ way ∧ tall = true) ∧ max way other + 1 < 2 ^ 31) := by
  cases deep with
  | false =>
    obtain rfl := hsame rfl
    simp only [Bool.false_eq_true, if_false, add_zero, false_implies, and_true, iff_true]
    exact i32_of_range (by omega) (by omega)
  | true =>
    simp only [if_true, true_implies]
    constructor
    · rintro ⟨hfield, htrue, -⟩
      rw [(htall rfl).2 htrue, i32_height_iff hsmall] at hfield
      exact ⟨⟨hfield.1, htrue⟩, hfield.2⟩
    · rintro ⟨⟨hother, htrue⟩, hlt⟩
      rw [(htall rfl).2 htrue, i32_height_iff hsmall]
      exact ⟨⟨hother, hlt⟩, htrue, by omega⟩

/-- The height of the node that the new one hangs below. -/
theorem height_at_end {other : Bitree} (hsmall : other.shape.height + 1 ≤ 2 ^ 31) :
    i32 (other.shape.height + if other = .null then 1 else 0) = (max 1 other.shape.height : ℕ) := by
  by_cases hnull : other = .null
  · subst hnull
    rfl
  · have hpos : other.shape.height ≠ 0 := fun h =>
      hnull (shape_eq_nil.1 (SearchTree.height_eq_zero.1 h))
    rw [if_neg hnull, add_zero, i32_of_range (by omega) (by omega), Nat.max_eq_right (by omega)]

/-- Which side is the taller one makes no difference to the height. -/
theorem heightsTrue_comm {e height added : ℤ} {pLeft pRight : Bitree} :
    HeightsTrue ((Bitree.node e height pLeft pRight).addHeight added) ↔
      HeightsTrue ((Bitree.node e height pRight pLeft).addHeight added) := by
  rw [Bitree.addHeight, Bitree.addHeight, Bitree.setHeight, Bitree.setHeight, heightsTrue_node,
    heightsTrue_node, Nat.max_comm]
  exact and_congr_right fun _ => and_comm

/-- The new node hangs below a node whose other side is `other`. -/
theorem heightsTrue_new {e elem : ℤ} {other : Bitree} (hother : HeightsTrue other)
    (hsmall : other.shape.height + 1 ≤ 2 ^ 31) :
    HeightsTrue ((Bitree.node e other.shape.height (bitreeCreate elem) other).addHeight
      (if other = .null then 1 else 0)) := by
  rw [Bitree.addHeight, Bitree.setHeight, heightsTrue_node]
  exact ⟨height_at_end hsmall, ⟨rfl, trivial, trivial⟩, hother⟩

/-- The new node is further down, on the side `way`, which becomes `way'`. -/
theorem heightsTrue_below {e elem : ℤ} {way way' other : Bitree} (hne : way ≠ .null)
    (hother : HeightsTrue other) (hsmall : max way.shape.height other.shape.height + 1 ≤ 2 ^ 31)
    (hshape : way'.shape = SearchTree.insert elem way.shape)
    (hway : HeightsTrue (way'.addHeight (if SearchTree.belowLeaf elem way.shape then 1 else 0)) ↔
      HeightOk way elem) :
    HeightsTrue ((Bitree.node e (max way.shape.height other.shape.height : ℕ)
        (way'.addHeight (if SearchTree.belowLeaf elem way.shape then 1 else 0)) other).addHeight
      (if SearchTree.belowLeaf elem way.shape then 1 else 0)) ↔
      (SearchTree.belowLeaf elem way.shape = true →
        (other.shape.height ≤ way.shape.height ∧ SearchTree.onTallSide elem way.shape = true) ∧
          max way.shape.height other.shape.height + 1 < 2 ^ 31) := by
  have hnil : way.shape ≠ .nil := fun h => hne (shape_eq_nil.1 h)
  rw [Bitree.addHeight, Bitree.setHeight, heightsTrue_node, hway, shape_addHeight, hshape,
    ← and_assoc, and_iff_left hother, HeightOk,
    height_on_way hsmall (SearchTree.height_insert_of_not hnil) SearchTree.height_insert]

/-- **When the heights are right behind an insertion** whose caller adds what is returned. -/
theorem heightsTrue_insert_iff {t t' : Bitree} {elem added : ℤ} (ht : HeightsTrue t)
    (hsmall : t.shape.height ≤ 2 ^ 31) (hins : bitreeInsert t elem = some (added, t')) :
    HeightsTrue (t'.addHeight added) ↔ HeightOk t elem := by
  induction t generalizing t' added with
  | null => cases hins
  | node e height pLeft pRight ihl ihr =>
    obtain ⟨rfl, hl, hr⟩ := heightsTrue_node.1 ht
    have hsmall : max pLeft.shape.height pRight.shape.height + 1 ≤ 2 ^ 31 := hsmall
    rw [bitreeInsert] at hins
    simp only [HeightOk, Bitree.shape, SearchTree.belowLeaf, SearchTree.onTallSide, shape_eq_nil,
      BinaryTree.height]
    rcases lt_trichotomy elem e with hlt | rfl | hgt
    · rw [if_pos hlt] at hins ⊢
      rw [if_pos hlt]
      by_cases hnull : pLeft = .null
      · subst hnull
        rw [if_pos rfl] at hins
        cases hins
        rw [Bitree.shape, BinaryTree.height, Nat.zero_max] at hsmall ⊢
        refine iff_of_true (heightsTrue_new hr hsmall) fun hleaf => ?_
        have hnull : pRight = .null := by simpa [SearchTree.belowLeaf] using hleaf
        simp [hnull, Bitree.shape, SearchTree.onTallSide]
      · obtain ⟨l', hlins, hshape⟩ := bitree_insert_shape hnull elem
        rw [if_neg hnull, hlins] at hins
        cases hins
        have hbelow := heightsTrue_below (e := e) hnull hr hsmall hshape
          (ihl hl (by omega) hlins)
        simpa [hnull] using hbelow
    · -- the element is there already
      simp only [lt_irrefl, if_false] at hins ⊢
      cases hins
      refine iff_of_true ?_ (by simp)
      rw [Bitree.addHeight, Bitree.setHeight, heightsTrue_node, add_zero,
        i32_of_range (by omega) (by omega)]
      exact ⟨rfl, hl, hr⟩
    · rw [if_neg hgt.not_gt, if_pos hgt] at hins ⊢
      rw [if_neg hgt.not_gt, if_pos hgt]
      by_cases hnull : pRight = .null
      · subst hnull
        rw [if_pos rfl] at hins
        cases hins
        rw [Bitree.shape, BinaryTree.height, Nat.max_zero] at hsmall ⊢
        refine iff_of_true (heightsTrue_comm.2 (heightsTrue_new hl hsmall)) fun hleaf => ?_
        have hnull : pLeft = .null := by simpa [SearchTree.belowLeaf] using hleaf
        simp [hnull, Bitree.shape, SearchTree.onTallSide]
      · obtain ⟨r', hrins, hshape⟩ := bitree_insert_shape hnull elem
        rw [if_neg hnull, hrins] at hins
        cases hins
        rw [Nat.max_comm] at hsmall ⊢
        have hbelow := heightsTrue_below (e := e) hnull hl hsmall hshape
          (ihr hr (by omega) hrins)
        rw [heightsTrue_comm]
        simpa [hnull] using hbelow

/-- **Heights are right at each moment of a run** of insertions whose caller adds what is returned
to the height of the root, exactly when all its insertions meet the condition. -/
theorem heights_true_iff (first : ℤ) (elems : List ℤ) :
    Lts.SafePrefixes (bitreeStep addReturned) HeightsTrue (bitreeCreate first) elems ↔
      Lts.Guarded (bitreeStep addReturned) HeightOk (bitreeCreate first) elems := by
  have hsafe (t : Bitree) (elem : ℤ) (u : Bitree) (ht : HeightsTrue t)
      (hsmall : t.shape.height ≤ 2 ^ 31) (hstep : bitreeStep addReturned t elem = some u) :
      HeightsTrue u ↔ HeightOk t elem := by
    obtain ⟨⟨added, t'⟩, hins, rfl⟩ := Option.map_eq_some_iff.1 hstep
    exact heightsTrue_insert_iff ht hsmall hins
  have hne : bitreeCreate first ≠ .null := fun h => by cases h
  have htrue : HeightsTrue (bitreeCreate first) := ⟨rfl, trivial, trivial⟩
  have hsmall : (bitreeCreate first).shape.height ≤ 2 ^ 31 :=
    (show 1 ≤ 2 ^ 31 by norm_num)
  refine Lts.safe_prefixes_iff_guarded
    (fun t => t ≠ .null ∧ HeightsTrue t ∧ t.shape.height ≤ 2 ^ 31)
    (fun t elem u h hstep => hsafe t elem u h.2.1 h.2.2 hstep) (fun t elem u h hstep hu => ?_)
    ⟨hne, htrue, hsmall⟩ htrue elems
  obtain ⟨u', hstep', hne, hshape⟩ := bitreeStep_shape h.1 addReturned elem
  obtain rfl : u = u' := Option.some.inj (hstep.symm.trans hstep')
  refine ⟨hne, hu, ?_⟩
  rw [hshape]
  cases hdeep : SearchTree.belowLeaf elem t.shape with
  | false =>
    rw [SearchTree.height_insert_of_not (fun hnil => h.1 (shape_eq_nil.1 hnil)) hdeep]
    exact h.2.2
  | true =>
    have hlt := ((hsafe t elem u h.2.1 h.2.2 hstep).1 hu hdeep).2
    exact (SearchTree.height_insert_le _ _).trans hlt

/-- A tree that grows on its taller side only. -/
theorem heights_true_iff_balanced :
    Lts.SafePrefixes (bitreeStep addReturned) HeightsTrue (bitreeCreate 8) [4, 12, 2, 6, 1] :=
  (heights_true_iff 8 _).2 (by decide)

/-- **The height that is returned is added also where the other side is taller**: behind 8, 9, 10, 5
and 3 the height of the root is 3, and no leaf is further down than 2. -/
theorem height_too_large :
    ∃ t, Lts.run (bitreeStep addReturned) (bitreeCreate 8) [9, 10, 5, 3] = some t ∧
      bitreeHeight t = 3 ∧ t.shape.height = 3 ∧ ¬ HeightsTrue t :=
  ⟨_, rfl, by decide, by decide, fun h => absurd h.1 (by decide)⟩

end F1Goal
