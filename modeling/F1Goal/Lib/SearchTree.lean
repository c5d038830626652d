import Mathlib.Data.Tree.Basic
import Mathlib.Tactic

/-!
# Binary search trees

Insertion at the foot of a search tree. The order of the elements is that of the traversal
`inorder`: `inorder_insert` says that an insertion cuts the traversal at the new element, which
takes the place of an equal one. For the heights, a new node either stands below a leaf
(`belowLeaf`), or fills the free side of a node with one child, or is not made at all; only in the
first case can the tree become taller, and `height_insert` says when it does.
-/

namespace SearchTree

open BinaryTree

variable {α : Type*}

/-- The elements in their order from left to right. -/
def inorder : BinaryTree α → List α
  | .nil => []
  | .node v l r => inorder l ++ v :: inorder r

variable [LinearOrder α]

/-- Insert an element; one that is there already is left alone. -/
def insert (a : α) : BinaryTree α → BinaryTree α
  | .nil => .node a .nil .nil
  | .node v l r =>
    if a < v then .node v (insert a l) r
    else if v < a then .node v l (insert a r)
    else .node v l r

/-- The new node is to hang below a leaf. -/
def belowLeaf (a : α) : BinaryTree α → Bool
  | .nil => false
  | .node v l r =>
    if a < v then decide (l = .nil ∧ r = .nil) || belowLeaf a l
    else if v < a then decide (l = .nil ∧ r = .nil) || belowLeaf a r
    else false

/-- At each node on the way down to `a`, the other side is not taller than the one on the way. -/
def onTallSide (a : α) : BinaryTree α → Bool
  | .nil => true
  | .node v l r =>
    if a < v then decide (r.height ≤ l.height) && onTallSide a l
    else if v < a then decide (l.height ≤ r.height) && onTallSide a r
    else true

theorem insert_ne_nil (a : α) (t : BinaryTree α) : insert a t ≠ .nil := by
  cases t with
  | nil => exact fun h => by cases h
  | node v l r =>
    rw [insert]
    split_ifs <;> exact fun h => by cases h

/-! ### Order -/

/-- A list cut at `a`, with `a` in place of what is equal to it. -/
def cutAt (a : α) (xs : List α) : List α := xs.filter (· < a) ++ a :: xs.filter (a < ·)

theorem mem_cutAt {a b : α} {xs : List α} : b ∈ cutAt a xs ↔ b = a ∨ b ∈ xs := by
  rw [cutAt, List.mem_append, List.mem_cons, List.mem_filter, List.mem_filter, decide_eq_true_iff,
    decide_eq_true_iff]
  constructor
  · rintro (⟨hmem, -⟩ | rfl | ⟨hmem, -⟩)
    · exact .inr hmem
    · exact .inl rfl
    · exact .inr hmem
  · rintro (rfl | hmem)
    · exact .inr (.inl rfl)
    · rcases lt_trichotomy b a with hlt | rfl | hlt
      · exact .inl ⟨hmem, hlt⟩
      · exact .inr (.inl rfl)
      · exact .inr (.inr ⟨hmem, hlt⟩)

theorem pairwise_cutAt {xs : List α} (h : xs.Pairwise (· < ·)) (a : α) :
    (cutAt a xs).Pairwise (· < ·) := by
  have hbelow : ∀ b ∈ xs.filter (· < a), b < a := fun b hb =>
    of_decide_eq_true (List.mem_filter.1 hb).2
  have habove : ∀ b ∈ xs.filter (a < ·), a < b := fun b hb =>
    of_decide_eq_true (List.mem_filter.1 hb).2
  refine List.pairwise_append.2 ⟨h.filter _, List.pairwise_cons.2 ⟨habove, h.filter _⟩, ?_⟩
  intro b hb c hc
  rcases List.mem_cons.1 hc with rfl | hc
  · exact hbelow b hb
  · exact (hbelow b hb).trans (habove c hc)

/-- Below the cut nothing is left of a list of larger elements, and above it all. -/
theorem cutAt_append {a : α} {xs ys : List α} (h : ∀ b ∈ ys, a < b) :
    cutAt a (xs ++ ys) = cutAt a xs ++ ys := by
  have hnone : ys.filter (· < a) = [] :=
    List.filter_eq_nil_iff.2 fun b hb => by simpa using (h b hb).le
  have hall : ys.filter (a < ·) = ys := List.filter_eq_self.2 fun b hb => by simpa using h b hb
  rw [cutAt, cutAt, List.filter_append, List.filter_append, hnone, hall, List.append_nil,
    List.append_assoc, List.cons_append]

theorem cutAt_append_left {a : α} {xs ys : List α} (h : ∀ b ∈ xs, b < a) :
    cutAt a (xs ++ ys) = xs ++ cutAt a ys := by
  have hnone : xs.filter (a < ·) = [] :=
    List.filter_eq_nil_iff.2 fun b hb => by simpa using (h b hb).le
  have hall : xs.filter (· < a) = xs := List.filter_eq_self.2 fun b hb => by simpa using h b hb
  rw [cutAt, cutAt, List.filter_append, List.filter_append, hnone, hall, List.nil_append,
    List.append_assoc]

/-- **An insertion cuts the traversal at the new element.** -/
theorem inorder_insert {t : BinaryTree α} (h : (inorder t).Pairwise (· < ·)) (a : α) :
    inorder (insert a t) = cutAt a (inorder t) := by
  induction t with
  | nil => rfl
  | node v l r ihl ihr =>
    obtain ⟨hl, hvr, hlv⟩ := List.pairwise_append.1 h
    obtain ⟨hv, hr⟩ := List.pairwise_cons.1 hvr
    rw [insert]
    split_ifs with hav hva
    · rw [inorder, inorder, ihl hl, cutAt_append]
      intro b hb
      rcases List.mem_cons.1 hb with rfl | hb
      · exact hav
      · exact hav.trans (hv b hb)
    · have hleft : ∀ b ∈ inorder l ++ [v], b < a := by
        intro b hb
        rcases List.mem_append.1 hb with hb | hb
        · exact (hlv b hb v List.mem_cons_self).trans hva
        · rwa [List.mem_singleton.1 hb]
      rw [inorder, inorder, ihr hr, List.append_cons _ v (inorder r), cutAt_append_left hleft,
        List.append_assoc, List.singleton_append]
    · obtain rfl : a = v := le_antisymm (not_lt.1 hva) (not_lt.1 hav)
      rw [inorder, cutAt_append_left fun b hb => hlv b hb a List.mem_cons_self]
      have hfront : cutAt a (a :: inorder r) = a :: inorder r := by
        have hcut : cutAt a ([a] ++ inorder r) = cutAt a [a] ++ inorder r := cutAt_append hv
        simpa [cutAt] using hcut
      rw [hfront]

theorem mem_inorder_insert {t : BinaryTree α} (h : (inorder t).Pairwise (· < ·)) {a b : α} :
    b ∈ inorder (insert a t) ↔ b = a ∨ b ∈ inorder t := by
  rw [inorder_insert h, mem_cutAt]

/-- **An insertion keeps the order.** -/
theorem pairwise_inorder_insert {t : BinaryTree α} (h : (inorder t).Pairwise (· < ·)) (a : α) :
    (inorder (insert a t)).Pairwise (· < ·) := by
  rw [inorder_insert h]
  exact pairwise_cutAt h a

/-! ### Heights -/

omit [LinearOrder α] in
theorem height_eq_zero {t : BinaryTree α} : t.height = 0 ↔ t = .nil := by
  cases t <;> simp

/-- A tree without a leaf on the way keeps its height. -/
theorem height_insert_of_not {t : BinaryTree α} {a : α} (hne : t ≠ .nil)
    (h : belowLeaf a t = false) : (insert a t).height = t.height := by
  induction t with
  | nil => exact absurd rfl hne
  | node v l r ihl ihr =>
    rw [belowLeaf] at h
    rw [insert]
    split_ifs at h ⊢ with hav hva
    · obtain ⟨hfree, hbelow⟩ := Bool.or_eq_false_iff.1 h
      by_cases hl : l = .nil
      · -- the new node fills the free side
        have hr : r.height ≠ 0 := fun hr =>
          of_decide_eq_false hfree ⟨hl, height_eq_zero.1 hr⟩
        simp only [hl, insert, height]
        omega
      · rw [height, height, ihl hl hbelow]
    · obtain ⟨hfree, hbelow⟩ := Bool.or_eq_false_iff.1 h
      by_cases hr : r = .nil
      · have hl : l.height ≠ 0 := fun hl =>
          of_decide_eq_false hfree ⟨height_eq_zero.1 hl, hr⟩
        simp only [hr, insert, height]
        omega
      · rw [height, height, ihr hr hbelow]
    · rfl

theorem height_insert_le (t : BinaryTree α) (a : α) : (insert a t).height ≤ t.height + 1 := by
  induction t with
  | nil => simp [insert]
  | node v l r ihl ihr =>
    rw [insert]
    split_ifs <;> simp only [height] <;> omega

/-- **A node below a leaf makes the tree taller** exactly when no other side of the way to it is
taller. -/
theorem height_insert {t : BinaryTree α} {a : α} (h : belowLeaf a t = true) :
    (insert a t).height = t.height + 1 ↔ onTallSide a t = true := by
  induction t with
  | nil => cases h
  | node v l r ihl ihr =>
    rw [belowLeaf] at h
    rw [insert, onTallSide]
    split_ifs at h ⊢ with hav hva
    · rw [Bool.and_eq_true, decide_eq_true_iff]
      by_cases hleaf : l = .nil ∧ r = .nil
      · simp [hleaf.1, hleaf.2, insert, onTallSide]
      · rw [decide_eq_false hleaf, Bool.false_or] at h
        have hle := height_insert_le l a
        rw [← ihl h, height, height]
        omega
    · rw [Bool.and_eq_true, decide_eq_true_iff]
      by_cases hleaf : l = .nil ∧ r = .nil
      · simp [hleaf.1, hleaf.2, insert, onTallSide]
      · rw [decide_eq_false hleaf, Bool.false_or] at h
        have hle := height_insert_le r a
        rw [← ihr h, height, height]
        omega

end SearchTree
