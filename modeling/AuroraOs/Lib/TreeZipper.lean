import Mathlib

/-!
# Zippers of binary trees

The in-order sequence of a binary tree, and contexts: a path from a subtree up to the root that
keeps, at every step, the parent and the sibling subtree.  `plug c t` is the whole tree with `t` at
the hole of `c`.  Whatever is done to the subtree, the in-order sequence outside the hole stays
`before c` and `after c` (`inorder_plug`).
-/

namespace TreeZipper

variable {α : Type*}

/-- The values of a tree from left to right. -/
def inorder : BinaryTree α → List α
  | .nil => []
  | .node p l r => inorder l ++ p :: inorder r

@[simp] theorem inorder_nil : inorder (.nil : BinaryTree α) = [] := rfl

@[simp] theorem inorder_node (p : α) (l r : BinaryTree α) :
    inorder (.node p l r) = inorder l ++ p :: inorder r := rfl

/-- One step of a path: the parent with the sibling on the other side. -/
inductive Step (α : Type*)
  /-- the hole is the left child of `p` -/
  | left (p : α) (r : BinaryTree α)
  /-- the hole is the right child of `p` -/
  | right (p : α) (l : BinaryTree α)

/-- A path from the hole up to the root. -/
abbrev Ctx (α : Type*) := List (Step α)

/-- The node of a step, around a subtree. -/
def Step.fill : Step α → BinaryTree α → BinaryTree α
  | .left p r, t => .node p t r
  | .right p l, t => .node p l t

/-- Fill the hole of a context. -/
def plug : Ctx α → BinaryTree α → BinaryTree α
  | [], t => t
  | .left p r :: c, t => plug c (.node p t r)
  | .right p l :: c, t => plug c (.node p l t)

@[simp] theorem plug_nil (t : BinaryTree α) : plug [] t = t := rfl

@[simp] theorem plug_left (p : α) (r : BinaryTree α) (c : Ctx α) (t : BinaryTree α) :
    plug (.left p r :: c) t = plug c (.node p t r) := rfl

@[simp] theorem plug_right (p : α) (l : BinaryTree α) (c : Ctx α) (t : BinaryTree α) :
    plug (.right p l :: c) t = plug c (.node p l t) := rfl

theorem plug_cons (f : Step α) (c : Ctx α) (t : BinaryTree α) :
    plug (f :: c) t = plug c (f.fill t) := by
  cases f <;> rfl

theorem plug_append (c d : Ctx α) (t : BinaryTree α) : plug (c ++ d) t = plug d (plug c t) := by
  induction c generalizing t with
  | nil => rfl
  | cons f c ih => cases f <;> simp [ih]

/-- The values left of the hole. -/
def before : Ctx α → List α
  | [] => []
  | .left _ _ :: c => before c
  | .right p l :: c => before c ++ (inorder l ++ [p])

/-- The values right of the hole. -/
def after : Ctx α → List α
  | [] => []
  | .left p r :: c => p :: inorder r ++ after c
  | .right _ _ :: c => after c

@[simp] theorem before_nil : before ([] : Ctx α) = [] := rfl
@[simp] theorem after_nil : after ([] : Ctx α) = [] := rfl
@[simp] theorem before_left (p : α) (r : BinaryTree α) (c : Ctx α) :
    before (.left p r :: c) = before c := rfl
@[simp] theorem before_right (p : α) (l : BinaryTree α) (c : Ctx α) :
    before (.right p l :: c) = before c ++ (inorder l ++ [p]) := rfl
@[simp] theorem after_left (p : α) (r : BinaryTree α) (c : Ctx α) :
    after (.left p r :: c) = p :: inorder r ++ after c := rfl
@[simp] theorem after_right (p : α) (l : BinaryTree α) (c : Ctx α) :
    after (.right p l :: c) = after c := rfl

theorem after_append (c d : Ctx α) : after (c ++ d) = after c ++ after d := by
  induction c with
  | nil => rfl
  | cons f c ih => cases f <;> simp [ih]

/-- A path is no longer than the tree is high. -/
theorem length_add_height_le (c : Ctx α) (t : BinaryTree α) :
    c.length + t.height ≤ (plug c t).height := by
  induction c generalizing t with
  | nil => simp
  | cons f c ih =>
    have := ih (f.fill t)
    rw [plug_cons, List.length_cons]
    cases f <;> simp only [Step.fill, BinaryTree.height] at this ⊢ <;> omega

theorem inorder_plug (c : Ctx α) (t : BinaryTree α) :
    inorder (plug c t) = before c ++ inorder t ++ after c := by
  induction c generalizing t with
  | nil => simp
  | cons f c ih => cases f <;> simp [ih]

theorem length_inorder (t : BinaryTree α) : (inorder t).length = t.numNodes := by
  induction t with
  | nil => rfl
  | node p l r ihl ihr => simp [ihl, ihr]; omega

/-- The values of a node are distinct: those of its subtrees are, apart from each other and from
its own. -/
theorem nodup_node {p : α} {l r : BinaryTree α} : (inorder (.node p l r)).Nodup ↔
    ((inorder l).Nodup ∧ (inorder r).Nodup) ∧ p ∉ inorder l ∧ p ∉ inorder r ∧
      ∀ x ∈ inorder l, x ∉ inorder r := by
  simp only [inorder_node, List.nodup_append, List.nodup_cons, List.mem_cons]
  constructor
  · rintro ⟨hl, ⟨hpr, hr⟩, hd⟩
    exact ⟨⟨hl, hr⟩, fun h => hd p h p (.inl rfl) rfl, hpr, fun x hx hx' => hd x hx x (.inr hx') rfl⟩
  · rintro ⟨⟨hl, hr⟩, hpl, hpr, hd⟩
    refine ⟨hl, ⟨hpr, hr⟩, ?_⟩
    rintro x hx y (rfl | hy) rfl
    · exact hpl hx
    · exact hd x hx hy

theorem nodup_plug {c : Ctx α} {t : BinaryTree α} (h : (inorder (plug c t)).Nodup) :
    (inorder t).Nodup ∧ (before c ++ after c).Nodup ∧
      ∀ x ∈ inorder t, x ∉ before c ++ after c := by
  rw [inorder_plug, List.append_assoc, List.nodup_append] at h
  obtain ⟨hb, hta, hd⟩ := h
  obtain ⟨ht, ha, hd'⟩ := List.nodup_append.1 hta
  refine ⟨ht, List.nodup_append.2 ⟨hb, ha, fun x hx y hy => hd x hx y (by simp [hy])⟩, ?_⟩
  intro x hx hx'
  rcases List.mem_append.1 hx' with hx' | hx'
  · exact hd x hx' x (by simp [hx]) rfl
  · exact hd' x hx x hx' rfl

/-- Every value of a tree stands at the hole of some context. -/
theorem exists_plug_of_mem {x : α} {t : BinaryTree α} (h : x ∈ inorder t) :
    ∃ c l r, t = plug c (.node x l r) := by
  induction t with
  | nil => simp at h
  | node p l r ihl ihr =>
    simp only [inorder_node, List.mem_append, List.mem_cons] at h
    rcases h with h | rfl | h
    · obtain ⟨c, a, b, rfl⟩ := ihl h
      exact ⟨c ++ [.left p r], a, b, by simp [plug_append]⟩
    · exact ⟨[], l, r, rfl⟩
    · obtain ⟨c, a, b, rfl⟩ := ihr h
      exact ⟨c ++ [.right p l], a, b, by simp [plug_append]⟩

theorem inorder_map (f : α → α) (t : BinaryTree α) :
    inorder (t.map f) = (inorder t).map f := by
  induction t with
  | nil => rfl
  | node p l r ihl ihr => simp [BinaryTree.map, ihl, ihr]

@[simp] theorem height_map (f : α → α) (t : BinaryTree α) : (t.map f).height = t.height := by
  induction t with
  | nil => rfl
  | node p l r ihl ihr => simp [BinaryTree.map, BinaryTree.height, ihl, ihr]

/-! ### Positions -/

/-- The subtree at a position, `true` for a step to the right. -/
def subtree : List Bool → BinaryTree α → BinaryTree α
  | [], t => t
  | _ :: _, .nil => .nil
  | false :: π, .node _ l _ => subtree π l
  | true :: π, .node _ _ r => subtree π r

/-- The position of the hole of a context. -/
def path : Ctx α → List Bool
  | [] => []
  | .left _ _ :: c => path c ++ [false]
  | .right _ _ :: c => path c ++ [true]

@[simp] theorem subtree_nil (π : List Bool) : subtree π (.nil : BinaryTree α) = .nil := by
  cases π <;> rfl

theorem subtree_append (π ρ : List Bool) (t : BinaryTree α) :
    subtree (π ++ ρ) t = subtree ρ (subtree π t) := by
  induction π generalizing t with
  | nil => rfl
  | cons b π ih =>
    cases t with
    | nil => simp
    | node p l r => cases b <;> simp [subtree, ih]

theorem subtree_plug (c : Ctx α) (t : BinaryTree α) : subtree (path c) (plug c t) = t := by
  induction c generalizing t with
  | nil => rfl
  | cons f c ih => cases f <;> simp [path, subtree_append, ih, subtree]

theorem subtree_map (f : α → α) (π : List Bool) (t : BinaryTree α) :
    subtree π (t.map f) = (subtree π t).map f := by
  induction π generalizing t with
  | nil => rfl
  | cons b π ih =>
    cases t with
    | nil => rfl
    | node p l r => cases b <;> simp [subtree, BinaryTree.map, ih]

end TreeZipper
