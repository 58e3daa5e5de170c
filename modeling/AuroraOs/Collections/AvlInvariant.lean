import AuroraOs.Lib.AvlShape
import AuroraOs.Collections.AvlTree

/-!
# The tree in memory

`IsTree m pr t` says that the shape `t` lies in the memory `m` below the parent `pr`: links in both
directions, and every stored balance is the skew of its node.  `IsCtx` says the same of a context,
so a tree in memory can be opened at any node (`isTree_plug`).

The rotations and `TreeNode::rebalance` then compute the rotations of shapes, and leave everything
outside the subtree alone.
-/

namespace AuroraOs

open TreeZipper AvlShape

variable {K : Type} {m m' : TreeMem K} {pr pr' p q : Ptr} {t l r a b : BinaryTree Ptr}
  {c : Ctx Ptr} {hole hole' : Ptr} {h : ℕ}

/-- The pointer to a shape. -/
def rootPtr : BinaryTree Ptr → Ptr
  | .nil => null
  | .node p _ _ => p

@[simp] theorem rootPtr_nil : rootPtr .nil = null := rfl
@[simp] theorem rootPtr_node (p : Ptr) (l r : BinaryTree Ptr) : rootPtr (.node p l r) = p := rfl

namespace TreeMem

/-- The fields of the node `p`. -/
structure NodeAt (m : TreeMem K) (p parent left right : Ptr) (balance : ℤ) : Prop where
  ne_null : p ≠ null
  parent_eq : m.parent p = parent
  left_eq : m.left p = left
  right_eq : m.right p = right
  balance_eq : m.balance p = balance

/-- The shape lies in memory below the parent, and the stored balances are its skews. -/
def IsTree (m : TreeMem K) : Ptr → BinaryTree Ptr → Prop
  | _, .nil => True
  | pr, .node p l r =>
      m.NodeAt p pr (rootPtr l) (rootPtr r) (r.height - l.height) ∧ m.IsTree p l ∧ m.IsTree p r

/-- The node above the hole. -/
def top : Ctx Ptr → Ptr
  | [] => null
  | .left p _ :: _ => p
  | .right p _ :: _ => p

/-- The context lies in memory around a hole with the given pointer and height. -/
def IsCtx (m : TreeMem K) : Ctx Ptr → Ptr → ℕ → Prop
  | [], _, _ => True
  | .left p r :: c, hole, h =>
      m.NodeAt p (top c) hole (rootPtr r) (r.height - h) ∧ m.IsTree p r ∧
        m.IsCtx c p (max h r.height + 1)
  | .right p l :: c, hole, h =>
      m.NodeAt p (top c) (rootPtr l) hole (h - l.height) ∧ m.IsTree p l ∧
        m.IsCtx c p (max l.height h + 1)

@[simp] theorem isTree_nil : m.IsTree pr .nil := trivial

theorem isTree_node : m.IsTree pr (.node p l r) ↔
    m.NodeAt p pr (rootPtr l) (rootPtr r) (r.height - l.height) ∧ m.IsTree p l ∧ m.IsTree p r :=
  Iff.rfl

@[simp] theorem isCtx_nil : m.IsCtx [] hole h := trivial

/-- **Opening a tree** at a hole. -/
theorem isTree_plug :
    m.IsTree null (plug c t) ↔ m.IsTree (top c) t ∧ m.IsCtx c (rootPtr t) t.height := by
  induction c generalizing t with
  | nil => simp [top]
  | cons f c ih =>
    cases f with
    | left p r =>
      simp only [plug_left, ih, isTree_node, top, IsCtx, rootPtr_node, BinaryTree.height]
      tauto
    | right p l =>
      simp only [plug_right, ih, isTree_node, top, IsCtx, rootPtr_node, BinaryTree.height]
      tauto

/-! ### Pointers of a shape -/

theorem IsTree.ne_null (ht : m.IsTree pr t) : ∀ x ∈ inorder t, x ≠ null := by
  induction t generalizing pr with
  | nil => simp
  | node p l r ihl ihr =>
    obtain ⟨hp, hl, hr⟩ := ht
    intro x hx
    simp only [inorder_node, List.mem_append, List.mem_cons] at hx
    rcases hx with hx | rfl | hx
    · exact ihl hl x hx
    · exact hp.ne_null
    · exact ihr hr x hx

theorem rootPtr_mem (ht : t ≠ .nil) : rootPtr t ∈ inorder t := by
  cases t with
  | nil => exact absurd rfl ht
  | node p l r => simp

theorem IsTree.rootPtr_eq_null (ht : m.IsTree pr t) : rootPtr t = null ↔ t = .nil := by
  cases t with
  | nil => simp
  | node p l r => simpa using ht.1.ne_null

theorem top_mem (hc : c ≠ []) : top c ∈ before c ++ after c := by
  cases c with
  | nil => exact absurd rfl hc
  | cons f c => cases f <;> simp [top]

/-! ### Frames -/

/-- Nothing is written outside of `S`, and no key at all. -/
structure Frame (m m' : TreeMem K) (S : List Ptr) : Prop where
  key : m'.key = m.key
  parent : ∀ x ∉ S, m'.parent x = m.parent x
  left : ∀ x ∉ S, m'.left x = m.left x
  right : ∀ x ∉ S, m'.right x = m.right x
  balance : ∀ x ∉ S, m'.balance x = m.balance x

theorem Frame.refl (m : TreeMem K) (S : List Ptr) : Frame m m S :=
  ⟨rfl, fun _ _ => rfl, fun _ _ => rfl, fun _ _ => rfl, fun _ _ => rfl⟩

theorem Frame.trans {m₁ m₂ m₃ : TreeMem K} {S : List Ptr} (h : Frame m₁ m₂ S)
    (h' : Frame m₂ m₃ S) : Frame m₁ m₃ S :=
  ⟨h'.key.trans h.key, fun x hx => (h'.parent x hx).trans (h.parent x hx),
    fun x hx => (h'.left x hx).trans (h.left x hx),
    fun x hx => (h'.right x hx).trans (h.right x hx),
    fun x hx => (h'.balance x hx).trans (h.balance x hx)⟩

theorem Frame.mono {S S' : List Ptr} (h : Frame m m' S) (hS : ∀ x ∈ S, x ∈ S') :
    Frame m m' S' :=
  ⟨h.key, fun x hx => h.parent x fun hx' => hx (hS x hx'),
    fun x hx => h.left x fun hx' => hx (hS x hx'),
    fun x hx => h.right x fun hx' => hx (hS x hx'),
    fun x hx => h.balance x fun hx' => hx (hS x hx')⟩

theorem NodeAt.congr {parent left right : Ptr} {balance : ℤ} {S : List Ptr}
    (hp : m.NodeAt p parent left right balance) (hf : Frame m m' S) (hS : p ∉ S) :
    m'.NodeAt p parent left right balance :=
  ⟨hp.ne_null, (hf.parent p hS).trans hp.parent_eq, (hf.left p hS).trans hp.left_eq,
    (hf.right p hS).trans hp.right_eq, (hf.balance p hS).trans hp.balance_eq⟩

theorem IsTree.congr {S : List Ptr} (ht : m.IsTree pr t) (hf : Frame m m' S)
    (hS : ∀ x ∈ inorder t, x ∉ S) : m'.IsTree pr t := by
  induction t generalizing pr with
  | nil => trivial
  | node p l r ihl ihr =>
    obtain ⟨hp, hl, hr⟩ := ht
    exact ⟨hp.congr hf (hS p (by simp)), ihl hl fun x hx => hS x (by simp [hx]),
      ihr hr fun x hx => hS x (by simp [hx])⟩

theorem IsCtx.congr {S : List Ptr} (hc : m.IsCtx c hole h) (hf : Frame m m' S)
    (hS : ∀ x ∈ before c ++ after c, x ∉ S) : m'.IsCtx c hole h := by
  induction c generalizing hole h with
  | nil => trivial
  | cons f c ih =>
    cases f with
    | left p r =>
      obtain ⟨hp, hr, hc⟩ := hc
      exact ⟨hp.congr hf (hS p (by simp)), hr.congr hf fun x hx => hS x (by simp [hx]),
        ih hc fun x hx => hS x (by simp at hx ⊢; tauto)⟩
    | right p l =>
      obtain ⟨hp, hl, hc⟩ := hc
      exact ⟨hp.congr hf (hS p (by simp)), hl.congr hf fun x hx => hS x (by simp [hx]),
        ih hc fun x hx => hS x (by simp at hx ⊢; tauto)⟩

/-- Hanging a tree below another parent. -/
theorem IsTree.reparent {S : List Ptr} (ht : m.IsTree pr t) (hnd : (inorder t).Nodup)
    (hf : Frame m m' S) (hS : ∀ x ∈ inorder t, x ∈ S → x = rootPtr t)
    (hroot : t ≠ .nil → m'.parent (rootPtr t) = pr' ∧
      m'.left (rootPtr t) = m.left (rootPtr t) ∧ m'.right (rootPtr t) = m.right (rootPtr t) ∧
      m'.balance (rootPtr t) = m.balance (rootPtr t)) : m'.IsTree pr' t := by
  cases t with
  | nil => trivial
  | node p l r =>
    obtain ⟨hp, hl, hr⟩ := ht
    obtain ⟨-, hpl, hpr, -⟩ := nodup_node.1 hnd
    obtain ⟨h₁, h₂, h₃, h₄⟩ := hroot (by simp)
    refine ⟨⟨hp.ne_null, h₁, h₂.trans hp.left_eq, h₃.trans hp.right_eq, h₄.trans hp.balance_eq⟩,
      hl.congr hf fun x hx hxS => ?_, hr.congr hf fun x hx hxS => ?_⟩
    · obtain rfl : x = p := hS x (by simp [hx]) hxS
      exact hpl hx
    · obtain rfl : x = p := hS x (by simp [hx]) hxS
      exact hpr hx

/-- The root of a shape, if it has one. -/
def roots : BinaryTree Ptr → List Ptr
  | .nil => []
  | .node p _ _ => [p]

theorem mem_inorder_of_mem_roots {x : Ptr} (hx : x ∈ roots t) : x ∈ inorder t := by
  cases t with
  | nil => simp [roots] at hx
  | node p l r => simp_all [roots]

theorem mem_roots {x : Ptr} : x ∈ roots t ↔ t ≠ .nil ∧ x = rootPtr t := by
  cases t <;> simp [roots]

/-! ### Rotations -/

/-- The fields that `rotate_right` writes. -/
theorem rotateRight_fields (hp : p ≠ null) (hpq : p ≠ q) (hq : q ≠ null) (hl : m.left p = q) :
    ∃ m', m.rotateRight p = some (m', q) ∧ m'.key = m.key ∧
      (∀ x, m'.parent x = if x = q then m.parent p else if x = p then q
        else if m.right q ≠ null ∧ x = m.right q then p else m.parent x) ∧
      (∀ x, m'.left x = if x = p then m.right q else m.left x) ∧
      (∀ x, m'.right x = if x = q then p else m.right x) ∧
      (∀ x, x ≠ p → x ≠ q → m'.balance x = m.balance x) ∧
      m'.balance p = m.balance p + (if m.balance q < 0 then 1 - m.balance q else 1) ∧
      m'.balance q = m.balance q + (if m'.balance p > 0 then 1 + m'.balance p else 1) := by
  have hqp := hpq.symm
  unfold rotateRight
  rw [hl, asRef_of_ne hq]
  refine ⟨_, rfl, ?_, ?_, ?_, ?_, ?_, ?_, ?_⟩ <;>
    by_cases hn : m.right q = null <;>
    simp [setLeftp, setRightp, setLeft, setRight, setParent, incBalance, setBalance, hn, hp,
      Function.update_apply, hqp, hpq] <;>
    grind

theorem rotateLeft_fields (hp : p ≠ null) (hpq : p ≠ q) (hq : q ≠ null) (hr : m.right p = q) :
    ∃ m', m.rotateLeft p = some (m', q) ∧ m'.key = m.key ∧
      (∀ x, m'.parent x = if x = q then m.parent p else if x = p then q
        else if m.left q ≠ null ∧ x = m.left q then p else m.parent x) ∧
      (∀ x, m'.right x = if x = p then m.left q else m.right x) ∧
      (∀ x, m'.left x = if x = q then p else m.left x) ∧
      (∀ x, x ≠ p → x ≠ q → m'.balance x = m.balance x) ∧
      m'.balance p = m.balance p + -(if m.balance q > 0 then 1 + m.balance q else 1) ∧
      m'.balance q = m.balance q + (if m'.balance p < 0 then -1 + m'.balance p else -1) := by
  have hqp := hpq.symm
  unfold rotateLeft
  rw [hr, asRef_of_ne hq]
  refine ⟨_, rfl, ?_, ?_, ?_, ?_, ?_, ?_, ?_⟩ <;>
    by_cases hn : m.left q = null <;>
    simp [setLeftp, setRightp, setLeft, setRight, setParent, incBalance, setBalance, hn, hp,
      Function.update_apply, hqp, hpq] <;>
    grind

theorem rotateRight_spec (ht : m.IsTree pr (.node p (.node q a b) r))
    (hnd : (inorder (.node p (.node q a b) r)).Nodup) :
    ∃ m', m.rotateRight p = some (m', q) ∧ m'.IsTree pr (.node q a (.node p b r)) ∧
      Frame m m' (inorder (.node p (.node q a b) r)) := by
  obtain ⟨hp, ⟨hq, ha, hb⟩, hr⟩ := ht
  obtain ⟨⟨hndl, -⟩, hpl, hpr, hlr⟩ := nodup_node.1 hnd
  obtain ⟨⟨-, hndb⟩, hqa, hqb, hab⟩ := nodup_node.1 hndl
  simp only [inorder_node, List.mem_append, List.mem_cons, not_or] at hpl hlr
  obtain ⟨hpa, hpq, hpb⟩ := hpl
  obtain ⟨m', he, hkey, hpar, hleft, hright, hbal, hbp, hbq⟩ :=
    rotateRight_fields hp.ne_null hpq hq.ne_null hp.left_eq
  rw [hq.right_eq] at hpar hleft
  -- the writes: `p`, `q`, and the parent of the root of `b`
  have hf : Frame m m' (p :: q :: roots b) := by
    refine ⟨hkey, ?_, ?_, ?_, ?_⟩ <;> intro x hx <;>
      simp only [List.mem_cons, not_or, mem_roots, not_and] at hx <;>
      obtain ⟨hxp, hxq, hxb⟩ := hx
    · rw [hpar, if_neg hxq, if_neg hxp, if_neg]
      rintro ⟨hn, hxb'⟩
      exact hxb (fun h => hn (hb.rootPtr_eq_null.2 h)) hxb'
    · rw [hleft, if_neg hxp]
    · rw [hright, if_neg hxq]
    · exact hbal x hxp hxq
  have hb' : m'.IsTree p b := by
    refine hb.reparent hndb hf (fun x hx hxS => ?_) fun hbn => ?_
    · simp only [List.mem_cons, mem_roots] at hxS
      rcases hxS with rfl | rfl | hxS
      · exact absurd hx hpb
      · exact absurd hx hqb
      · exact hxS.2
    · have hne : rootPtr b ≠ null := fun h => hbn (hb.rootPtr_eq_null.1 h)
      have hxp : rootPtr b ≠ p := fun h => hpb (h ▸ rootPtr_mem hbn)
      have hxq : rootPtr b ≠ q := fun h => hqb (h ▸ rootPtr_mem hbn)
      exact ⟨by rw [hpar, if_neg hxq, if_neg hxp, if_pos ⟨hne, rfl⟩],
        by rw [hleft, if_neg hxp], by rw [hright, if_neg hxq], hbal _ hxp hxq⟩
  have ha' : m'.IsTree q a := by
    refine ha.congr hf fun x hx hxS => ?_
    simp only [List.mem_cons] at hxS
    rcases hxS with rfl | rfl | hxS
    · exact hpa hx
    · exact hqa hx
    · exact hab x hx (mem_inorder_of_mem_roots hxS)
  have hr' : m'.IsTree p r := by
    refine hr.congr hf fun x hx hxS => ?_
    simp only [List.mem_cons] at hxS
    rcases hxS with rfl | rfl | hxS
    · exact hpr hx
    · exact hlr x (by simp) hx
    · exact hlr x (by simp [mem_inorder_of_mem_roots hxS]) hx
  have hbp' : m'.balance p = r.height - b.height := by
    rw [hbp, hp.balance_eq, hq.balance_eq, BinaryTree.height]
    split_ifs <;> omega
  have hbq' : m'.balance q = (BinaryTree.node p b r).height - a.height := by
    rw [hbq, hbp', hq.balance_eq, BinaryTree.height]
    split_ifs <;> omega
  refine ⟨m', he, ⟨⟨hq.ne_null, ?_, ?_, ?_, hbq'⟩, ha', ⟨hp.ne_null, ?_, ?_, ?_, hbp'⟩, hb', hr'⟩,
    hf.mono fun x hx => ?_⟩
  · rw [hpar, if_pos rfl, hp.parent_eq]
  · rw [hleft, if_neg (Ne.symm hpq), hq.left_eq]
  · rw [hright, if_pos rfl, rootPtr_node]
  · rw [hpar, if_neg hpq, if_pos rfl]
  · rw [hleft, if_pos rfl]
  · rw [hright, if_neg hpq, hp.right_eq]
  · simp only [List.mem_cons] at hx
    rcases hx with rfl | rfl | hx
    · simp
    · simp
    · simp [mem_inorder_of_mem_roots hx]

theorem rotateLeft_spec (ht : m.IsTree pr (.node p l (.node q a b)))
    (hnd : (inorder (.node p l (.node q a b))).Nodup) :
    ∃ m', m.rotateLeft p = some (m', q) ∧ m'.IsTree pr (.node q (.node p l a) b) ∧
      Frame m m' (inorder (.node p l (.node q a b))) := by
  obtain ⟨hp, hl, ⟨hq, ha, hb⟩⟩ := ht
  obtain ⟨⟨-, hndr⟩, hpl, hpr, hlr⟩ := nodup_node.1 hnd
  obtain ⟨⟨hnda, -⟩, hqa, hqb, hab⟩ := nodup_node.1 hndr
  simp only [inorder_node, List.mem_append, List.mem_cons, not_or] at hpr hlr
  obtain ⟨hpa, hpq, hpb⟩ := hpr
  obtain ⟨m', he, hkey, hpar, hright, hleft, hbal, hbp, hbq⟩ :=
    rotateLeft_fields hp.ne_null hpq hq.ne_null hp.right_eq
  rw [hq.left_eq] at hpar hright
  have hf : Frame m m' (p :: q :: roots a) := by
    refine ⟨hkey, ?_, ?_, ?_, ?_⟩ <;> intro x hx <;>
      simp only [List.mem_cons, not_or, mem_roots, not_and] at hx <;>
      obtain ⟨hxp, hxq, hxa⟩ := hx
    · rw [hpar, if_neg hxq, if_neg hxp, if_neg]
      rintro ⟨hn, hxa'⟩
      exact hxa (fun h => hn (ha.rootPtr_eq_null.2 h)) hxa'
    · rw [hleft, if_neg hxq]
    · rw [hright, if_neg hxp]
    · exact hbal x hxp hxq
  have ha' : m'.IsTree p a := by
    refine ha.reparent hnda hf (fun x hx hxS => ?_) fun han => ?_
    · simp only [List.mem_cons, mem_roots] at hxS
      rcases hxS with rfl | rfl | hxS
      · exact absurd hx hpa
      · exact absurd hx hqa
      · exact hxS.2
    · have hne : rootPtr a ≠ null := fun h => han (ha.rootPtr_eq_null.1 h)
      have hxp : rootPtr a ≠ p := fun h => hpa (h ▸ rootPtr_mem han)
      have hxq : rootPtr a ≠ q := fun h => hqa (h ▸ rootPtr_mem han)
      exact ⟨by rw [hpar, if_neg hxq, if_neg hxp, if_pos ⟨hne, rfl⟩],
        by rw [hleft, if_neg hxq], by rw [hright, if_neg hxp], hbal _ hxp hxq⟩
  have hb' : m'.IsTree q b := by
    refine hb.congr hf fun x hx hxS => ?_
    simp only [List.mem_cons] at hxS
    rcases hxS with rfl | rfl | hxS
    · exact hpb hx
    · exact hqb hx
    · exact hab x (mem_inorder_of_mem_roots hxS) hx
  have hl' : m'.IsTree p l := by
    refine hl.congr hf fun x hx hxS => ?_
    simp only [List.mem_cons] at hxS
    rcases hxS with rfl | rfl | hxS
    · exact hpl hx
    · exact (hlr x hx).2.1 rfl
    · exact (hlr x hx).1 (mem_inorder_of_mem_roots hxS)
  have hbp' : m'.balance p = a.height - l.height := by
    rw [hbp, hp.balance_eq, hq.balance_eq, BinaryTree.height]
    split_ifs <;> omega
  have hbq' : m'.balance q = b.height - (BinaryTree.node p l a).height := by
    rw [hbq, hbp', hq.balance_eq, BinaryTree.height]
    split_ifs <;> omega
  refine ⟨m', he, ⟨⟨hq.ne_null, ?_, ?_, ?_, hbq'⟩, ⟨⟨hp.ne_null, ?_, ?_, ?_, hbp'⟩, hl', ha'⟩, hb'⟩,
    hf.mono fun x hx => ?_⟩
  · rw [hpar, if_pos rfl, hp.parent_eq]
  · rw [hleft, if_pos rfl, rootPtr_node]
  · rw [hright, if_neg (Ne.symm hpq), hq.right_eq]
  · rw [hpar, if_neg hpq, if_pos rfl]
  · rw [hleft, if_neg hpq, hp.left_eq]
  · rw [hright, if_pos rfl]
  · simp only [List.mem_cons] at hx
    rcases hx with rfl | rfl | hx
    · simp
    · simp
    · simp [mem_inorder_of_mem_roots hx]

/-! ### `TreeNode::rebalance` -/

theorem frame_setLeft (m : TreeMem K) (p v : Ptr) : Frame m (m.setLeft p v) [p] := by
  refine ⟨rfl, fun _ _ => rfl, fun x hx => ?_, fun _ _ => rfl, fun _ _ => rfl⟩
  simp only [List.mem_singleton] at hx
  simp [setLeft, hx]

theorem frame_setRight (m : TreeMem K) (p v : Ptr) : Frame m (m.setRight p v) [p] := by
  refine ⟨rfl, fun _ _ => rfl, fun _ _ => rfl, fun x hx => ?_, fun _ _ => rfl⟩
  simp only [List.mem_singleton] at hx
  simp [setRight, hx]

theorem Frame.of_left (hf : Frame m m' (inorder l)) : Frame m m' (inorder (.node p l r)) :=
  hf.mono fun _ hx => List.mem_append_left _ hx

theorem Frame.of_right (hf : Frame m m' (inorder r)) : Frame m m' (inorder (.node p l r)) :=
  hf.mono fun _ hx => List.mem_append_right _ (List.mem_cons_of_mem _ hx)

theorem Frame.of_root (hf : Frame m m' [p]) : Frame m m' (inorder (.node p l r)) :=
  hf.mono (by simp)

theorem IsTree.congr_singleton (ht : m.IsTree pr t) (hf : Frame m m' [p]) (hp : p ∉ inorder t) :
    m'.IsTree pr t := by
  refine ht.congr hf fun x hx hxp => hp ?_
  rwa [← List.mem_singleton.1 hxp]

/-- Writing the left link of a node whose other fields are in place. -/
theorem NodeAt.setLeft_root (hp : m.NodeAt p pr hole (rootPtr r) (r.height - t.height))
    (ht : m.IsTree p t) (hr : m.IsTree p r) (hpt : p ∉ inorder t) (hpr : p ∉ inorder r) :
    (m.setLeft p (rootPtr t)).IsTree pr (.node p t r) :=
  have hf := frame_setLeft m p (rootPtr t)
  ⟨⟨hp.ne_null, hp.parent_eq, by simp [setLeft], hp.right_eq, hp.balance_eq⟩,
    ht.congr_singleton hf hpt, hr.congr_singleton hf hpr⟩

theorem NodeAt.setRight_root (hp : m.NodeAt p pr (rootPtr l) hole (t.height - l.height))
    (hl : m.IsTree p l) (ht : m.IsTree p t) (hpl : p ∉ inorder l) (hpt : p ∉ inorder t) :
    (m.setRight p (rootPtr t)).IsTree pr (.node p l t) :=
  have hf := frame_setRight m p (rootPtr t)
  ⟨⟨hp.ne_null, hp.parent_eq, hp.left_eq, by simp [setRight], hp.balance_eq⟩,
    hl.congr_singleton hf hpl, ht.congr_singleton hf hpt⟩

/-- The rotations of a node that is deep on the left. -/
theorem rebalance_left_spec (ht : m.IsTree pr (.node p l r)) (hnd : (inorder (.node p l r)).Nodup)
    (hl : IsAvl l) (hneg : (r.height : ℤ) - l.height < -1) :
    ∃ m', m.rebalance p = some (m', rootPtr (AvlShape.rebalance (.node p l r))) ∧
      m'.IsTree pr (AvlShape.rebalance (.node p l r)) ∧ Frame m m' (inorder (.node p l r)) := by
  have habs : ¬ |(r.height : ℤ) - l.height| ≤ 1 := by rw [abs_le]; omega
  have hb := ht.1.balance_eq
  have hnb : m.isBalanced p = false := by simp [isBalanced, hb]; omega
  obtain ⟨q, a, b, rfl⟩ := exists_node_of_height_pos (t := l) (by omega)
  obtain ⟨⟨hndl, -⟩, hpl, hpr, hlr⟩ := nodup_node.1 hnd
  have hqb : m.balance q = skew (.node q a b) := ht.2.1.1.balance_eq
  rw [AvlShape.rebalance, if_neg habs, if_pos hneg]
  unfold TreeMem.rebalance
  rw [hnb, if_neg (by simp), if_pos (hb ▸ hneg), ht.1.left_eq, rootPtr_node,
    asRef_of_ne ht.2.1.1.ne_null]
  simp only [Option.bind_eq_bind, Option.bind_some, hqb]
  by_cases hone : skew (.node q a b) = 1
  · have hheight := height_rotateLeft_of_skew hl hone
    rw [if_pos hone, if_pos hone]
    rw [skew_node] at hone
    obtain ⟨s, b₁, b₂, rfl⟩ := exists_node_of_height_pos (t := b) (by omega)
    simp only [AvlShape.rotateLeft, AvlShape.rotateRight] at hheight ⊢
    obtain ⟨m₁, he₁, ht₁, hf₁⟩ := rotateLeft_spec ht.2.1 hndl
    have hord : inorder (.node s (.node q a b₁) b₂) = inorder (.node q a (.node s b₁ b₂)) := by
      simp
    have hp₁ := ht.1.congr hf₁ hpl
    rw [← hheight] at hp₁
    have ht₂ := hp₁.setLeft_root ht₁
      (ht.2.2.congr hf₁ fun x hx hx' => hlr x hx' hx) (hord ▸ hpl) hpr
    have hord₂ : inorder (.node p (.node s (.node q a b₁) b₂) r)
        = inorder (.node p (.node q a (.node s b₁ b₂)) r) := by simp
    obtain ⟨m₂, he₂, ht₃, hf₃⟩ := rotateRight_spec ht₂ (hord₂ ▸ hnd)
    exact ⟨m₂, by simpa [he₁] using he₂, ht₃,
      (hf₁.of_left.trans (frame_setLeft m₁ p s).of_root).trans (hord₂ ▸ hf₃)⟩
  · rw [if_neg hone, if_neg hone]
    exact rotateRight_spec ht hnd

/-- The rotations of a node that is deep on the right. -/
theorem rebalance_right_spec (ht : m.IsTree pr (.node p l r)) (hnd : (inorder (.node p l r)).Nodup)
    (hr : IsAvl r) (hpos : 1 < (r.height : ℤ) - l.height) :
    ∃ m', m.rebalance p = some (m', rootPtr (AvlShape.rebalance (.node p l r))) ∧
      m'.IsTree pr (AvlShape.rebalance (.node p l r)) ∧ Frame m m' (inorder (.node p l r)) := by
  have habs : ¬ |(r.height : ℤ) - l.height| ≤ 1 := by rw [abs_le]; omega
  have hneg : ¬ (r.height : ℤ) - l.height < -1 := by omega
  have hb := ht.1.balance_eq
  have hnb : m.isBalanced p = false := by simp [isBalanced, hb]; omega
  obtain ⟨q, a, b, rfl⟩ := exists_node_of_height_pos (t := r) (by omega)
  obtain ⟨⟨-, hndr⟩, hpl, hpr, hlr⟩ := nodup_node.1 hnd
  have hqb : m.balance q = skew (.node q a b) := ht.2.2.1.balance_eq
  rw [AvlShape.rebalance, if_neg habs, if_neg hneg]
  unfold TreeMem.rebalance
  rw [hnb, if_neg (by simp), if_neg (hb ▸ hneg), ht.1.right_eq, rootPtr_node,
    asRef_of_ne ht.2.2.1.ne_null]
  simp only [Option.bind_eq_bind, Option.bind_some, hqb]
  by_cases hone : skew (.node q a b) = -1
  · have hheight := height_rotateRight_of_skew hr hone
    rw [if_pos hone, if_pos hone]
    rw [skew_node] at hone
    obtain ⟨s, a₁, a₂, rfl⟩ := exists_node_of_height_pos (t := a) (by omega)
    simp only [AvlShape.rotateLeft, AvlShape.rotateRight] at hheight ⊢
    obtain ⟨m₁, he₁, ht₁, hf₁⟩ := rotateRight_spec ht.2.2 hndr
    have hord : inorder (.node s a₁ (.node q a₂ b)) = inorder (.node q (.node s a₁ a₂) b) := by
      simp
    have hp₁ := ht.1.congr hf₁ hpr
    rw [← hheight] at hp₁
    have ht₂ := hp₁.setRight_root (ht.2.1.congr hf₁ hlr) ht₁ hpl (hord ▸ hpr)
    have hord₂ : inorder (.node p l (.node s a₁ (.node q a₂ b)))
        = inorder (.node p l (.node q (.node s a₁ a₂) b)) := by simp
    obtain ⟨m₂, he₂, ht₃, hf₃⟩ := rotateLeft_spec ht₂ (hord₂ ▸ hnd)
    exact ⟨m₂, by simpa [he₁] using he₂, ht₃,
      (hf₁.of_right.trans (frame_setRight m₁ p s).of_root).trans (hord₂ ▸ hf₃)⟩
  · rw [if_neg hone, if_neg hone]
    exact rotateLeft_spec ht hnd

/-- **`TreeNode::rebalance`** finds the children it needs and computes the rebalanced shape. -/
theorem rebalance_spec (ht : m.IsTree pr (.node p l r)) (hnd : (inorder (.node p l r)).Nodup)
    (hl : IsAvl l) (hr : IsAvl r) :
    ∃ m', m.rebalance p = some (m', rootPtr (AvlShape.rebalance (.node p l r))) ∧
      m'.IsTree pr (AvlShape.rebalance (.node p l r)) ∧ Frame m m' (inorder (.node p l r)) := by
  rcases lt_or_ge ((r.height : ℤ) - l.height) (-1) with hneg | hneg
  · exact rebalance_left_spec ht hnd hl hneg
  rcases lt_or_ge 1 ((r.height : ℤ) - l.height) with hpos | hpos
  · exact rebalance_right_spec ht hnd hr hpos
  have hb : m.isBalanced p = true := by simp [isBalanced, ht.1.balance_eq]; omega
  rw [rebalance_of_balanced (abs_le.2 ⟨hneg, hpos⟩)]
  exact ⟨m, by simp [TreeMem.rebalance, hb], ht, Frame.refl _ _⟩

end TreeMem
end AuroraOs
