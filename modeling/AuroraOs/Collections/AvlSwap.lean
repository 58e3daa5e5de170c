import AuroraOs.Collections.AvlInvariant

/-!
# Exchanging a node with its predecessor

`TreeNode::swap` on a node with two children and the last node of its left subtree, its child or
deeper.  In both cases the tree in memory afterwards is the old one with the two nodes renamed to
one another (`swap_spec`): the shape and the balances stay.
-/

namespace AuroraOs

open TreeZipper AvlShape TreeMem

namespace TreeMem

variable {K : Type} {m m' : TreeMem K} {v w x : Ptr} {t l r : BinaryTree Ptr} {pr : Ptr}

/-- The links around a node `v` and a node `w` below it, on whose right there is nothing. -/
structure Swappable (m : TreeMem K) (v w : Ptr) : Prop where
  v_ne : v ≠ null
  w_ne : w ≠ null
  ne : v ≠ w
  right_w : m.right w = null
  left_v : m.left v ≠ null ∧ m.left v ≠ v
  right_v : m.right v ≠ null ∧ m.right v ≠ v ∧ m.right v ≠ w
  left_w : m.left w ≠ v ∧ m.left w ≠ w
  parent_v : m.parent v ≠ v ∧ m.parent v ≠ w
  parent_w : m.parent w ≠ w ∧ m.parent w ≠ null
  adjacent : m.left v = w → m.parent w = v
  one_side : m.parent v ≠ null → m.left (m.parent v) = v → m.right (m.parent v) ≠ v
  apart : m.left v ≠ w → m.parent w ≠ v ∧ m.parent w ≠ m.parent v ∧ m.left (m.parent w) ≠ w

section Fields

variable (m) (p : Ptr)

@[simp] theorem setLeftp_key : (m.setLeftp p x).key = m.key := by
  unfold setLeftp; split_ifs <;> rfl

@[simp] theorem setLeftp_balance : (m.setLeftp p x).balance = m.balance := by
  unfold setLeftp; split_ifs <;> rfl

@[simp] theorem setRightp_key : (m.setRightp p x).key = m.key := by
  unfold setRightp; split_ifs <;> rfl

@[simp] theorem setRightp_balance : (m.setRightp p x).balance = m.balance := by
  unfold setRightp; split_ifs <;> rfl

end Fields

section Relink

variable (m) (parent : ParentType) (p : Ptr) (out : Option Ptr)

@[simp] theorem relink_left : (m.relink parent p out).1.left x =
    if parent = .leftOf x then p else m.left x := by
  cases parent <;> simp [relink, setLeft, setRight, Function.update_apply, eq_comm]

@[simp] theorem relink_right : (m.relink parent p out).1.right x =
    if parent = .rightOf x then p else m.right x := by
  cases parent <;> simp [relink, setLeft, setRight, Function.update_apply, eq_comm]

@[simp] theorem relink_parent : (m.relink parent p out).1.parent = m.parent := by
  cases parent <;> rfl

@[simp] theorem relink_key : (m.relink parent p out).1.key = m.key := by
  cases parent <;> rfl

@[simp] theorem relink_balance : (m.relink parent p out).1.balance = m.balance := by
  cases parent <;> rfl

@[simp] theorem relink_out : (m.relink parent p out).2 =
    if parent = .root then some p else out := by
  cases parent <;> simp [relink]

end Relink

/-- The fields that `swapChildren` writes. -/
theorem swapChildren_fields (h : Swappable m v w) :
    (m.swapChildren v w).key = m.key ∧ (m.swapChildren v w).balance = m.balance ∧
    (∀ x, (m.swapChildren v w).left x =
      if x = w then m.left v else if x = v then m.left w else m.left x) ∧
    (∀ x, (m.swapChildren v w).right x =
      if x = w then m.right v else if x = v then null else m.right x) ∧
    (∀ x, (m.swapChildren v w).parent x = if x = m.right v then w else if x = m.left v then w
      else if m.left w ≠ null ∧ x = m.left w then v else m.parent x) := by
  obtain ⟨hv, hw, hne, hrw, ⟨hlv, -⟩, ⟨hrv, -⟩, hlw, hpv, hpw, hadj, hside, hap⟩ := h
  refine ⟨by simp [swapChildren], by simp [swapChildren], ?_, ?_, ?_⟩
  all_goals
    intro x
    by_cases hl : m.left w = null <;>
    simp [swapChildren, setLeftp, setRightp, setLeft, setRight, setParent, Function.update_apply,
      hl, hrw, hlv, hrv]

/-- The fields that `swap` writes. -/
theorem swap_fields (h : Swappable m v w) :
    (m.swap v w).1.key = m.key ∧
    (∀ x, (m.swap v w).1.left x =
      if x = w then (if m.left v = w then v else m.left v)
      else if x = v then m.left w
      else if m.parentType v = .leftOf x then w else m.left x) ∧
    (∀ x, (m.swap v w).1.right x =
      if x = w then m.right v
      else if x = v then null
      else if m.parentType v = .rightOf x then w
      else if m.left v ≠ w ∧ x = m.parent w then v else m.right x) ∧
    (∀ x, (m.swap v w).1.parent x =
      if x = w then m.parent v
      else if x = v then (if m.left v = w then w else m.parent w)
      else if x = m.right v ∨ x = m.left v then w
      else if m.left w ≠ null ∧ x = m.left w then v else m.parent x) ∧
    (∀ x, (m.swap v w).1.balance x =
      if x = w then m.balance v else if x = v then m.balance w else m.balance x) ∧
    (m.swap v w).2 = if m.parent v = null then some w else none := by
  obtain ⟨hkey, hbal, hleft, hright, hpar⟩ := swapChildren_fields h
  obtain ⟨hv, hw, hne, hrw, hlv, hrv, hlw, hpv, hpw, hadj, hside, hap⟩ := h
  -- `v` still hangs where it hung
  have hpt : (m.swapChildren v w).parentType v = m.parentType v := by
    simp only [parentType, hpar, hleft]
    grind
  have hpvw : m.parentType v ≠ .leftOf v ∧ m.parentType v ≠ .leftOf w ∧
      m.parentType v ≠ .rightOf v ∧ m.parentType v ≠ .rightOf w := by
    unfold parentType
    split_ifs <;> simp [hpv]
  have hpp : m.left v ≠ w → m.parentType v ≠ .leftOf (m.parent w) ∧
      m.parentType v ≠ .rightOf (m.parent w) := by
    intro ha
    unfold parentType
    split_ifs <;> simp [(hap ha).2.1.symm]
  have hroot : m.parentType v = .root ↔ m.parent v = null := by
    unfold parentType
    split_ifs with h h' <;> simp [h]
  rw [swap, hpt]
  generalize m.parentType v = pt at *
  generalize m.swapChildren v w = m₁ at *
  have hpv₁ : m₁.parent v = m.parent v := by
    rw [hpar]
    grind
  have hpw₁ : m₁.parent w = if m.left v = w then w else m.parent w := by
    rw [hpar]
    grind
  -- `w` hangs on itself if it was a child of `v`
  have hpt₂ : ((m₁.setParent v (m₁.parent w)).relink pt w none).1.parentType w =
      if m.left v = w then .leftOf w else .rightOf (m.parent w) := by
    simp only [parentType, relink_parent, relink_left, setParent, Function.update_apply, hpw₁, hleft]
    by_cases ha : m.left v = w
    · simp [ha, hw, hne.symm, hpvw]
    · obtain ⟨h₁, h₂, h₃⟩ := hap ha
      simp [ha, hne.symm, hpw, h₁, h₃.symm, hpp ha]
  simp only [hpt₂]
  refine ⟨?_, ?_, ?_, ?_, ?_, ?_⟩
  · simp [setParent, setBalance, hkey]
  · intro x
    simp only [setBalance, setParent, relink_left, hleft]
    grind
  · intro x
    simp only [setBalance, setParent, relink_right, hright]
    grind
  · intro x
    simp only [setBalance, setParent, relink_parent, Function.update_apply, hpar]
    grind
  · intro x
    simp only [setBalance, setParent, relink_balance, Function.update_apply, hbal]
  · simp only [setParent, relink_out, hroot]
    grind

/-! ### Links of a tree -/

theorem IsTree.left_link (ht : m.IsTree pr t) :
    ∀ x ∈ inorder t, m.left x ≠ null → m.parent (m.left x) = x := by
  induction t generalizing pr with
  | nil => simp
  | node p l r ihl ihr =>
    obtain ⟨hp, hl, hr⟩ := ht
    intro x hx hn
    simp only [inorder_node, List.mem_append, List.mem_cons] at hx
    rcases hx with hx | rfl | hx
    · exact ihl hl x hx hn
    · rw [hp.left_eq] at hn ⊢
      cases l with
      | nil => exact absurd rfl hn
      | node q a b => exact hl.1.parent_eq
    · exact ihr hr x hx hn

theorem IsTree.right_link (ht : m.IsTree pr t) :
    ∀ x ∈ inorder t, m.right x ≠ null → m.parent (m.right x) = x := by
  induction t generalizing pr with
  | nil => simp
  | node p l r ihl ihr =>
    obtain ⟨hp, hl, hr⟩ := ht
    intro x hx hn
    simp only [inorder_node, List.mem_append, List.mem_cons] at hx
    rcases hx with hx | rfl | hx
    · exact ihl hl x hx hn
    · rw [hp.right_eq] at hn ⊢
      cases r with
      | nil => exact absurd rfl hn
      | node q a b => exact hr.1.parent_eq
    · exact ihr hr x hx hn

theorem IsTree.parent_link (ht : m.IsTree pr t) :
    ∀ x ∈ inorder t, (x = rootPtr t ∧ m.parent x = pr) ∨
      m.left (m.parent x) = x ∨ m.right (m.parent x) = x := by
  induction t generalizing pr with
  | nil => simp
  | node p l r ihl ihr =>
    obtain ⟨hp, hl, hr⟩ := ht
    intro x hx
    simp only [inorder_node, List.mem_append, List.mem_cons] at hx
    rcases hx with hx | rfl | hx
    · rcases ihl hl x hx with ⟨rfl, hpar⟩ | h
      · exact .inr (.inl (by rw [hpar, hp.left_eq]))
      · exact .inr h
    · exact .inl ⟨rfl, hp.parent_eq⟩
    · rcases ihr hr x hx with ⟨rfl, hpar⟩ | h
      · exact .inr (.inr (by rw [hpar, hp.right_eq]))
      · exact .inr h

/-- Renaming the nodes of a tree. -/
theorem IsTree.map (σ : Equiv.Perm Ptr) (hσ : σ null = null) (ht : m.IsTree pr t)
    (hpar : ∀ x ∈ inorder t, m'.parent (σ x) = σ (m.parent x))
    (hleft : ∀ x ∈ inorder t, m'.left (σ x) = σ (m.left x))
    (hright : ∀ x ∈ inorder t, m'.right (σ x) = σ (m.right x))
    (hbal : ∀ x ∈ inorder t, m'.balance (σ x) = m.balance x) :
    m'.IsTree (σ pr) (t.map σ) := by
  have hroot : ∀ u : BinaryTree Ptr, rootPtr (u.map σ) = σ (rootPtr u) := by
    intro u
    cases u with
    | nil => exact hσ.symm
    | node p l r => rfl
  induction t generalizing pr with
  | nil => trivial
  | node p l r ihl ihr =>
    obtain ⟨hp, hl, hr⟩ := ht
    simp only [inorder_node, List.mem_append, List.mem_cons] at hpar hleft hright hbal
    refine ⟨⟨fun h => hp.ne_null (σ.injective (h.trans hσ.symm)), ?_, ?_, ?_, ?_⟩,
      ihl hl ?_ ?_ ?_ ?_, ihr hr ?_ ?_ ?_ ?_⟩
    · rw [hpar p (by simp), hp.parent_eq]
    · rw [hleft p (by simp), hp.left_eq, hroot]
    · rw [hright p (by simp), hp.right_eq, hroot]
    · rw [hbal p (by simp), hp.balance_eq, height_map, height_map]
    all_goals intro x hx
    · exact hpar x (.inl hx)
    · exact hleft x (.inl hx)
    · exact hright x (.inl hx)
    · exact hbal x (.inl hx)
    · exact hpar x (.inr (.inr hx))
    · exact hleft x (.inr (.inr hx))
    · exact hright x (.inr (.inr hx))
    · exact hbal x (.inr (.inr hx))

/-- **`swap`** renames the two nodes to one another. -/
theorem swap_spec (ht : m.IsTree null t) (hs : Swappable m v w) (hvt : v ∈ inorder t)
    (hwt : w ∈ inorder t) :
    (m.swap v w).1.key = m.key ∧ (m.swap v w).1.IsTree null (t.map (Equiv.swap v w)) ∧
      (m.swap v w).2 = if m.parent v = null then some w else none := by
  obtain ⟨hkey, hleft, hright, hpar, hbal, hout⟩ := swap_fields hs
  obtain ⟨hv, hw, hne, hrw, hlv, hrv, hlw, hpv, hpw, hadj, hside, hap⟩ := hs
  have hlv' := ht.left_link v hvt
  have hrv' := ht.right_link v hvt
  have hlw' := ht.left_link w hwt
  have hnull : Equiv.swap v w null = null := Equiv.swap_apply_of_ne_of_ne hv.symm hw.symm
  refine ⟨hkey, ?_, hout⟩
  suffices hmap : (m.swap v w).1.IsTree (Equiv.swap v w null) (t.map (Equiv.swap v w)) by
    rwa [hnull] at hmap
  refine ht.map (Equiv.swap v w) hnull ?_ ?_ ?_ ?_
  · intro x hx
    have hx' := ht.parent_link x hx
    have hxn := ht.ne_null x hx
    simp only [Equiv.swap_apply_def, hpar]
    clear hpar hleft hright hbal
    grind
  · intro x hx
    have hx' := ht.left_link x hx
    have hxn := ht.ne_null x hx
    have hxp : m.parentType v = .leftOf x ↔ m.left x = v := by
      unfold parentType
      grind
    simp only [Equiv.swap_apply_def, hleft]
    clear hpar hleft hright hbal
    grind
  · intro x hx
    have hx' := ht.right_link x hx
    have hxn := ht.ne_null x hx
    have hvl := ht.parent_link v hvt
    have hwl := ht.parent_link w hwt
    have hxp : m.parentType v = .rightOf x ↔ m.right x = v := by
      unfold parentType
      grind
    simp only [Equiv.swap_apply_def, hright]
    clear hpar hleft hright hbal
    grind
  · intro x hx
    simp only [Equiv.swap_apply_def, hbal]
    clear hpar hleft hright hbal
    grind

/-! ### The predecessor -/

theorem rootPtr_mem_plug (f : Step Ptr) (c : Ctx Ptr) (t : BinaryTree Ptr) :
    rootPtr (plug (f :: c) t) ∈ before (f :: c) ++ after (f :: c) := by
  induction c generalizing f t with
  | nil => cases f <;> simp
  | cons g c ih =>
    rw [plug_cons]
    have := ih g (f.fill t)
    cases f <;> simp only [before_left, before_right, after_left, after_right,
      List.mem_append, List.mem_cons] at this ⊢ <;> tauto

/-- A node with two children and the last node of its left subtree. -/
theorem swappable {c d : Ctx Ptr} {a : BinaryTree Ptr}
    (ht : m.IsTree null (plug c (.node v (plug d (.node w a .nil)) r)))
    (hnd : (inorder (plug c (.node v (plug d (.node w a .nil)) r))).Nodup)
    (hd : after d = []) (hr : r ≠ .nil) : Swappable m v w := by
  obtain ⟨⟨hv, hl, hrt⟩, hc⟩ := isTree_plug.1 ht
  obtain ⟨hndv, -, hout⟩ := nodup_plug hnd
  obtain ⟨⟨hndl, -⟩, hvl, hvr, hlr⟩ := nodup_node.1 hndv
  obtain ⟨-, -, hdout⟩ := nodup_plug hndl
  have hwl : w ∈ inorder (plug d (.node w a .nil)) := by simp [inorder_plug]
  have hal : ∀ x ∈ inorder a, x ∈ inorder (plug d (.node w a .nil)) := fun x hx => by
    simp [inorder_plug, hx]
  have hwa : w ∉ inorder a := (nodup_node.1 (nodup_plug hndl).1).2.1
  have hout' : ∀ x, x = v ∨ x ∈ inorder (plug d (.node w a .nil)) ∨ x ∈ inorder r → top c ≠ x := by
    rintro x hx rfl
    rcases eq_or_ne c [] with rfl | hcn
    · rcases hx with hx | hx | hx
      · exact hv.ne_null hx.symm
      · exact hl.ne_null _ hx rfl
      · exact hrt.ne_null _ hx rfl
    · exact hout _ (by simp only [inorder_node, List.mem_append, List.mem_cons]; tauto)
        (top_mem hcn)
  -- the tree opened at `w`
  have hw : m.NodeAt w (top (d ++ .left v r :: c)) (rootPtr a) null (0 - a.height) := by
    have := (isTree_plug (c := d ++ .left v r :: c) (t := .node w a .nil)).1
      (by rwa [plug_append, plug_left])
    simpa using this.1.1
  have hleft_v : m.left v ∈ inorder (plug d (.node w a .nil)) := by
    rw [hv.left_eq]
    exact rootPtr_mem (by rintro h; simp [h] at hwl)
  have hright_v : m.right v ∈ inorder r := by
    rw [hv.right_eq]
    exact rootPtr_mem hr
  have hleft_w : m.left w ≠ v ∧ m.left w ≠ w := by
    rw [hw.left_eq]
    rcases eq_or_ne a .nil with rfl | ha
    · exact ⟨hv.ne_null.symm, hw.ne_null.symm⟩
    · exact ⟨fun h => hvl (hal _ (h ▸ rootPtr_mem ha)), fun h => hwa (h ▸ rootPtr_mem ha)⟩
  have hside : m.parent v ≠ null → m.left (m.parent v) = v → m.right (m.parent v) ≠ v := by
    rw [hv.parent_eq]
    cases c with
    | nil => exact fun h => absurd rfl h
    | cons g c =>
      rintro - hlq hrq
      cases g with
      | left q b =>
        simp only [top, hc.1.right_eq] at hrq
        have hb : b ≠ .nil := by rintro rfl; exact hv.ne_null hrq.symm
        exact hout v (by simp) (by simp [← hrq, rootPtr_mem hb])
      | right q b =>
        simp only [top, hc.1.left_eq] at hlq
        have hb : b ≠ .nil := by rintro rfl; exact hv.ne_null hlq.symm
        exact hout v (by simp) (by simp [← hlq, rootPtr_mem hb])
  have hparent : (m.left v = w ∧ m.parent w = v) ∨
      (m.left v ≠ w ∧ m.parent w ∈ before d ++ after d ∧ m.left (m.parent w) ≠ w) := by
    cases d with
    | nil => exact .inl ⟨hv.left_eq, hw.parent_eq⟩
    | cons f d =>
      have hmem := top_mem (c := f :: d) (by simp)
      have hwd := hdout w (by simp)
      have htop : m.parent w = top (f :: d) := by rw [hw.parent_eq]; cases f <;> rfl
      refine .inr ⟨?_, htop ▸ hmem, ?_⟩
      · rw [hv.left_eq]
        exact fun h => hwd (h ▸ rootPtr_mem_plug f d _)
      · cases f with
        | left q b => simp at hd
        | right q b =>
          have hq := ((isTree_plug (c := .right q b :: (d ++ .left v r :: c))
            (t := .node w a .nil)).1 (by rwa [← List.cons_append, plug_append, plug_left])).2.1
          rw [htop, top, hq.left_eq]
          rintro rfl
          have hb : b ≠ .nil := by rintro rfl; exact hw.ne_null rfl
          exact hwd (by simp [rootPtr_mem hb])
  have hmem : ∀ x ∈ before d ++ after d, x ∈ inorder (plug d (.node w a .nil)) := by
    intro x hx
    simp only [inorder_plug, List.mem_append] at hx ⊢
    tauto
  refine ⟨hv.ne_null, hw.ne_null, fun h => hvl (h ▸ hwl), hw.right_eq,
    ⟨hl.ne_null _ hleft_v, fun h => hvl (h ▸ hleft_v)⟩,
    ⟨hrt.ne_null _ hright_v, fun h => hvr (h ▸ hright_v), fun h => hlr _ hwl (h ▸ hright_v)⟩,
    hleft_w, ⟨hv.parent_eq ▸ hout' _ (.inl rfl), hv.parent_eq ▸ hout' _ (.inr (.inl hwl))⟩,
    ?_, ?_, hside, ?_⟩
  all_goals rcases hparent with ⟨hadj, hpw⟩ | ⟨hap, hpw, hlpw⟩
  · exact ⟨hpw ▸ fun h => hvl (h ▸ hwl), hpw ▸ hv.ne_null⟩
  · exact ⟨fun h => hdout w (by simp) (h ▸ hpw), hl.ne_null _ (hmem _ hpw)⟩
  · exact fun _ => hpw
  · exact fun h => absurd h hap
  · exact fun h => absurd hadj h
  · refine fun _ => ⟨fun h => hvl (h ▸ hmem _ hpw), fun h => ?_, hlpw⟩
    exact hout' _ (.inr (.inl (hmem _ hpw))) (by rw [← hv.parent_eq, h])

end TreeMem
end AuroraOs
