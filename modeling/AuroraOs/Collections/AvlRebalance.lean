import AuroraOs.Collections.AvlInvariant

/-!
# The upward loop

`AvlTree::rebalance` starts at the parent of a subtree whose height changed by one, with the
balances above the subtree still stale.  `Grown` is what the loop knows of the subtree, and
`rebalance_spec` is the loop: it ends at the root or where the height is the old one again, and
what is left is an AVL tree with the same in-order sequence.
-/

namespace AuroraOs

open TreeZipper AvlShape TreeMem

namespace AvlTree

variable {K : Type} {m m' : TreeMem K} {p ptr : Ptr} {t t₀ l r u : BinaryTree Ptr} {c : Ctx Ptr}
  {mode : BalMode} {h₀ : ℕ}

/-- The change of height that the loop carries upwards. -/
def growth : BalMode → ℤ
  | .add => 1
  | .del => -1

/-- The subtree whose height was `h₀` has grown or shrunk by one; one that has grown leans, unless
it is a new leaf. -/
def Grown : BalMode → BinaryTree Ptr → ℕ → Prop
  | .add, t, h₀ => t.height = h₀ + 1 ∧ (t.height = 1 ∨ skew t ≠ 0)
  | .del, t, h₀ => t.height + 1 = h₀

theorem Grown.height_eq (hg : Grown mode t h₀) : (t.height : ℤ) = h₀ + growth mode := by
  cases mode with
  | add => simp [hg.1, growth]
  | del => simp only [Grown] at hg; simp only [growth]; omega

/-- One round of the loop leaves an AVL subtree, and its test tells whether the height of the
subtree, `h₀` before, has changed. -/
structure Settled (mode : BalMode) (oldBf : ℤ) (u : BinaryTree Ptr) (h₀ : ℕ) : Prop where
  isAvl : IsAvl u
  height : (hchange mode oldBf (skew u) = 0 ∧ u.height = h₀) ∨
    (hchange mode oldBf (skew u) = growth mode ∧ Grown mode u h₀)

theorem settled_left (ht : IsAvl t) (hr : IsAvl r) (hb : |(r.height : ℤ) - h₀| ≤ 1)
    (hg : Grown mode t h₀) :
    Settled mode (r.height - h₀) (AvlShape.rebalance (.node p t r)) (max h₀ r.height + 1) := by
  rw [abs_le_one] at hb
  cases mode with
  | add =>
    obtain ⟨hh, hlean⟩ := hg
    by_cases hdeep : t.height = r.height + 2
    · obtain ⟨ha, ⟨-, -, heven⟩ | ⟨hs, hu⟩⟩ := rebalance_of_left (p := p) ht hr hdeep
      · omega
      · refine ⟨ha, .inl ⟨?_, by omega⟩⟩
        simp [hchange, hs]
    · rw [rebalance_of_balanced (by rw [abs_le_one]; omega)]
      refine ⟨⟨by rw [abs_le_one]; omega, ht, hr⟩, ?_⟩
      simp only [hchange, Grown, growth, skew_node, BinaryTree.height, abs_eq_one, true_and]
      split_ifs <;> simp_all <;> omega
  | del =>
    simp only [Grown] at hg
    by_cases hdeep : r.height = t.height + 2
    · obtain ⟨ha, ⟨hs, hu, -⟩ | ⟨hs, hu⟩⟩ := rebalance_of_right (p := p) ht hr hdeep
      · refine ⟨ha, .inl ⟨?_, by omega⟩⟩
        rw [abs_eq_one] at hs
        have : skew (AvlShape.rebalance (.node p t r)) ≠ 0 := by omega
        simp [hchange, this]
      · refine ⟨ha, .inr ⟨?_, by simp only [Grown]; omega⟩⟩
        have : |(r.height : ℤ) - h₀| = 1 := by rw [abs_eq_one]; omega
        simp [hchange, hs, this, growth]
    · rw [rebalance_of_balanced (by rw [abs_le_one]; omega)]
      refine ⟨⟨by rw [abs_le_one]; omega, ht, hr⟩, ?_⟩
      simp only [hchange, Grown, growth, skew_node, BinaryTree.height, abs_eq_one, true_and]
      split_ifs <;> simp_all <;> omega

theorem settled_right (hl : IsAvl l) (ht : IsAvl t) (hb : |(h₀ : ℤ) - l.height| ≤ 1)
    (hg : Grown mode t h₀) :
    Settled mode (h₀ - l.height) (AvlShape.rebalance (.node p l t)) (max l.height h₀ + 1) := by
  rw [abs_le_one] at hb
  cases mode with
  | add =>
    obtain ⟨hh, hlean⟩ := hg
    by_cases hdeep : t.height = l.height + 2
    · obtain ⟨ha, ⟨-, -, heven⟩ | ⟨hs, hu⟩⟩ := rebalance_of_right (p := p) hl ht hdeep
      · omega
      · refine ⟨ha, .inl ⟨?_, by omega⟩⟩
        simp [hchange, hs]
    · rw [rebalance_of_balanced (by rw [abs_le_one]; omega)]
      refine ⟨⟨by rw [abs_le_one]; omega, hl, ht⟩, ?_⟩
      simp only [hchange, Grown, growth, skew_node, BinaryTree.height, abs_eq_one, true_and]
      split_ifs <;> simp_all <;> omega
  | del =>
    simp only [Grown] at hg
    by_cases hdeep : l.height = t.height + 2
    · obtain ⟨ha, ⟨hs, hu, -⟩ | ⟨hs, hu⟩⟩ := rebalance_of_left (p := p) hl ht hdeep
      · refine ⟨ha, .inl ⟨?_, by omega⟩⟩
        rw [abs_eq_one] at hs
        have : skew (AvlShape.rebalance (.node p l t)) ≠ 0 := by omega
        simp [hchange, this]
      · refine ⟨ha, .inr ⟨?_, by simp only [Grown]; omega⟩⟩
        have : |(h₀ : ℤ) - l.height| = 1 := by rw [abs_eq_one]; omega
        simp [hchange, hs, this, growth]
    · rw [rebalance_of_balanced (by rw [abs_le_one]; omega)]
      refine ⟨⟨by rw [abs_le_one]; omega, hl, ht⟩, ?_⟩
      simp only [hchange, Grown, growth, skew_node, BinaryTree.height, abs_eq_one, true_and]
      split_ifs <;> simp_all <;> omega

/-! ### One round -/

/-- How the node above the hole of a context hangs in it. -/
def hangs : Ctx Ptr → ParentType
  | [] => .root
  | .left p _ :: _ => .leftOf p
  | .right p _ :: _ => .rightOf p

theorem parentType_of_isCtx {h : ℕ} (hc : m.IsCtx c p h) (hpar : m.parent p = top c)
    (hp : p ≠ null) (hnot : p ∉ before c ++ after c) : m.parentType p = hangs c := by
  cases c with
  | nil => simp [parentType, hpar, hangs, top]
  | cons f c =>
    cases f with
    | left q r => simp [parentType, hpar, hangs, top, hc.1.ne_null, hc.1.left_eq]
    | right q l =>
      have hne : p ≠ rootPtr l := by
        rintro rfl
        rcases eq_or_ne l .nil with rfl | hl
        · exact hp rfl
        · exact hnot (by simp [rootPtr_mem hl])
      simp [parentType, hpar, hangs, top, hc.1.ne_null, hc.1.left_eq, hne]

/-- The sign with which the height of the hole counts in the balance of the node. -/
def sign : Step Ptr → ℤ
  | .left _ _ => -1
  | .right _ _ => 1

/-- The stale balance above a hole of height `h₀`. -/
def staleBf (f : Step Ptr) (h₀ : ℕ) : ℤ :=
  match f with
  | .left _ r => r.height - h₀
  | .right _ l => h₀ - l.height

theorem frame_incBalance (m : TreeMem K) (p : Ptr) (b : ℤ) :
    m.Frame (m.incBalance p b) [p] := by
  refine ⟨rfl, fun _ _ => rfl, fun _ _ => rfl, fun _ _ => rfl, fun x hx => ?_⟩
  simp only [List.mem_singleton] at hx
  simp [incBalance, setBalance, hx]

/-- Correcting the balance above a subtree that has grown. -/
theorem isTree_incBalance {f : Step Ptr} (hc : m.IsCtx (f :: c) (rootPtr t) h₀)
    (ht : m.IsTree (top (f :: c)) t) (hnd : (inorder (f.fill t)).Nodup)
    (hg : Grown mode t h₀) :
    (m.incBalance (top (f :: c)) (sign f * growth mode)).IsTree (top c) (f.fill t) := by
  have hh := hg.height_eq
  have hf := frame_incBalance m (top (f :: c)) (sign f * growth mode)
  cases f with
  | left p r =>
    obtain ⟨hp, hr, -⟩ := hc
    obtain ⟨-, hpt, hpr, -⟩ := nodup_node.1 hnd
    refine ⟨⟨hp.ne_null, hp.parent_eq, hp.left_eq, hp.right_eq, ?_⟩,
      ht.congr_singleton hf hpt, hr.congr_singleton hf hpr⟩
    simp [incBalance, setBalance, top, sign, hp.balance_eq, hh]
    ring
  | right p l =>
    obtain ⟨hp, hl, -⟩ := hc
    obtain ⟨-, hpl, hpt, -⟩ := nodup_node.1 hnd
    refine ⟨⟨hp.ne_null, hp.parent_eq, hp.left_eq, hp.right_eq, ?_⟩,
      hl.congr_singleton hf hpl, ht.congr_singleton hf hpt⟩
    simp [incBalance, setBalance, top, sign, hp.balance_eq, hh]
    ring

/-- **One round of the loop**: the node is mended, the rest of the tree is as before. -/
theorem round_spec {f : Step Ptr} (hc : m.IsCtx (f :: c) (rootPtr t) t₀.height)
    (ht : m.IsTree (top (f :: c)) t) (hnd : (inorder (f.fill t)).Nodup) (ha : IsAvl t)
    (hca : CtxAvl (f :: c) t₀.height) (hg : Grown mode t t₀.height) :
    ∃ m' u, (m.incBalance (top (f :: c)) (sign f * growth mode)).rebalance (top (f :: c))
        = some (m', rootPtr u) ∧
      u ≠ .nil ∧ inorder u = inorder (f.fill t) ∧ m'.IsTree (top c) u ∧
      m.Frame m' (inorder (f.fill t)) ∧ Settled mode (staleBf f t₀.height) u (f.fill t₀).height := by
  have ht' := isTree_incBalance hc ht hnd hg
  have hf := frame_incBalance m (top (f :: c)) (sign f * growth mode)
  cases f with
  | left p r =>
    obtain ⟨hb, hr, -⟩ := hca
    obtain ⟨m', he, hu, hf'⟩ := TreeMem.rebalance_spec ht' hnd ha hr
    refine ⟨m', _, he, fun h => ?_, inorder_rebalance _, hu, hf.of_root.trans hf',
      settled_left ha hr hb hg⟩
    simpa using congrArg inorder h
  | right p l =>
    obtain ⟨hb, hl, -⟩ := hca
    obtain ⟨m', he, hu, hf'⟩ := TreeMem.rebalance_spec ht' hnd hl ha
    refine ⟨m', _, he, fun h => ?_, inorder_rebalance _, hu, hf.of_root.trans hf',
      settled_right hl ha hb hg⟩
    simpa using congrArg inorder h

/-! ### The loop -/

/-- Write the link of a step. -/
def setHole (m : TreeMem K) : Step Ptr → Ptr → TreeMem K
  | .left q _, v => m.setLeft q v
  | .right q _, v => m.setRight q v

theorem frame_setHole (m : TreeMem K) (g : Step Ptr) (c : Ctx Ptr) (v : Ptr) :
    m.Frame (setHole m g v) [top (g :: c)] := by
  cases g with
  | left q r => exact frame_setLeft m q v
  | right q l => exact frame_setRight m q v

theorem isCtx_setHole {g : Step Ptr} {h : ℕ} (hole : Ptr) (hc : m.IsCtx (g :: c) p h)
    (hnd : (before (g :: c) ++ after (g :: c)).Nodup) :
    (setHole m g hole).IsCtx (g :: c) hole h := by
  have hf := frame_setHole m g c hole
  have hnd' : (inorder (plug (g :: c) .nil)).Nodup := by simpa [inorder_plug] using hnd
  cases g with
  | left q r =>
    obtain ⟨hq, hr, hc⟩ := hc
    obtain ⟨hnode, -, hout⟩ := nodup_plug (c := c) hnd'
    obtain ⟨-, -, hqr, -⟩ := nodup_node.1 hnode
    refine ⟨⟨hq.ne_null, hq.parent_eq, by simp [setHole, setLeft], hq.right_eq, hq.balance_eq⟩,
      hr.congr_singleton hf hqr, hc.congr hf fun x hx hxq => hout q (by simp) ?_⟩
    rwa [← (List.mem_singleton.1 hxq : x = q)]
  | right q l =>
    obtain ⟨hq, hl, hc⟩ := hc
    obtain ⟨hnode, -, hout⟩ := nodup_plug (c := c) hnd'
    obtain ⟨-, hql, -, -⟩ := nodup_node.1 hnode
    refine ⟨⟨hq.ne_null, hq.parent_eq, hq.left_eq, by simp [setHole, setRight], hq.balance_eq⟩,
      hl.congr_singleton hf hql, hc.congr hf fun x hx hxq => hout q (by simp) ?_⟩
    rwa [← (List.mem_singleton.1 hxq : x = q)]

/-- Write the link of a step, and the parent of what is linked. -/
def setHolep (m : TreeMem K) : Step Ptr → Ptr → TreeMem K
  | .left q _, v => m.setLeftp q v
  | .right q _, v => m.setRightp q v

theorem setHolep_eq (m : TreeMem K) (f : Step Ptr) (c : Ctx Ptr) (v : Ptr) :
    setHolep m f v =
      if v = null then setHole m f v else (setHole m f v).setParent v (top (f :: c)) := by
  cases f <;> rfl

theorem frame_setParent (m : TreeMem K) (p v : Ptr) : m.Frame (m.setParent p v) [p] := by
  refine ⟨rfl, fun x hx => ?_, fun _ _ => rfl, fun _ _ => rfl, fun _ _ => rfl⟩
  simp only [List.mem_singleton] at hx
  simp [setParent, hx]

theorem setHole_key (m : TreeMem K) (f : Step Ptr) (v : Ptr) : (setHole m f v).key = m.key := by
  cases f <;> rfl

theorem setHolep_key (m : TreeMem K) (f : Step Ptr) (v : Ptr) : (setHolep m f v).key = m.key := by
  rw [setHolep_eq m f []]
  split_ifs
  · exact setHole_key m f v
  · exact setHole_key m f v

/-- Linking a tree into a hole. -/
theorem setHolep_spec {f : Step Ptr} {hole pr : Ptr} {h : ℕ} (hc : m.IsCtx (f :: c) hole h)
    (ht : m.IsTree pr t) (hnd : (inorder (plug (f :: c) t)).Nodup) :
    (setHolep m f (rootPtr t)).IsCtx (f :: c) (rootPtr t) h ∧
      (setHolep m f (rootPtr t)).IsTree (top (f :: c)) t := by
  obtain ⟨hndt, hndc, hout⟩ := nodup_plug hnd
  have hc₁ := isCtx_setHole (rootPtr t) hc hndc
  rw [setHolep_eq m f c]
  split_ifs with hn
  · obtain rfl := ht.rootPtr_eq_null.1 hn
    exact ⟨hc₁, trivial⟩
  have htn : t ≠ .nil := fun h => hn (h ▸ rfl)
  have hf₁ := frame_setHole m f c (rootPtr t)
  have hf₂ := frame_setParent (setHole m f (rootPtr t)) (rootPtr t) (top (f :: c))
  have htop : top (f :: c) ∉ inorder t := fun h => hout _ h (top_mem (by simp))
  have hne : rootPtr t ≠ top (f :: c) := fun h => htop (h ▸ rootPtr_mem htn)
  refine ⟨hc₁.congr hf₂ fun x hx hx' => hout x ?_ hx, ?_⟩
  · exact List.mem_singleton.1 hx' ▸ rootPtr_mem htn
  · refine (ht.congr_singleton hf₁ htop).reparent hndt hf₂ (fun x _ hx => List.mem_singleton.1 hx)
      fun _ => ⟨by simp [setParent], rfl, rfl, rfl⟩

/-- The node above the hole, and the context around it. -/
theorem isCtx_cons {f : Step Ptr} {hole : Ptr} (hc : m.IsCtx (f :: c) hole t₀.height) :
    m.IsCtx c (top (f :: c)) (f.fill t₀).height ∧ m.parent (top (f :: c)) = top c ∧
      top (f :: c) ≠ null ∧ m.balance (top (f :: c)) = staleBf f t₀.height := by
  cases f <;> exact ⟨hc.2.2, hc.1.parent_eq, hc.1.ne_null, hc.1.balance_eq⟩

theorem ctxAvl_cons {f : Step Ptr} (hc : CtxAvl (f :: c) t₀.height) :
    CtxAvl c (f.fill t₀).height := by
  cases f <;> exact hc.2.2

theorem balance_rootPtr {pr : Ptr} (hu : m.IsTree pr u) (hn : u ≠ .nil) :
    m.balance (rootPtr u) = skew u := by
  cases u with
  | nil => exact absurd rfl hn
  | node p l r => exact hu.1.balance_eq

/-- A round after which the loop returns. -/
theorem rebalance_stop {tr : AvlTree} {g : Step Ptr} {fuel : ℕ} {bf : ℤ}
    (hp : m.parentType p = hangs (g :: c))
    (he : (m.incBalance p bf).rebalance p = some (m', ptr)) (hptr : ptr ≠ null)
    (hh : hchange mode (m.balance p) (m'.balance ptr) = 0) :
    rebalance m tr mode (fuel + 1) p bf = some (setHole m' g ptr, tr, ptr) := by
  rw [rebalance]
  cases g <;> simp [hp, hangs, he, asRef_of_ne hptr, hh, setHole]

/-- A round after which the loop goes on. -/
theorem rebalance_go {tr : AvlTree} {g : Step Ptr} {fuel : ℕ} {bf : ℤ}
    (hp : m.parentType p = hangs (g :: c))
    (he : (m.incBalance p bf).rebalance p = some (m', ptr)) (hptr : ptr ≠ null)
    (hh : hchange mode (m.balance p) (m'.balance ptr) = growth mode) :
    rebalance m tr mode (fuel + 1) p bf
      = rebalance (setHole m' g ptr) tr mode fuel (top (g :: c)) (sign g * growth mode) := by
  rw [rebalance]
  cases g <;> cases mode <;>
    simp [hp, hangs, he, asRef_of_ne hptr, hh, setHole, growth, sign, top]

theorem rootPtr_plug_cons (f : Step Ptr) (c : Ctx Ptr) (t u : BinaryTree Ptr) :
    rootPtr (plug (f :: c) t) = rootPtr (plug (f :: c) u) := by
  induction c generalizing f t u with
  | nil => cases f <;> rfl
  | cons g c ih => rw [plug_cons, ih, plug_cons f]

/-- What the loop leaves: a tree `plug d u` with the sequence of `t₁`, where the loop ended at the
root `u`, at the top or with the height of the subtree `u₀` that stood there before, in `t₀`. -/
structure Climbed (m m' : TreeMem K) (t₀ t₁ : BinaryTree Ptr) (d : Ctx Ptr)
    (u₀ u : BinaryTree Ptr) : Prop where
  before_eq : t₀ = plug d u₀
  ne_nil : u ≠ .nil
  isTree : m'.IsTree null (plug d u)
  isAvl : IsAvl (plug d u)
  inorder_eq : inorder (plug d u) = inorder t₁
  frame : m.Frame m' (inorder t₁)
  stop : d = [] ∨ u.height = u₀.height

/-- **The loop** ends, at the root or where the height has not changed. -/
theorem rebalance_spec (mode : BalMode) (tr : AvlTree) (t₀ : BinaryTree Ptr) {f : Step Ptr}
    {fuel : ℕ} (hc : m.IsCtx (f :: c) (rootPtr t) t₀.height) (ht : m.IsTree (top (f :: c)) t)
    (hnd : (inorder (plug (f :: c) t)).Nodup) (ha : IsAvl t) (hca : CtxAvl (f :: c) t₀.height)
    (hg : Grown mode t t₀.height) (hroot : tr.root = rootPtr (plug (f :: c) t))
    (hfuel : c.length < fuel) :
    ∃ m' d u₀ u, rebalance m tr mode fuel (top (f :: c)) (sign f * growth mode)
        = some (m', ⟨rootPtr (plug d u), tr.len⟩, rootPtr u) ∧
      Climbed m m' (plug (f :: c) t₀) (plug (f :: c) t) d u₀ u := by
  induction c generalizing m t t₀ f fuel with
  | nil =>
    obtain ⟨fuel, rfl⟩ : ∃ k, fuel = k + 1 := ⟨fuel - 1, by omega⟩
    obtain ⟨-, hpar, hne, -⟩ := isCtx_cons hc
    obtain ⟨m₁, u, he, hun, hord, hu, hf, hset⟩ := round_spec hc ht (by simpa [plug_cons] using hnd)
      ha hca hg
    have hptr : rootPtr u ≠ null := fun h => hun (hu.rootPtr_eq_null.1 h)
    refine ⟨m₁, [], f.fill t₀, u, ?_, ⟨by simp [plug_cons], hun, hu, hset.isAvl, by simpa [plug_cons],
      by simpa [plug_cons], .inl rfl⟩⟩
    have hroot : m.parentType (top [f]) = .root := by
      rw [parentType, hpar]
      exact if_pos rfl
    rw [rebalance]
    simp [hroot, he, asRef_of_ne hptr]
  | cons g c ih =>
    obtain ⟨fuel, rfl⟩ : ∃ k, fuel = k + 1 := ⟨fuel - 1, by omega⟩
    obtain ⟨hc', hpar, hne, hbal⟩ := isCtx_cons hc
    rw [plug_cons] at hnd hroot
    obtain ⟨hndf, hndc, hout⟩ := nodup_plug hnd
    obtain ⟨m₁, u, he, hun, hord, hu, hf, hau, hcase⟩ := round_spec hc ht hndf ha hca hg
    have hptr : rootPtr u ≠ null := fun h => hun (hu.rootPtr_eq_null.1 h)
    have htop : top (f :: g :: c) ∈ inorder (f.fill t) := by cases f <;> simp [Step.fill, top]
    have hangs := parentType_of_isCtx hc' hpar hne (hout _ htop)
    -- the link above is written, the balances above are still those of the old height
    have hc₁ := hc'.congr hf fun x hx hx' => hout x hx' hx
    have hc₂ := isCtx_setHole (rootPtr u) hc₁ hndc
    have hf₂ := frame_setHole m₁ g c (rootPtr u)
    have hgu : top (g :: c) ∉ inorder u := fun h => hout _ (hord ▸ h) (top_mem (by simp))
    have hu₂ := hu.congr_singleton hf₂ hgu
    have hinorder : inorder (plug (g :: c) u) = inorder (plug (f :: g :: c) t) := by
      rw [plug_cons f, inorder_plug, inorder_plug, hord]
    have hframe : m.Frame (setHole m₁ g (rootPtr u)) (inorder (plug (f :: g :: c) t)) := by
      rw [plug_cons, inorder_plug]
      refine (hf.mono fun x hx => by simp [hx]).trans (hf₂.mono fun x hx => ?_)
      have := top_mem (c := g :: c) (by simp)
      rw [← List.mem_singleton.1 hx] at this
      simp only [List.mem_append] at this ⊢
      tauto
    have hroot' : tr.root = rootPtr (plug (g :: c) u) := by rw [hroot, rootPtr_plug_cons]
    rw [← balance_rootPtr hu hun, ← hbal] at hcase
    rcases hcase with ⟨hstop, hh⟩ | ⟨hgo, hgrown⟩
    · refine ⟨_, g :: c, f.fill t₀, u, ?_, ⟨plug_cons .., hun, ?_, ?_, hinorder, hframe, .inr hh⟩⟩
      · rw [rebalance_stop hangs he hptr hstop, ← hroot']
      · exact isTree_plug.2 ⟨hu₂, hh ▸ hc₂⟩
      · exact (isAvl_plug _ _).2 ⟨hau, hh ▸ ctxAvl_cons hca⟩
    · obtain ⟨m', d, u₀, u', he', hcl⟩ := ih (f.fill t₀) hc₂ hu₂ (by rwa [hinorder, plug_cons]) hau
        (ctxAvl_cons hca) hgrown hroot' (by simpa using hfuel)
      refine ⟨m', d, u₀, u', ?_, ⟨?_, hcl.ne_nil, hcl.isTree, hcl.isAvl, hcl.inorder_eq.trans hinorder,
        hframe.trans (hinorder ▸ hcl.frame), hcl.stop⟩⟩
      · rw [rebalance_go hangs he hptr hgo, he']
      · rw [plug_cons, hcl.before_eq]

end AvlTree
end AuroraOs
