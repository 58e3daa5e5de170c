import AuroraOs.Lib.Machine
import AuroraOs.Collections.AvlRun

/-!
# `pop`

`AvlTree::pop` takes out a leaf and corrects the balance of its parent, without going further up.
`Links` is the part of `IsTree` that does not speak of balances: it survives every `pop`.  The
balances survive exactly when the height of the parent stays, or there is nothing above it.
-/

namespace AuroraOs

open TreeZipper AvlShape TreeMem

namespace AvlTree

variable {K : Type} {m m' : TreeMem K} {p v : Ptr} {t u l r : BinaryTree Ptr} {c : Ctx Ptr}

/-! ### Child links -/

/-- The child links make up the shape. -/
def Links (m : TreeMem K) : BinaryTree Ptr → Prop
  | .nil => True
  | .node p l r =>
      p ≠ null ∧ m.left p = rootPtr l ∧ m.right p = rootPtr r ∧ Links m l ∧ Links m r

theorem links_of_isTree {pr : Ptr} (h : m.IsTree pr t) : Links m t := by
  induction t generalizing pr with
  | nil => trivial
  | node p l r ihl ihr =>
    obtain ⟨hp, hl, hr⟩ := h
    exact ⟨hp.ne_null, hp.left_eq, hp.right_eq, ihl hl, ihr hr⟩

theorem Links.shape_eq {fuel : ℕ} (h : Links m t) (hfuel : t.height ≤ fuel) :
    shape m fuel (rootPtr t) = t := by
  induction t generalizing fuel with
  | nil => cases fuel <;> simp [shape]
  | node p l r ihl ihr =>
    obtain ⟨hp, hleft, hright, hl, hr⟩ := h
    obtain ⟨fuel, rfl⟩ : ∃ k, fuel = k + 1 := ⟨fuel - 1, by simp at hfuel; omega⟩
    simp only [BinaryTree.height] at hfuel
    rw [rootPtr_node, shape, if_neg hp, hleft, hright, ihl hl (by omega), ihr hr (by omega)]

theorem Links.of_plug (h : Links m (plug c t)) : Links m t := by
  induction c generalizing t with
  | nil => exact h
  | cons f c ih =>
    rw [plug_cons] at h
    cases f with
    | left p r => exact (ih h).2.2.2.1
    | right p l => exact (ih h).2.2.2.2

theorem Links.congr (h : Links m t)
    (hf : ∀ x ∈ inorder t, m'.left x = m.left x ∧ m'.right x = m.right x) : Links m' t := by
  induction t with
  | nil => trivial
  | node p l r ihl ihr =>
    obtain ⟨hp, hleft, hright, hl, hr⟩ := h
    have hpf := hf p (by simp)
    exact ⟨hp, hpf.1.trans hleft, hpf.2.trans hright, ihl hl fun x hx => hf x (by simp [hx]),
      ihr hr fun x hx => hf x (by simp [hx])⟩

/-- Another subtree with the same top at the hole of a context. -/
theorem Links.replug (h : Links m (plug c t)) (hu : Links m' u) (hroot : rootPtr u = rootPtr t)
    (hf : ∀ x ∈ before c ++ after c, m'.left x = m.left x ∧ m'.right x = m.right x) :
    Links m' (plug c u) := by
  induction c generalizing t u with
  | nil => exact hu
  | cons f c ih =>
    rw [plug_cons] at h ⊢
    have hfill := h.of_plug
    refine ih h ?_ (by cases f <;> rfl) fun x hx => hf x ?_
    · cases f with
      | left p r =>
        have hpf := hf p (by simp)
        exact ⟨hfill.1, hpf.1.trans (hfill.2.1.trans hroot.symm), hpf.2.trans hfill.2.2.1, hu,
          hfill.2.2.2.2.congr fun x hx => hf x (by simp [hx])⟩
      | right p l =>
        have hpf := hf p (by simp)
        exact ⟨hfill.1, hpf.1.trans hfill.2.1, hpf.2.trans (hfill.2.2.1.trans hroot.symm),
          hfill.2.2.2.1.congr fun x hx => hf x (by simp [hx]), hu⟩
    · rw [List.mem_append] at hx ⊢
      cases f <;> simp <;> tauto

/-! ### The leaf -/

/-- The walk of `pop` ends at a leaf. -/
theorem findLeaf_spec {fuel : ℕ} {pr : Ptr} (h : m.IsTree pr t) (hn : t ≠ .nil)
    (hfuel : t.height ≤ fuel) :
    ∃ c v, findLeaf m fuel (rootPtr t) = some v ∧ t = plug c (.node v .nil .nil) ∧
      ∀ p l d, c = .right p l :: d → l = .nil := by
  induction t generalizing pr fuel with
  | nil => exact absurd rfl hn
  | node p l r ihl ihr =>
    obtain ⟨hp, hl, hr⟩ := h
    obtain ⟨fuel, rfl⟩ : ∃ k, fuel = k + 1 := ⟨fuel - 1, by simp at hfuel; omega⟩
    simp only [BinaryTree.height] at hfuel
    have hlf : l.height ≤ fuel := by omega
    have hrf : r.height ≤ fuel := by omega
    rw [rootPtr_node, findLeaf, hp.left_eq, hp.right_eq]
    by_cases hln : l = .nil
    · subst hln
      by_cases hrn : r = .nil
      · subst hrn
        exact ⟨[], p, by simp, rfl, by simp⟩
      · obtain ⟨c, v, he, hc, hright⟩ := ihr hr hrn hrf
        have hne : rootPtr r ≠ null := fun h0 => hrn (hr.rootPtr_eq_null.1 h0)
        refine ⟨c ++ [.right p .nil], v, by simp [hne, he], by simp [plug_append, ← hc], ?_⟩
        rintro q a d hq
        cases c with
        | nil => simp at hq; exact hq.1.2.symm
        | cons g c =>
          rw [List.cons_append, List.cons.injEq] at hq
          exact hright q a c (by rw [hq.1])
    · obtain ⟨c, v, he, hc, hright⟩ := ihl hl hln hlf
      have hne : rootPtr l ≠ null := fun h0 => hln (hl.rootPtr_eq_null.1 h0)
      refine ⟨c ++ [.left p r], v, by simp [hne, he], by simp [plug_append, ← hc], ?_⟩
      rintro q a d hq
      cases c with
      | nil => simp at hq
      | cons g c =>
        rw [List.cons_append, List.cons.injEq] at hq
        exact hright q a c (by rw [hq.1])

/-! ### One `pop` -/

variable {tr : AvlTree} {f : Step Ptr}

/-- The memory after `pop` has taken out the leaf at the hole of a context. -/
def unhook (m : TreeMem K) : Ctx Ptr → TreeMem K
  | [] => m
  | f :: c => (setHole m f null).incBalance (top (f :: c)) (sign f * growth .del)

theorem pop_eq {fuel : ℕ} (h : m.IsTree null (plug c (.node v .nil .nil)))
    (hnd : (inorder (plug c (.node v .nil .nil))).Nodup)
    (hroot : tr.root = rootPtr (plug c (.node v .nil .nil)))
    (he : findLeaf m fuel tr.root = some v) :
    pop fuel m tr = some (unhook m c, ⟨rootPtr (plug c .nil), tr.len - 1⟩, some v) := by
  obtain ⟨⟨hv, -, -⟩, hc⟩ := isTree_plug.1 h
  obtain ⟨-, -, hout⟩ := nodup_plug hnd
  have hne : tr.root ≠ null := by
    rw [hroot, Ne, h.rootPtr_eq_null]
    intro hnil
    have hmem : v ∈ inorder (plug c (.node v .nil .nil)) := by simp [inorder_plug]
    simp [hnil] at hmem
  have hpt : m.parentType v = hangs c :=
    parentType_of_isCtx hc hv.parent_eq hv.ne_null (hout v (by simp))
  rw [pop, if_neg hne, he]
  simp only [Option.bind_eq_bind, Option.bind_some]
  rw [hpt]
  cases c with
  | nil => rfl
  | cons f c =>
    rw [rootPtr_plug_cons f c _ .nil] at hroot
    cases f <;> simp [hangs, unhook, setHole, sign, growth, top, hroot]

/-- The child links after `pop`. -/
theorem links_unhook (h : Links m (plug c (.node v .nil .nil)))
    (hnd : (inorder (plug c (.node v .nil .nil))).Nodup) : Links (unhook m c) (plug c .nil) := by
  cases c with
  | nil => trivial
  | cons f c =>
    rw [plug_cons] at h hnd ⊢
    obtain ⟨hndf, -, hout⟩ := nodup_plug hnd
    have hfill := h.of_plug
    refine h.replug ?_ (by cases f <;> rfl) fun x hx => ?_
    · cases f with
      | left p r =>
        obtain ⟨-, -, hpr, -⟩ := nodup_node.1 hndf
        refine ⟨hfill.1, by simp [unhook, setHole, setLeft, incBalance, setBalance],
          hfill.2.2.1, trivial, hfill.2.2.2.2.congr fun x hx => ⟨?_, rfl⟩⟩
        exact Function.update_of_ne (ne_of_mem_of_not_mem hx hpr) _ _
      | right p l =>
        obtain ⟨-, hpl, -, -⟩ := nodup_node.1 hndf
        refine ⟨hfill.1, hfill.2.1, by simp [unhook, setHole, setRight, incBalance, setBalance],
          hfill.2.2.2.1.congr fun x hx => ⟨rfl, ?_⟩, trivial⟩
        exact Function.update_of_ne (ne_of_mem_of_not_mem hx hpl) _ _
    · have hx' : x ≠ top (f :: c) := by
        rintro rfl
        exact hout _ (by cases f <;> simp [Step.fill, top]) hx
      cases f with
      | left p r => exact ⟨Function.update_of_ne hx' _ _, rfl⟩
      | right p l => exact ⟨rfl, Function.update_of_ne hx' _ _⟩

theorem frame_unhook : m.Frame (unhook m (f :: c)) [top (f :: c)] :=
  (frame_setHole m f c null).trans (frame_incBalance _ _ _)

/-- The parent has the right balance after `pop`, and what is above it has not changed. -/
theorem isTree_unhook (h : m.IsTree null (plug (f :: c) (.node v .nil .nil)))
    (hnd : (inorder (plug (f :: c) (.node v .nil .nil))).Nodup) :
    (unhook m (f :: c)).IsTree (top c) (f.fill .nil) ∧
      (unhook m (f :: c)).IsCtx c (top (f :: c)) (f.fill (.node v .nil .nil)).height := by
  obtain ⟨-, hc⟩ := isTree_plug.1 h
  obtain ⟨-, hndc, -⟩ := nodup_plug hnd
  have hc₁ := isCtx_setHole null hc hndc
  have hndf : (inorder (f.fill .nil)).Nodup := by
    have hnd' : (inorder (plug (f :: c) .nil)).Nodup := by simpa [inorder_plug] using hndc
    rw [plug_cons] at hnd'
    exact (nodup_plug hnd').1
  refine ⟨isTree_incBalance (t := .nil) hc₁ trivial hndf (by simp [Grown]), ?_⟩
  have htop : top (f :: c) ∉ before c ++ after c := by
    rw [plug_cons] at hnd
    exact (nodup_plug hnd).2.2 _ (by cases f <;> simp [Step.fill, top])
  refine (isCtx_cons hc).1.congr frame_unhook fun x hx hxt => htop ?_
  rwa [← List.mem_singleton.1 hxt]

/-- The subtree beside the hole. -/
def sibling : Step Ptr → BinaryTree Ptr
  | .left _ r => r
  | .right _ l => l

/-- Taking out the leaf at the hole changes no height above its parent, and leaves the parent with
a balance of at most one. -/
def Keeps : Ctx Ptr → Prop
  | [] => True
  | f :: c => (sibling f).height = 1 ∨ c = [] ∧ sibling f = .nil

theorem height_fill (f : Step Ptr) (t : BinaryTree Ptr) :
    (f.fill t).height = max t.height (sibling f).height + 1 := by
  cases f <;> simp [Step.fill, sibling, BinaryTree.height, max_comm]

theorem isAvl_fill (ha : IsAvl (sibling f)) (h : (sibling f).height ≤ 1) : IsAvl (f.fill .nil) := by
  cases f <;> simp_all [sibling, Step.fill]

/-- Above a hole whose height has changed the balance is out of date. -/
theorem not_isBalanced_of_stale {s' : TreeState K} {g : Step Ptr} {h₀ fuel : ℕ}
    (hlinks : Links s'.mem (plug (g :: c) t)) (hroot : s'.tree.root = rootPtr (plug (g :: c) t))
    (hctx : s'.mem.IsCtx (g :: c) (rootPtr t) h₀) (hne : t.height ≠ h₀)
    (hfuel : (plug (g :: c) t).height ≤ fuel) : ¬ IsBalanced fuel s' := by
  intro hb
  have hshape : s'.shape fuel = plug (g :: c) t := by
    rw [TreeState.shape, hroot, hlinks.shape_eq hfuel]
  have hmem : top (g :: c) ∈ s'.nodes fuel := by
    rw [TreeState.nodes, hshape, inorder_plug]
    have := top_mem (c := g :: c) (by simp)
    simp only [List.mem_append] at this ⊢
    tauto
  have hbal := hb.balance_eq _ hmem
  have hfill := length_add_height_le c (g.fill t)
  rw [plug_cons] at hlinks hfuel
  have hlinks' := hlinks.of_plug
  cases g with
  | left q r =>
    obtain ⟨hq, hr, -⟩ := hctx
    simp only [Step.fill, BinaryTree.height] at hfill hfuel hlinks'
    simp only [top, hq.balance_eq, hq.left_eq, hq.right_eq] at hbal
    rw [hlinks'.2.2.2.1.shape_eq (by omega), hlinks'.2.2.2.2.shape_eq (by omega)] at hbal
    omega
  | right q l =>
    obtain ⟨hq, hl, -⟩ := hctx
    simp only [Step.fill, BinaryTree.height] at hfill hfuel hlinks'
    simp only [top, hq.balance_eq, hq.left_eq, hq.right_eq] at hbal
    rw [hlinks'.2.2.2.1.shape_eq (by omega), hlinks'.2.2.2.2.shape_eq (by omega)] at hbal
    omega

section Ordered

variable [LinearOrder K]

/-- The tree that `pop` leaves, when the balances survive. -/
theorem repr_unhook (h : Repr m tr (plug c (.node v .nil .nil))) (hk : Keeps c) :
    Repr (unhook m c) ⟨rootPtr (plug c .nil), tr.len - 1⟩ (plug c .nil) := by
  have hsub : (inorder (plug c .nil)).Sublist (inorder (plug c (.node v .nil .nil))) := by
    simp [inorder_plug]
  have hlen : tr.len - 1 = (inorder (plug c .nil)).length := by
    rw [h.len]
    simp [inorder_plug]
  cases c with
  | nil => exact ⟨trivial, trivial, List.Pairwise.nil, rfl, hlen⟩
  | cons f c =>
    obtain ⟨hfill, hctx⟩ := isTree_unhook h.isTree h.nodup
    have hca := ((isAvl_plug _ _).1 h.isAvl).2
    have hsib : IsAvl (sibling f) := by cases f <;> exact hca.2.1
    have hsorted : (inorder (plug (f :: c) .nil)).Pairwise fun x y =>
        (unhook m (f :: c)).key x < (unhook m (f :: c)).key y := by
      rw [frame_unhook.key]
      exact h.sorted.sublist hsub
    suffices hT : (unhook m (f :: c)).IsTree null (plug (f :: c) .nil) ∧
        IsAvl (plug (f :: c) .nil) from ⟨hT.1, hT.2, hsorted, rfl, hlen⟩
    rw [plug_cons]
    rcases hk with hk | ⟨rfl, hk⟩
    · -- the parent keeps its height
      have hh : (f.fill (.nil : BinaryTree Ptr)).height = (f.fill (.node v .nil .nil)).height := by
        simp [height_fill, hk]
      refine ⟨isTree_plug.2 ⟨hfill, ?_⟩, (isAvl_plug _ _).2 ⟨isAvl_fill hsib hk.le, ?_⟩⟩
      · rw [hh]
        cases f <;> exact hctx
      · rw [hh]
        exact ctxAvl_cons hca
    · exact ⟨hfill, isAvl_fill hsib (by simp [hk])⟩

/-- The state after `pop`, with the node it returns. -/
def TreeState.pop (fuel : ℕ) (s : TreeState K) : Option (TreeState K × Option Ptr) :=
  (AvlTree.pop fuel s.mem s.tree).map fun r => (⟨r.1, r.2.1⟩, r.2.2)

/-- There are at most two nodes, or the parent of the leaf that `pop` finds has balance 0. -/
def PopKeeps (fuel : ℕ) (s : TreeState K) : Prop :=
  s.tree.len ≤ 2 ∨ ∃ v ∈ findLeaf s.mem fuel s.tree.root, s.mem.balance (s.mem.parent v) = 0

instance (fuel : ℕ) (s : TreeState K) : Decidable (PopKeeps fuel s) :=
  inferInstanceAs (Decidable (_ ∨ ∃ v ∈ findLeaf s.mem fuel s.tree.root, _))

variable {s : TreeState K} {abs : K → Option Ptr} {T : BinaryTree Ptr} {fuel : ℕ}

theorem popKeeps_iff (h : Inv s abs (plug c (.node v .nil .nil)))
    (he : findLeaf s.mem fuel s.tree.root = some v) : PopKeeps fuel s ↔ Keeps c := by
  have hlen : s.tree.len = (before c).length + 1 + (after c).length := by
    rw [h.repr.len]
    simp [inorder_plug]
    omega
  unfold PopKeeps
  rw [hlen, he]
  simp only [Option.mem_some_iff, exists_eq_left']
  cases c with
  | nil => simp [Keeps]
  | cons f c =>
    obtain ⟨⟨hv, -, -⟩, hc⟩ := isTree_plug.1 h.repr.isTree
    have hsize : (before (f :: c)).length + 1 + (after (f :: c)).length =
        (before c ++ after c).length + (inorder (sibling f)).length + 2 := by
      cases f <;> simp [sibling] <;> omega
    have hbal : s.mem.balance (s.mem.parent v) = 0 ↔ (sibling f).height = 1 := by
      rw [hv.parent_eq, (isCtx_cons hc).2.2.2]
      cases f <;> simp [staleBf, sibling] <;> omega
    rw [hsize, hbal, Keeps]
    constructor
    · rintro (hle | h1)
      · refine .inr ⟨?_, ?_⟩
        · by_contra hne
          have := List.length_pos_of_mem (top_mem hne)
          omega
        · cases hs : sibling f with
          | nil => rfl
          | node q a b =>
            rw [hs] at hle
            simp at hle
      · exact .inl h1
    · rintro (h1 | ⟨rfl, hs⟩)
      · exact .inr h1
      · exact .inl (by simp [hs])

/-- What `pop` leaves unbalanced, when the parent of the leaf does not keep its height. -/
theorem not_isBalanced_unhook (h : Repr m tr (plug c (.node v .nil .nil)))
    (hright : ∀ p l d, c = .right p l :: d → l = .nil) (hk : ¬ Keeps c) (hfuel : tr.len < fuel) :
    ¬ IsBalanced fuel ⟨unhook m c, ⟨rootPtr (plug c .nil), tr.len - 1⟩⟩ := by
  have hsize : (plug c .nil).height ≤ fuel := by
    have h1 := BinaryTree.height_le_numNodes (plug c .nil)
    have h2 : tr.len = (plug c .nil).numNodes + 1 := by
      rw [h.len, ← length_inorder]
      simp [inorder_plug]
      omega
    omega
  have hlinks := links_unhook (links_of_isTree h.isTree) h.nodup
  cases c with
  | nil => exact absurd trivial hk
  | cons f c =>
    rw [Keeps, not_or, not_and] at hk
    obtain ⟨hfill, hctx⟩ := isTree_unhook h.isTree h.nodup
    by_cases hs : sibling f = .nil
    · -- the grandparent still counts the leaf
      cases c with
      | nil => exact absurd hs (hk.2 rfl)
      | cons g c =>
        have hne : (f.fill (.nil : BinaryTree Ptr)).height ≠ (f.fill (.node v .nil .nil)).height := by
          simp [height_fill, hs]
        rw [plug_cons] at hlinks hsize ⊢
        refine not_isBalanced_of_stale hlinks rfl ?_ hne hsize
        cases f <;> exact hctx
    · cases f with
      | right p l => exact absurd (hright p l c rfl) hs
      | left p r =>
        -- the sibling has height 2
        intro hb
        have hr : r.height ≠ 0 := by
          intro h0
          cases r with
          | nil => exact hs rfl
          | node q a b => simp at h0
        have hbal : (unhook m (.left p r :: c)).balance p = r.height := by
          simpa using hfill.1.balance_eq
        have hmem : p ∈ TreeState.nodes ⟨unhook m (.left p r :: c),
            ⟨rootPtr (plug (.left p r :: c) .nil), tr.len - 1⟩⟩ fuel := by
          rw [TreeState.nodes, TreeState.shape, hlinks.shape_eq hsize]
          simp [inorder_plug]
        have hk1 : r.height ≠ 1 := hk.1
        have hrange := hb.balance_mem p hmem
        simp only [hbal] at hrange
        omega

/-- **One `pop`** takes exactly one node out of a tree that has any, and the balances survive
exactly when the condition holds. -/
theorem pop_spec (h : Inv s abs T) (hn : T ≠ .nil) (hfuel : s.tree.len < fuel) :
    ∃ s' v, s.pop fuel = some (s', some v) ∧ v ∈ s.nodes fuel ∧
      s'.nodes fuel = (s.nodes fuel).erase v ∧ s'.tree.len + 1 = s.tree.len ∧
      (PopKeeps fuel s → ∃ abs' T', Inv s' abs' T') ∧ (IsBalanced fuel s' → PopKeeps fuel s) := by
  have hnodes : s.nodes fuel = inorder T := by rw [TreeState.nodes, h.shape_eq hfuel.le]
  obtain ⟨c, v, he, rfl, hright⟩ :=
    findLeaf_spec h.repr.isTree hn (h.height_le.trans hfuel.le)
  rw [← h.repr.root] at he
  have hpop := pop_eq h.repr.isTree h.repr.nodup h.repr.root he
  have hlen : s.tree.len = (inorder (plug c .nil)).length + 1 := by
    rw [h.repr.len]
    simp [inorder_plug]
    omega
  have herase : inorder (plug c .nil) = (inorder (plug c (.node v .nil .nil))).erase v := by
    rw [inorder_erase h.repr.nodup]
    simp [inorder_plug]
  refine ⟨⟨unhook s.mem c, ⟨rootPtr (plug c .nil), s.tree.len - 1⟩⟩, v, by simp [TreeState.pop, hpop],
    by rw [hnodes, inorder_plug]; simp, ?_, ?_, fun hk => ?_, fun hb => ?_⟩
  · have hheight := BinaryTree.height_le_numNodes (plug c .nil)
    rw [← length_inorder] at hheight
    rw [hnodes, ← herase, TreeState.nodes, TreeState.shape,
      (links_unhook (links_of_isTree h.repr.isTree) h.repr.nodup).shape_eq (by omega)]
  · show s.tree.len - 1 + 1 = s.tree.len
    omega
  · refine ⟨fun k => if abs k = some v then none else abs k, plug c .nil,
      repr_unhook h.repr ((popKeeps_iff h he).1 hk), fun k p => ?_⟩
    have hkey : (unhook s.mem c).key = s.mem.key := by
      cases c with
      | nil => rfl
      | cons f c => exact frame_unhook.key
    rw [herase, h.repr.nodup.mem_erase_iff, hkey, and_assoc, ← h.abs_iff]
    split_ifs with hkv
    · rw [hkv]
      simp [eq_comm]
    · refine ⟨fun hp => ⟨?_, hp⟩, fun hp => hp.2⟩
      rintro rfl
      exact hkv hp
  · rw [popKeeps_iff h he]
    by_contra hk
    exact not_isBalanced_unhook h.repr hright hk hfuel hb

/-! ### Runs with `pop` -/

/-- The operations with `pop`. -/
inductive PopOp (K : Type)
  | tree (op : TreeOp K)
  | pop

/-- One operation. -/
def popStep (fuel : ℕ) (s : TreeState K) : PopOp K → Option (TreeState K)
  | .tree op => (step fuel s op).map fun r => r.1
  | .pop => (s.pop fuel).map fun r => r.1

/-- The ownership discipline: a node that is inserted is not null and not in the tree. -/
def PopLegal (fuel : ℕ) (s : TreeState K) : PopOp K → Prop
  | .tree (.insert _ v) => v ≠ null ∧ v ∉ s.nodes fuel
  | _ => True

instance (fuel : ℕ) (s : TreeState K) : DecidablePred (PopLegal fuel s)
  | .tree (.insert _ v) => inferInstanceAs (Decidable (v ≠ null ∧ v ∉ s.nodes fuel))
  | .tree (.remove _) => isTrue trivial
  | .pop => isTrue trivial

/-- A call of `pop` meets the condition. -/
def PopsKeep (fuel : ℕ) (s : TreeState K) : PopOp K → Prop
  | .pop => PopKeeps fuel s
  | .tree _ => True

instance (fuel : ℕ) (s : TreeState K) : DecidablePred (PopsKeep fuel s)
  | .pop => inferInstanceAs (Decidable (PopKeeps fuel s))
  | .tree _ => isTrue trivial

/-- Some map is the map of the tree, which has room to grow by `n` nodes. -/
def Room (fuel n : ℕ) (s : TreeState K) : Prop := (∃ abs T, Inv s abs T) ∧ s.tree.len + n < fuel

theorem Inv.legal {op : TreeOp K} (h : Inv s abs T) (hfuel : s.tree.len ≤ fuel)
    (hl : PopLegal fuel s (.tree op)) : Legal abs op := by
  cases op with
  | insert key v =>
    refine ⟨hl.1, fun k hk => hl.2 ?_⟩
    rw [TreeState.nodes, h.shape_eq hfuel]
    exact ((h.abs_iff k v).1 hk).1
  | remove key => trivial

theorem popStep_room {n : ℕ} {op : PopOp K} (h : Room fuel (n + 1) s) (hl : PopLegal fuel s op)
    (hk : PopsKeep fuel s op) : ∃ s', popStep fuel s op = some s' ∧ Room fuel n s' := by
  obtain ⟨⟨abs, T, hinv⟩, hroom⟩ := h
  have hfuel : s.tree.len < fuel := by omega
  cases op with
  | tree op =>
    obtain ⟨s', T', stop, he, hs⟩ := step_refines fuel hinv op (hinv.legal hfuel.le hl) hfuel
    have hlen := hs.len
    exact ⟨s', by simp [popStep, he], ⟨_, T', hs.inv⟩, by omega⟩
  | pop =>
    by_cases hn : T = .nil
    · have hroot : s.tree.root = null := by rw [hinv.repr.root, hn, rootPtr_nil]
      refine ⟨s, ?_, ⟨abs, T, hinv⟩, by omega⟩
      simp [popStep, TreeState.pop, AvlTree.pop, hroot]
    · obtain ⟨s', v, he, -, -, hlen, hkeep, -⟩ := pop_spec hinv hn hfuel
      exact ⟨s', by simp [popStep, he], hkeep hk, by omega⟩

/-- A run whose pops meet the condition ends in the tree of some map. -/
theorem run_room {n : ℕ} {ops : List (PopOp K)} (h : Room fuel (ops.length + n) s)
    (hl : Machine.Along (popStep fuel) (PopLegal fuel) s ops)
    (hk : Machine.Along (popStep fuel) (PopsKeep fuel) s ops) :
    ∃ s', Machine.run (popStep fuel) s ops = some s' ∧ Room fuel n s' := by
  induction ops generalizing s with
  | nil => exact ⟨s, rfl, by simpa using h⟩
  | cons op ops ih =>
    rw [List.length_cons, Nat.add_right_comm] at h
    obtain ⟨s₁, he₁, h₁⟩ := popStep_room h hl.1 hk.1
    obtain ⟨s₂, he₂, h₂⟩ := ih h₁ (hl.2 s₁ he₁) (hk.2 s₁ he₁)
    exact ⟨s₂, by rw [Machine.run, he₁, Option.bind_some, he₂], h₂⟩

/-- **Runs with `pop`**: when every `pop` of a run meets the condition, the tree it ends with has
right balances and links, and every further insertion or removal goes through.  A further `pop`
takes exactly one node out of a tree that has any, and leaves right balances and links exactly when
it meets the condition. -/
theorem run_pop (m : TreeMem K) (ops : List (PopOp K)) (fuel : ℕ) (hfuel : ops.length < fuel)
    (hl : Machine.Along (popStep fuel) (PopLegal fuel) ⟨m, new⟩ ops)
    (hk : Machine.Along (popStep fuel) (PopsKeep fuel) ⟨m, new⟩ ops) :
    ∃ s, Machine.run (popStep fuel) ⟨m, new⟩ ops = some s ∧ IsBalanced fuel s ∧
      (∀ op, PopLegal fuel s (.tree op) → ∃ s' out stop, step fuel s op = some (s', out, stop) ∧
        Stops (s.shape fuel) (s'.shape fuel) stop) ∧
      (s.tree.root = null → s.pop fuel = some (s, none)) ∧
      (s.tree.root ≠ null → ∃ s' v, s.pop fuel = some (s', some v) ∧ v ∈ s.nodes fuel ∧
        s'.nodes fuel = (s.nodes fuel).erase v ∧ s'.tree.len + 1 = s.tree.len ∧
        (IsBalanced fuel s' ↔ PopKeeps fuel s)) := by
  have h₀ : Room fuel (ops.length + 0) (⟨m, new⟩ : TreeState K) :=
    ⟨⟨_, _, inv_new m⟩, by simpa [new] using hfuel⟩
  obtain ⟨s, he, ⟨abs, T, h⟩, hroom⟩ := run_room h₀ hl hk
  have hlt : s.tree.len < fuel := by omega
  refine ⟨s, he, h.isBalanced hlt.le, fun op hop => ?_, fun hroot => ?_, fun hroot => ?_⟩
  · obtain ⟨s', T', stop, he', hs⟩ := step_refines fuel h op (h.legal hlt.le hop) hlt
    have hlen := hs.len
    refine ⟨s', _, stop, he', ?_⟩
    rw [h.shape_eq hlt.le, hs.inv.shape_eq (by omega)]
    exact hs.stops
  · simp [TreeState.pop, AvlTree.pop, hroot]
  · have hn : T ≠ .nil := by
      rintro rfl
      exact hroot h.repr.root
    obtain ⟨s', v, hpop, hv, hnodes, hlen, hkeep, hbal⟩ := pop_spec h hn hlt
    refine ⟨s', v, hpop, hv, hnodes, hlen, hbal, fun hc => ?_⟩
    obtain ⟨abs', T', h'⟩ := hkeep hc
    exact h'.isBalanced (by omega)

end Ordered

/-- Three insertions, a `pop` that takes the left of two leaves, and one of the two nodes left. -/
def popOps : List (PopOp ℕ) :=
  [.tree (.insert 2 1), .tree (.insert 1 2), .tree (.insert 3 3), .pop, .pop]

/-- The sample run. -/
theorem run_pop_sample :
    ∃ s, Machine.run (popStep 6) ⟨sampleMem, new⟩ popOps = some s ∧ IsBalanced 6 s ∧
      (∀ op, PopLegal 6 s (.tree op) → ∃ s' out stop, step 6 s op = some (s', out, stop) ∧
        Stops (s.shape 6) (s'.shape 6) stop) ∧
      (s.tree.root = null → s.pop 6 = some (s, none)) ∧
      (s.tree.root ≠ null → ∃ s' v, s.pop 6 = some (s', some v) ∧ v ∈ s.nodes 6 ∧
        s'.nodes 6 = (s.nodes 6).erase v ∧ s'.tree.len + 1 = s.tree.len ∧
        (IsBalanced 6 s' ↔ PopKeeps 6 s)) :=
  run_pop sampleMem popOps 6 (by decide) (by decide) (by decide)

/-- Four insertions, and a `pop` beside a subtree of height 2: the root keeps a balance of 2. -/
theorem pop_unbalanced :
    ∃ s, Machine.run (popStep 6) ⟨sampleMem, new⟩ [.tree (.insert 2 1), .tree (.insert 1 2),
        .tree (.insert 3 3), .tree (.insert 4 4), .pop] = some s ∧ ¬ IsBalanced 6 s := by
  obtain ⟨s, he, hmem, hbal⟩ : ∃ s, Machine.run (popStep 6) ⟨sampleMem, new⟩
      [.tree (.insert 2 1), .tree (.insert 1 2), .tree (.insert 3 3), .tree (.insert 4 4), .pop]
      = some s ∧ 1 ∈ s.nodes 6 ∧ s.mem.balance 1 = 2 := ⟨_, rfl, by decide, by decide⟩
  refine ⟨s, he, fun hb => ?_⟩
  have hrange := hb.balance_mem 1 hmem
  omega

end AvlTree
end AuroraOs
