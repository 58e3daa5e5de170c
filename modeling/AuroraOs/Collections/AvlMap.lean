import AuroraOs.Collections.AvlRebalance
import AuroraOs.Collections.AvlSwap

/-!
# Insertion and removal

`AvlTree.Repr` is the invariant of an AVL tree value: its root leads to an AVL shape in memory
whose keys increase from left to right.  Each operation gets one specification lemma, with the
in-order sequence before and after.
-/

namespace AuroraOs

open TreeZipper AvlShape TreeMem

namespace AvlTree

variable {K : Type} {m m' : TreeMem K} {tr : AvlTree} {T t l r : BinaryTree Ptr}
  {c : Ctx Ptr} {key : K} {p v w : Ptr} {fuel : ℕ}

/-- Where the upward loop ended, if it ran: at the root, or where the subtree has kept its
height. -/
def Stops (T T' : BinaryTree Ptr) : Option Ptr → Prop
  | none => True
  | some p => ∃ π, p ≠ null ∧ rootPtr (subtree π T') = p ∧
      (π = [] ∨ (subtree π T').height = (subtree π T).height)

theorem Climbed.stops {t₀ t₁ u₀ u : BinaryTree Ptr} {d : Ctx Ptr}
    (h : Climbed m m' t₀ t₁ d u₀ u) : Stops t₀ (plug d u) (some (rootPtr u)) := by
  refine ⟨path d, ?_, by rw [subtree_plug], ?_⟩
  · exact fun hn => h.ne_nil ((isTree_plug.1 h.isTree).1.rootPtr_eq_null.1 hn)
  · rw [h.before_eq, subtree_plug, subtree_plug]
    rcases h.stop with rfl | hh
    · exact .inl rfl
    · exact .inr hh

/-! ### A node that is linked in -/

theorem isTree_setKey (v : Ptr) (key : K) : (m.setKey v key).IsTree p t ↔ m.IsTree p t := by
  induction t generalizing p with
  | nil => rfl
  | node q l r ihl ihr =>
    rw [isTree_node, isTree_node, ihl, ihr]
    refine and_congr_left fun _ => ?_
    exact ⟨fun h => ⟨h.1, h.2, h.3, h.4, h.5⟩, fun h => ⟨h.1, h.2, h.3, h.4, h.5⟩⟩

theorem isCtx_setKey (v : Ptr) (key : K) {h : ℕ} : (m.setKey v key).IsCtx c p h ↔ m.IsCtx c p h := by
  induction c generalizing p h with
  | nil => rfl
  | cons f c ih =>
    cases f <;>
    · simp only [IsCtx, ih, isTree_setKey]
      refine and_congr_left fun _ => ?_
      exact ⟨fun h => ⟨h.1, h.2, h.3, h.4, h.5⟩, fun h => ⟨h.1, h.2, h.3, h.4, h.5⟩⟩

/-- The memory with the links of a node cleared. -/
def clearLinks (m : TreeMem K) (v : Ptr) : TreeMem K :=
  ((m.setLeft v null).setRight v null).setBalance v 0

theorem frame_clearLinks (m : TreeMem K) (v : Ptr) : m.Frame (clearLinks m v) [v] := by
  refine ⟨rfl, fun _ _ => rfl, ?_, ?_, ?_⟩ <;> intro x hx <;>
    simp only [List.mem_singleton] at hx <;>
    simp [clearLinks, setLeft, setRight, setBalance, hx]

theorem isTree_clearLinks (hv : v ≠ null) :
    (clearLinks m v).IsTree (m.parent v) (.node v .nil .nil) :=
  ⟨⟨hv, rfl, by simp [clearLinks, setLeft, setRight, setBalance],
    by simp [clearLinks, setLeft, setRight, setBalance],
    by simp [clearLinks, setLeft, setRight, setBalance]⟩, trivial, trivial⟩

theorem height_lt_of_plug {f : Step Ptr} {fuel : ℕ} (h : (plug (f :: c) t).height < fuel) :
    c.length < fuel := by
  have := length_add_height_le (f :: c) t
  simp only [List.length_cons] at this
  omega

/-! ### Removal at the edge -/

/-- What a removal of `v` leaves of a tree. -/
structure Removed (m m' : TreeMem K) (T T' : BinaryTree Ptr) (v : Ptr) (stop : Option Ptr) :
    Prop where
  key : m'.key = m.key
  isTree : m'.IsTree null T'
  isAvl : IsAvl T'
  inorder_eq : inorder T' = (inorder T).erase v
  stops : Stops T T' stop

theorem inorder_erase (hnd : (inorder (plug c (.node v l r))).Nodup) :
    (inorder (plug c (.node v l r))).erase v = before c ++ (inorder l ++ inorder r) ++ after c := by
  obtain ⟨hndv, hndc, hout⟩ := nodup_plug hnd
  obtain ⟨-, hvl, -, -⟩ := nodup_node.1 hndv
  have hvb : v ∉ before c := fun h => hout v (by simp) (by simp [h])
  rw [inorder_plug, inorder_node, List.append_assoc, List.append_assoc,
    List.erase_append_right _ hvb, List.erase_append_right _ hvl]
  simp

/-- **`remove_edge_node`** takes out a node with at most one child. -/
theorem removeEdgeNode_spec (tr : AvlTree) (ht : m.IsTree null (plug c (.node v l r)))
    (hnd : (inorder (plug c (.node v l r))).Nodup) (ha : IsAvl (plug c (.node v l r)))
    (hroot : tr.root = rootPtr (plug c (.node v l r))) (hlr : l = .nil ∨ r = .nil)
    (hfuel : (plug c (.node v l r)).height < fuel) :
    ∃ m' T' stop, removeEdgeNode fuel m tr v = some (m', ⟨rootPtr T', tr.len⟩, some v, stop) ∧
      Removed m m' (plug c (.node v l r)) T' v stop := by
  obtain ⟨⟨hv, hl, hr⟩, hc⟩ := isTree_plug.1 ht
  obtain ⟨⟨-, hal, har⟩, hca⟩ := (isAvl_plug _ _).1 ha
  obtain ⟨hndv, -, hout⟩ := nodup_plug hnd
  -- the child that takes the place of `v`
  obtain ⟨a, hta, haa, hha, hord, hchild⟩ : ∃ a, m.IsTree v a ∧ IsAvl a ∧
      a.height + 1 = (BinaryTree.node v l r).height ∧ inorder a = inorder l ++ inorder r ∧
      (if m.right v = null then m.left v else m.right v) = rootPtr a := by
    rcases eq_or_ne r .nil with rfl | hrn
    · exact ⟨l, hl, hal, by simp [BinaryTree.height], by simp, by rw [hv.right_eq]; simp [hv.left_eq]⟩
    · obtain rfl := hlr.resolve_right hrn
      refine ⟨r, hr, har, by simp [BinaryTree.height], by simp, ?_⟩
      rw [hv.right_eq, if_neg fun h => hrn (hr.rootPtr_eq_null.1 h)]
  have hedge : m.right v = null ∨ m.left v = null := by
    rw [hv.right_eq, hv.left_eq]
    rcases hlr with rfl | rfl <;> simp
  have herase := inorder_erase hnd
  rw [← hord] at herase
  have hpt : m.parentType v = hangs c := parentType_of_isCtx hc hv.parent_eq hv.ne_null (hout v (by simp))
  unfold removeEdgeNode
  rw [if_pos hedge, hchild, hpt]
  have hnd' : (inorder (plug c a)).Nodup := by
    rw [inorder_plug, ← herase]
    exact hnd.erase v
  cases c with
  | nil =>
    refine ⟨_, a, none, rfl, ⟨?_, ?_, haa, by simpa using herase.symm, trivial⟩⟩
    · split_ifs <;> rfl
    · split_ifs with hn
      · obtain rfl := hta.rootPtr_eq_null.1 hn
        trivial
      · exact hta.reparent (nodup_plug hnd').1 (frame_setParent m (rootPtr a) null)
          (fun x _ hx => List.mem_singleton.1 hx) fun _ => ⟨by simp [setParent], rfl, rfl, rfl⟩
  | cons f c =>
    obtain ⟨hc₁, ht₁⟩ := setHolep_spec (m := m) hc hta hnd'
    obtain ⟨m', d, u₀, u, he, hcl⟩ := rebalance_spec .del tr (.node v l r) hc₁ ht₁ hnd' haa hca hha
      (by rw [hroot, rootPtr_plug_cons]) (height_lt_of_plug hfuel)
    refine ⟨m', plug d u, some (rootPtr u), ?_, ⟨?_, hcl.isTree, hcl.isAvl, ?_, hcl.stops⟩⟩
    · cases f <;>
        simp only [hangs, setHolep, top, sign, growth, neg_mul, one_mul, neg_neg] at he ⊢ <;>
        simp [he]
    · rw [hcl.frame.key, setHolep_key]
    · rw [hcl.inorder_eq, herase, inorder_plug]

/-! ### Removal of an inner node -/

theorem Stops.of_map {T T' : BinaryTree Ptr} {stop : Option Ptr} (σ : Ptr → Ptr)
    (h : Stops (T.map σ) T' stop) : Stops T T' stop := by
  cases stop with
  | none => trivial
  | some p =>
    obtain ⟨π, hp, hroot, hh⟩ := h
    exact ⟨π, hp, hroot, by simpa [subtree_map] using hh⟩

theorem map_swap_of_notMem {xs : List Ptr} (hv : v ∉ xs) (hw : w ∉ xs) :
    xs.map (Equiv.swap v w) = xs := by
  refine (List.map_congr_left fun x hx => ?_).trans (List.map_id xs)
  exact Equiv.swap_apply_of_ne_of_ne (by rintro rfl; exact hv hx) (by rintro rfl; exact hw hx)

/-- Renaming a node and its predecessor to one another and taking the node out is taking it out. -/
theorem erase_map_swap {xs ys : List Ptr} (hnd : (xs ++ w :: v :: ys).Nodup) :
    ((xs ++ w :: v :: ys).map (Equiv.swap v w)).erase v = (xs ++ w :: v :: ys).erase v := by
  obtain ⟨-, hwv, hd⟩ := List.nodup_append.1 hnd
  simp only [List.nodup_cons, List.mem_cons, not_or] at hwv
  obtain ⟨⟨hne, hwy⟩, hvy, -⟩ := hwv
  have hvx : v ∉ xs := fun h => hd v h v (by simp) rfl
  have hwx : w ∉ xs := fun h => hd w h w (by simp) rfl
  rw [List.map_append, List.map_cons, List.map_cons, Equiv.swap_apply_right, Equiv.swap_apply_left,
    map_swap_of_notMem hvx hwx, map_swap_of_notMem hvy hwy, List.erase_append_right _ hvx,
    List.erase_append_right _ hvx]
  simp [hne]

/-- The loop of `remove` ends at the last node of the subtree. -/
theorem rightmost_spec (ht : m.IsTree p t) (hn : t ≠ .nil) (hfuel : t.height ≤ fuel) :
    ∃ w d a, rightmost m fuel (rootPtr t) = some w ∧ t = plug d (.node w a .nil) ∧
      after d = [] := by
  induction t generalizing p fuel with
  | nil => exact absurd rfl hn
  | node q l r _ ihr =>
    obtain ⟨hq, -, hr⟩ := ht
    obtain ⟨fuel, rfl⟩ : ∃ k, fuel = k + 1 := ⟨fuel - 1, by simp at hfuel; omega⟩
    simp only [BinaryTree.height] at hfuel
    rw [rootPtr_node, rightmost, hq.right_eq]
    split_ifs with hrn
    · obtain rfl := hr.rootPtr_eq_null.1 hrn
      exact ⟨q, [], l, rfl, rfl, rfl⟩
    · obtain ⟨w, d, a, he, rfl, hd⟩ := ihr hr (fun h => hrn (h ▸ rfl)) (show r.height ≤ fuel by omega)
      refine ⟨w, d ++ [.right q l], a, he, by simp [plug_append], ?_⟩
      rw [after_append, hd]
      rfl

/-- The root after a swap. -/
theorem root_swap {c d : Ctx Ptr} {a : BinaryTree Ptr}
    (hnd : (inorder (plug c (.node v (plug d (.node w a .nil)) r))).Nodup)
    (htop : top c = null ↔ c = []) :
    rootPtr ((plug c (.node v (plug d (.node w a .nil)) r)).map (Equiv.swap v w)) =
      ((if top c = null then some w else none).getD
        (rootPtr (plug c (.node v (plug d (.node w a .nil)) r)))) := by
  obtain ⟨-, -, hout⟩ := nodup_plug hnd
  cases c with
  | nil => simp [top, BinaryTree.map]
  | cons f c =>
    have hn : ¬ top (f :: c) = null := fun h => absurd (htop.1 h) (by simp)
    rw [if_neg hn, Option.getD_none]
    have hmem := rootPtr_mem_plug f c (.node v (plug d (.node w a .nil)) r)
    generalize plug (f :: c) (.node v (plug d (.node w a .nil)) r) = T at *
    have hσ : Equiv.swap v w (rootPtr T) = rootPtr T := by
      refine Equiv.swap_apply_of_ne_of_ne ?_ ?_
      · exact fun h => hout v (by simp) (h ▸ hmem)
      · exact fun h => hout w (by simp [inorder_plug]) (h ▸ hmem)
    cases T with
    | nil => rfl
    | node q l r => exact hσ

/-- A node with two children: exchanged with its predecessor, then taken out. -/
theorem removeInner_spec (tr : AvlTree) {d : Ctx Ptr} {a : BinaryTree Ptr}
    (ht : m.IsTree null (plug c (.node v (plug d (.node w a .nil)) r)))
    (hnd : (inorder (plug c (.node v (plug d (.node w a .nil)) r))).Nodup)
    (ha : IsAvl (plug c (.node v (plug d (.node w a .nil)) r)))
    (hroot : tr.root = rootPtr (plug c (.node v (plug d (.node w a .nil)) r)))
    (hd : after d = []) (hr : r ≠ .nil)
    (hfuel : (plug c (.node v (plug d (.node w a .nil)) r)).height < fuel) :
    ∃ m' T' stop,
      removeEdgeNode fuel (m.swap v w).1 { tr with root := (m.swap v w).2.getD tr.root } v
        = some (m', ⟨rootPtr T', tr.len⟩, some v, stop) ∧
      Removed m m' (plug c (.node v (plug d (.node w a .nil)) r)) T' v stop := by
  have hs := swappable ht hnd hd hr
  obtain ⟨hv, hc⟩ := isTree_plug.1 ht
  have hrw := (swap_fields hs).2.2.1 v
  rw [if_neg hs.ne, if_pos rfl] at hrw
  obtain ⟨hkey, ht₁, hout⟩ := swap_spec ht hs (by simp [inorder_plug]) (by simp [inorder_plug])
  have hroot₁ := root_swap hnd (by
    constructor
    · intro h
      cases c with
      | nil => rfl
      | cons f c =>
        refine absurd h ?_
        cases f <;> exact hc.1.ne_null
    · rintro rfl
      rfl)
  have hinorder : inorder (plug c (.node v (plug d (.node w a .nil)) r)) =
      (before c ++ (before d ++ inorder a)) ++ w :: v :: (inorder r ++ after c) := by
    simp [inorder_plug, hd]
  have herase := erase_map_swap (hinorder ▸ hnd)
  rw [← hinorder] at herase
  have hpar := hv.1.parent_eq
  have hw : w ∈ inorder (plug c (.node v (plug d (.node w a .nil)) r)) := by simp [inorder_plug]
  generalize plug c (.node v (plug d (.node w a .nil)) r) = T at *
  -- the renamed tree, opened at the place where `v` is now
  obtain ⟨c', l', r', hT₁⟩ : ∃ c' l' r', T.map (Equiv.swap v w) = plug c' (.node v l' r') := by
    refine exists_plug_of_mem ?_
    rw [inorder_map]
    exact List.mem_map.2 ⟨w, hw, Equiv.swap_apply_right v w⟩
  have hnd₁ : (inorder (T.map (Equiv.swap v w))).Nodup := by
    rw [inorder_map]
    exact hnd.map (Equiv.injective _)
  have ha₁ := (isAvl_map (Equiv.swap v w) T).2 ha
  have hfuel₁ : (T.map (Equiv.swap v w)).height < fuel := by rwa [height_map]
  have hroot' : (m.swap v w).2.getD tr.root = rootPtr (T.map (Equiv.swap v w)) := by
    rw [hout, hpar, hroot₁, hroot]
  rw [← inorder_map] at herase
  have hstops : ∀ T' stop, Stops (T.map (Equiv.swap v w)) T' stop → Stops T T' stop :=
    fun _ _ => Stops.of_map _
  generalize T.map (Equiv.swap v w) = T₁ at *
  subst hT₁
  have hr' : r' = .nil := by
    obtain ⟨⟨hv', -, hr'⟩, -⟩ := isTree_plug.1 ht₁
    rwa [hv'.right_eq, hr'.rootPtr_eq_null] at hrw
  obtain ⟨m', T', stop, he, hrem⟩ := removeEdgeNode_spec
    { tr with root := (m.swap v w).2.getD tr.root } ht₁ hnd₁ ha₁ hroot' (.inr hr') hfuel₁
  exact ⟨m', T', stop, he, hrem.key.trans hkey, hrem.isTree, hrem.isAvl,
    hrem.inorder_eq.trans herase, hstops _ _ hrem.stops⟩

section Ordered

variable [LinearOrder K]

/-- The tree value, its shape in memory, and the order of the keys. -/
structure Repr (m : TreeMem K) (tr : AvlTree) (T : BinaryTree Ptr) : Prop where
  isTree : m.IsTree null T
  isAvl : IsAvl T
  sorted : (inorder T).Pairwise fun x y => m.key x < m.key y
  root : tr.root = rootPtr T
  len : tr.len = (inorder T).length

theorem Repr.nodup (h : Repr m tr T) : (inorder T).Nodup :=
  h.sorted.imp fun hxy hxy' => absurd (hxy' ▸ hxy) (lt_irrefl _)

theorem repr_new (m : TreeMem K) : Repr m new .nil := by
  refine ⟨trivial, trivial, List.Pairwise.nil, rfl, rfl⟩

/-! ### Search -/

/-- The key lies between the two sides of the hole. -/
structure Between (m : TreeMem K) (key : K) (c : Ctx Ptr) : Prop where
  before_lt : ∀ x ∈ before c, m.key x < key
  lt_after : ∀ x ∈ after c, key < m.key x

/-- The place a search result stands for. -/
inductive Found (m : TreeMem K) (key : K) (T : BinaryTree Ptr) : SearchResult → Prop
  | present (c : Ctx Ptr) (p : Ptr) (l r : BinaryTree Ptr) (hT : T = plug c (.node p l r))
      (hkey : m.key p = key) : Found m key T (.present p)
  | leftOf (c : Ctx Ptr) (p : Ptr) (r : BinaryTree Ptr) (hT : T = plug (.left p r :: c) .nil)
      (hb : Between m key (.left p r :: c)) : Found m key T (.leftOf p)
  | rightOf (c : Ctx Ptr) (p : Ptr) (l : BinaryTree Ptr) (hT : T = plug (.right p l :: c) .nil)
      (hb : Between m key (.right p l :: c)) : Found m key T (.rightOf p)
  | root (hT : T = .nil) : Found m key T .root

theorem Repr.key_inj {x y : Ptr} (h : Repr m tr T) (hx : x ∈ inorder T) (hy : y ∈ inorder T)
    (hxy : m.key x = m.key y) : x = y := by
  have hnd : ((inorder T).map m.key).Nodup :=
    List.nodup_iff_pairwise_ne.2 (List.pairwise_map.2 (h.sorted.imp fun hlt => hlt.ne))
  exact List.inj_on_of_nodup_map hnd hx hy hxy

theorem Found.eq_present {res : SearchResult} (hf : Found m (m.key p) T res) (h : Repr m tr T)
    (hp : p ∈ inorder T) : res = .present p := by
  cases hf with
  | present c q l r hT hkey => rw [h.key_inj (by simp [hT, inorder_plug]) hp hkey]
  | leftOf c q r hT hb | rightOf c q l hT hb =>
    rw [hT, inorder_plug, inorder_nil, List.append_nil, List.mem_append] at hp
    rcases hp with hp | hp
    · exact absurd (hb.before_lt p hp) (lt_irrefl _)
    · exact absurd (hb.lt_after p hp) (lt_irrefl _)
  | root hT => simp [hT] at hp

theorem searchFrom_spec {pr : Ptr} (ht : m.IsTree pr t) (hn : t ≠ .nil)
    (hs : (inorder t).Pairwise fun x y => m.key x < m.key y) (hb : Between m key c)
    (hfuel : t.height ≤ fuel) :
    ∃ res, searchFrom m key fuel (rootPtr t) = some res ∧ Found m key (plug c t) res := by
  induction t generalizing pr c fuel with
  | nil => exact absurd rfl hn
  | node p l r ihl ihr =>
    obtain ⟨hp, hl, hr⟩ := ht
    obtain ⟨hsl, hsr, hs'⟩ := List.pairwise_append.1 hs
    obtain ⟨hpr, hsr⟩ := List.pairwise_cons.1 hsr
    obtain ⟨fuel, rfl⟩ : ∃ k, fuel = k + 1 := ⟨fuel - 1, by simp at hfuel; omega⟩
    simp only [BinaryTree.height] at hfuel
    rw [rootPtr_node, searchFrom]
    rcases lt_trichotomy key (m.key p) with hlt | rfl | hgt
    · rw [if_pos hlt]
      have hafter : ∀ x ∈ after (.left p r :: c), key < m.key x := by
        intro x hx
        simp only [after_left, List.cons_append, List.mem_cons, List.mem_append] at hx
        rcases hx with rfl | hx | hx
        · exact hlt
        · exact hlt.trans (hpr x hx)
        · exact hb.lt_after x hx
      by_cases hln : m.left p = null
      · rw [if_pos hln]
        rw [hp.left_eq] at hln
        obtain rfl := hl.rootPtr_eq_null.1 hln
        exact ⟨_, rfl, .leftOf c p r rfl ⟨hb.before_lt, hafter⟩⟩
      · rw [if_neg hln]
        rw [hp.left_eq] at hln ⊢
        exact ihl (c := .left p r :: c) hl (fun h => hln (h ▸ rfl)) hsl ⟨hb.before_lt, hafter⟩
          (by omega)
    · rw [if_neg (lt_irrefl _), if_neg (lt_irrefl _)]
      exact ⟨_, rfl, .present c p l r rfl rfl⟩
    · rw [if_neg hgt.not_gt, if_pos hgt]
      have hbefore : ∀ x ∈ before (.right p l :: c), m.key x < key := by
        intro x hx
        simp only [before_right, List.mem_append, List.mem_singleton] at hx
        rcases hx with hx | hx | rfl
        · exact hb.before_lt x hx
        · exact (hs' x hx p (by simp)).trans hgt
        · exact hgt
      by_cases hrn : m.right p = null
      · rw [if_pos hrn]
        rw [hp.right_eq] at hrn
        obtain rfl := hr.rootPtr_eq_null.1 hrn
        exact ⟨_, rfl, .rightOf c p l rfl ⟨hbefore, hb.lt_after⟩⟩
      · rw [if_neg hrn]
        rw [hp.right_eq] at hrn ⊢
        exact ihr (c := .right p l :: c) hr (fun h => hrn (h ▸ rfl)) hsr ⟨hbefore, hb.lt_after⟩
          (by omega)

/-- **`search`** ends at the node with the key or at the free place for it. -/
theorem search_spec (key : K) (h : Repr m tr T) (hfuel : T.height ≤ fuel) :
    ∃ res, search fuel m tr key = some res ∧ Found m key T res := by
  unfold search
  rw [h.root]
  split_ifs with hn
  · exact ⟨_, rfl, .root (h.isTree.rootPtr_eq_null.1 hn)⟩
  · exact searchFrom_spec (c := []) h.isTree (fun hT => hn (hT ▸ rfl)) h.sorted
      ⟨by simp, by simp⟩ hfuel

/-! ### Insertion -/

theorem sorted_insert {as bs : List Ptr}
    (hs : (as ++ bs).Pairwise fun x y => m.key x < m.key y) (hv : v ∉ as ++ bs)
    (hlt : ∀ x ∈ as, m.key x < key) (hgt : ∀ x ∈ bs, key < m.key x) :
    (as ++ v :: bs).Pairwise fun x y =>
      Function.update m.key v key x < Function.update m.key v key y := by
  have hne : ∀ x ∈ as ++ bs, Function.update m.key v key x = m.key x := by
    intro x hx
    exact Function.update_of_ne (by rintro rfl; exact hv hx) _ _
  obtain ⟨hsa, hsb, hab⟩ := List.pairwise_append.1 hs
  refine List.pairwise_append.2 ⟨?_, List.pairwise_cons.2 ⟨fun y hy => ?_, ?_⟩, fun x hx y hy => ?_⟩
  · refine hsa.imp_of_mem fun {x y} hx hy hxy => ?_
    rwa [hne x (by simp [hx]), hne y (by simp [hy])]
  · rw [Function.update_self, hne y (by simp [hy])]
    exact hgt y hy
  · refine hsb.imp_of_mem fun {x y} hx hy hxy => ?_
    rwa [hne x (by simp [hx]), hne y (by simp [hy])]
  · rw [hne x (by simp [hx])]
    rcases List.mem_cons.1 hy with rfl | hy
    · rw [Function.update_self]
      exact hlt x hx
    · rw [hne y (by simp [hy])]
      exact hab x hx y hy

theorem Repr.clearLinks (h : Repr m tr T) (hv : v ∉ inorder T) :
    Repr (AvlTree.clearLinks m v) tr T :=
  ⟨h.isTree.congr_singleton (frame_clearLinks m v) hv, h.isAvl, h.sorted, h.root, h.len⟩

/-- Linking a new node into the free place for its key. -/
theorem insert_at {f : Step Ptr} (h : Repr m tr (plug (f :: c) .nil)) (hv : v ≠ null)
    (hvT : v ∉ inorder (plug (f :: c) (.nil : BinaryTree Ptr))) (hb : Between m key (f :: c))
    (hfuel : (plug (f :: c) (.nil : BinaryTree Ptr)).height < fuel) :
    ∃ m' T' stop, rebalance ((setHolep (clearLinks m v) f v).setKey v key) tr .add fuel
        (top (f :: c)) (sign f) = some (m', ⟨rootPtr T', tr.len⟩, stop) ∧
      Repr m' ⟨rootPtr T', tr.len + 1⟩ T' ∧ m'.key = Function.update m.key v key ∧
      inorder T' = before (f :: c) ++ v :: after (f :: c) ∧
      Stops (plug (f :: c) .nil) T' (some stop) := by
  have hinorder : ∀ t, inorder (plug (f :: c) t) = before (f :: c) ++ inorder t ++ after (f :: c) :=
    fun t => inorder_plug _ t
  have hvc : v ∉ before (f :: c) ++ after (f :: c) := by simpa [hinorder] using hvT
  have hsorted := sorted_insert (by simpa [hinorder] using h.sorted) hvc hb.before_lt hb.lt_after
  have hnd : (inorder (plug (f :: c) (.node v .nil .nil))).Nodup := by
    rw [hinorder]
    have := hsorted.imp fun {x y} hxy => (fun h => lt_irrefl _ (h ▸ hxy) : x ≠ y)
    simpa using List.nodup_iff_pairwise_ne.2 this
  -- the leaf hangs below its new parent, the balances above are still the old ones
  have hc : (clearLinks m v).IsCtx (f :: c) null 0 :=
    (isTree_plug.1 h.isTree).2.congr (frame_clearLinks m v)
      fun x hx hxv => hvc (List.mem_singleton.1 hxv ▸ hx)
  obtain ⟨hc₁, ht₁⟩ := setHolep_spec hc (isTree_clearLinks hv) hnd
  rw [← isTree_setKey v key] at ht₁
  rw [← isCtx_setKey v key] at hc₁
  obtain ⟨hca, -⟩ := (isAvl_plug (f :: c) (.nil : BinaryTree Ptr)).1 h.isAvl
  obtain ⟨m', d, u₀, u, he, hcl⟩ := rebalance_spec .add tr .nil hc₁ ht₁ hnd
    (by simp) ((isAvl_plug (f :: c) .nil).1 h.isAvl).2 ⟨by simp, .inl (by simp)⟩
    (by rw [h.root, rootPtr_plug_cons]) (height_lt_of_plug hfuel)
  have hkey : m'.key = Function.update m.key v key := by
    rw [hcl.frame.key]
    simp [setKey, setHolep_key, clearLinks, setLeft, setRight, setBalance]
  refine ⟨m', plug d u, rootPtr u, ?_, ⟨hcl.isTree, hcl.isAvl, ?_, rfl, ?_⟩, hkey, ?_, hcl.stops⟩
  · simpa [growth] using he
  · rw [hcl.inorder_eq, hinorder, hkey]
    simpa using hsorted
  · rw [hcl.inorder_eq, hinorder, h.len, hinorder]
    simp
    omega
  · rw [hcl.inorder_eq, hinorder]
    simp

/-- **`insert`** of an absent key. -/
theorem insert_spec (h : Repr m tr T) (hv : v ≠ null) (hvT : v ∉ inorder T)
    (hk : ∀ x ∈ inorder T, m.key x ≠ key) (hfuel : T.height < fuel) :
    ∃ m' tr' T' as bs stop, insert fuel m tr key v = some (m', tr', .ok v, stop) ∧
      Repr m' tr' T' ∧ m'.key = Function.update m.key v key ∧ inorder T = as ++ bs ∧
      inorder T' = as ++ v :: bs ∧ Stops T T' stop := by
  have hr := h.clearLinks hvT
  obtain ⟨res, he, hfound⟩ := search_spec key hr hfuel.le
  rw [clearLinks] at he
  cases hfound with
  | present c p l r hT hkey => exact absurd hkey (hk p (by simp [hT, inorder_plug]))
  | leftOf c p r hT hb =>
    subst hT
    obtain ⟨m', T', stop, he', hr', hkey, hord, hstop⟩ :=
      insert_at h hv hvT ⟨hb.before_lt, hb.lt_after⟩ hfuel
    refine ⟨m', ⟨rootPtr T', tr.len + 1⟩, T', before (.left p r :: c), after (.left p r :: c),
      some stop, ?_, hr', hkey, by rw [inorder_plug]; simp, hord, hstop⟩
    simp only [setHolep, clearLinks, top, sign] at he'
    simp [AvlTree.insert, he, he']
  | rightOf c p l hT hb =>
    subst hT
    obtain ⟨m', T', stop, he', hr', hkey, hord, hstop⟩ :=
      insert_at h hv hvT ⟨hb.before_lt, hb.lt_after⟩ hfuel
    refine ⟨m', ⟨rootPtr T', tr.len + 1⟩, T', before (.right p l :: c), after (.right p l :: c),
      some stop, ?_, hr', hkey, by rw [inorder_plug]; simp, hord, hstop⟩
    simp only [setHolep, clearLinks, top, sign] at he'
    simp [AvlTree.insert, he, he']
  | root hT =>
    subst hT
    have ht : (((clearLinks m v).setParent v null).setKey v key).IsTree null (.node v .nil .nil) := by
      rw [isTree_setKey]
      exact (isTree_clearLinks hv).reparent (by simp) (frame_setParent _ v null)
        (fun x _ hx => List.mem_singleton.1 hx) fun _ => ⟨by simp [setParent], rfl, rfl, rfl⟩
    exact ⟨_, ⟨v, tr.len + 1⟩, .node v .nil .nil, [], [], none, by simp [AvlTree.insert, he]; rfl,
      ⟨ht, by simp, by simp, rfl, by simp [h.len]⟩, rfl, rfl, rfl, trivial⟩

/-- `insert` of a present key hands the node back, with its links cleared. -/
theorem insert_present (h : Repr m tr T) (hvT : v ∉ inorder T) (hp : p ∈ inorder T)
    (hfuel : T.height < fuel) :
    insert fuel m tr (m.key p) v = some (clearLinks m v, tr, .error v, none) := by
  obtain ⟨res, he, hfound⟩ := search_spec (m.key p) (h.clearLinks hvT) hfuel.le
  obtain rfl := hfound.eq_present (p := p) (h.clearLinks hvT) hp
  rw [clearLinks] at he
  simp [AvlTree.insert, he, clearLinks]

/-! ### Lookup -/

theorem get_spec (key : K) (h : Repr m tr T) (hfuel : T.height ≤ fuel) :
    ∃ res, get fuel m tr key = some res ∧ getMut fuel m tr key = some res ∧
      ∀ p, res = some p ↔ p ∈ inorder T ∧ m.key p = key := by
  obtain ⟨res, he, hfound⟩ := search_spec key h hfuel
  have hpres : ∀ p, res = .present p ↔ p ∈ inorder T ∧ m.key p = key := by
    intro p
    constructor
    · rintro rfl
      cases hfound with
      | present c p l r hT hkey => exact ⟨by simp [hT, inorder_plug], hkey⟩
    · rintro ⟨hp, rfl⟩
      exact hfound.eq_present h hp
  cases res <;> simp_all [get, getMut]

/-! ### Removal -/

/-- `remove` of an absent key. -/
theorem remove_absent (h : Repr m tr T) (hk : ∀ x ∈ inorder T, m.key x ≠ key)
    (hfuel : T.height ≤ fuel) : remove fuel m tr key = some (m, tr, none, none) := by
  obtain ⟨res, he, hfound⟩ := search_spec key h hfuel
  cases hfound with
  | present c p l r hT hkey => exact absurd hkey (hk p (by simp [hT, inorder_plug]))
  | leftOf c p r hT hb | rightOf c p l hT hb | root hT => simp [remove, he]

/-- **`remove`** of a present key. -/
theorem remove_spec (h : Repr m tr T) (hp : p ∈ inorder T) (hfuel : T.height < fuel) :
    ∃ m' T' stop, remove fuel m tr (m.key p) = some (m', ⟨rootPtr T', tr.len - 1⟩, some p, stop) ∧
      Repr m' ⟨rootPtr T', tr.len - 1⟩ T' ∧ Removed m m' T T' p stop := by
  suffices h' : ∃ m' T' stop,
      remove fuel m tr (m.key p) = some (m', ⟨rootPtr T', tr.len - 1⟩, some p, stop) ∧
      Removed m m' T T' p stop by
    obtain ⟨m', T', stop, he, hrem⟩ := h'
    refine ⟨m', T', stop, he, ⟨hrem.isTree, hrem.isAvl, ?_, rfl, ?_⟩, hrem⟩
    · rw [hrem.inorder_eq, hrem.key]
      exact h.sorted.sublist List.erase_sublist
    · rw [hrem.inorder_eq, List.length_erase_of_mem hp, h.len]
  obtain ⟨res, he, hfound⟩ := search_spec (m.key p) h hfuel.le
  obtain rfl := hfound.eq_present h hp
  have hnd := h.nodup
  obtain ⟨c, l, r, rfl⟩ := exists_plug_of_mem hp
  obtain ⟨⟨hv, hl, hr⟩, hc⟩ := isTree_plug.1 h.isTree
  by_cases hedge : m.left p = null ∨ m.right p = null
  · have hlr : l = .nil ∨ r = .nil := by
      rwa [hv.left_eq, hv.right_eq, hl.rootPtr_eq_null, hr.rootPtr_eq_null] at hedge
    obtain ⟨m', T', stop, he', hrem⟩ := removeEdgeNode_spec ⟨tr.root, tr.len - 1⟩ h.isTree
      hnd h.isAvl h.root hlr hfuel
    exact ⟨m', T', stop, by simp [remove, he, hedge, he'], hrem⟩
  · have hln : l ≠ .nil := fun hn => hedge (.inl (by rw [hv.left_eq, hn]; rfl))
    have hrn : r ≠ .nil := fun hn => hedge (.inr (by rw [hv.right_eq, hn]; rfl))
    have hlh : l.height ≤ fuel := by
      have := length_add_height_le c (.node p l r)
      simp only [BinaryTree.height] at this
      omega
    obtain ⟨w, d, a, hright, rfl, hd⟩ := rightmost_spec hl hln hlh
    rw [← hv.left_eq] at hright
    obtain ⟨m', T', stop, he', hrem⟩ :=
      removeInner_spec ⟨tr.root, tr.len - 1⟩ h.isTree hnd h.isAvl h.root hd hrn hfuel
    exact ⟨m', T', stop, by simpa [remove, he, hedge, hright] using he', hrem⟩

end Ordered

end AvlTree
end AuroraOs
