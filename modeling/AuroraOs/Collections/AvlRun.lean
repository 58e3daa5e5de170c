import AuroraOs.Collections.AvlMap

/-!
# Runs of tree operations

A machine of `insert` and `remove` on one `AvlTree`, against finite maps from keys to nodes.
`Legal` is the ownership discipline of `MemOwner`: an inserted node is not null and not in the tree.
What is said of a reached state is read off its memory: `shape` follows the child links from the
root.

* `step_refines`, `run_refines`: the tree is the map, operation by operation;
* `run_isMap`: after any run the tree answers as the map does;
* `run_balanced`: after any run balances and parent links are right, and the next upward loop ends
  at the root or where a height has not changed.
-/

namespace AuroraOs

open TreeZipper AvlShape TreeMem

namespace AvlTree

variable {K : Type}

/-- The shape below a pointer, read off the child links. -/
def shape (m : TreeMem K) : ℕ → Ptr → BinaryTree Ptr
  | 0, _ => .nil
  | fuel + 1, p =>
      if p = null then .nil else .node p (shape m fuel (m.left p)) (shape m fuel (m.right p))

theorem shape_eq {m : TreeMem K} {pr : Ptr} {t : BinaryTree Ptr} {fuel : ℕ} (ht : m.IsTree pr t)
    (hfuel : t.height ≤ fuel) : shape m fuel (rootPtr t) = t := by
  induction t generalizing pr fuel with
  | nil => cases fuel <;> simp [shape]
  | node p l r ihl ihr =>
    obtain ⟨hp, hl, hr⟩ := ht
    obtain ⟨fuel, rfl⟩ : ∃ k, fuel = k + 1 := ⟨fuel - 1, by simp at hfuel; omega⟩
    simp only [BinaryTree.height] at hfuel
    rw [rootPtr_node, shape, if_neg hp.ne_null, hp.left_eq, hp.right_eq, ihl hl (by omega),
      ihr hr (by omega)]

/-- A memory of nodes with a tree over it. -/
structure TreeState (K : Type) where
  mem : TreeMem K
  tree : AvlTree

/-- The shape of the tree. -/
def TreeState.shape (s : TreeState K) (fuel : ℕ) : BinaryTree Ptr :=
  AvlTree.shape s.mem fuel s.tree.root

/-- The nodes of the tree in order. -/
def TreeState.nodes (s : TreeState K) (fuel : ℕ) : List Ptr := inorder (s.shape fuel)

/-- The operations. -/
inductive TreeOp (K : Type)
  | insert (key : K) (v : Ptr)
  | remove (key : K)

/-- Their results. -/
inductive TreeOut
  | inserted (r : Except Ptr Ptr)
  | removed (r : Option Ptr)

/-- A node that may be inserted: not null and not in the tree. -/
def Fresh (abs : K → Option Ptr) (v : Ptr) : Prop := v ≠ null ∧ ∀ k, abs k ≠ some v

/-- The ownership discipline for one operation. -/
def Legal (abs : K → Option Ptr) : TreeOp K → Prop
  | .insert _ v => Fresh abs v
  | .remove _ => True

section Machine

variable [LinearOrder K]

/-- One operation, its result, and the node where its upward loop ended. -/
def step (fuel : ℕ) (s : TreeState K) : TreeOp K → Option (TreeState K × TreeOut × Option Ptr)
  | .insert key v =>
      (insert fuel s.mem s.tree key v).map fun r => (⟨r.1, r.2.1⟩, .inserted r.2.2.1, r.2.2.2)
  | .remove key =>
      (remove fuel s.mem s.tree key).map fun r => (⟨r.1, r.2.1⟩, .removed r.2.2.1, r.2.2.2)

/-- A run, with the results along the way. -/
def run (fuel : ℕ) (s : TreeState K) : List (TreeOp K) → Option (TreeState K × List TreeOut)
  | [] => some (s, [])
  | op :: ops => do
      let (s', out, _) ← step fuel s op
      let (s'', outs) ← run fuel s' ops
      some (s'', out :: outs)

/-- The operation on maps that a tree operation stands for. -/
def specStep (abs : K → Option Ptr) : TreeOp K → (K → Option Ptr) × TreeOut
  | .insert key v =>
      if abs key = none then (Function.update abs key (some v), .inserted (.ok v))
      else (abs, .inserted (.error v))
  | .remove key => (Function.update abs key none, .removed (abs key))

/-- A run on maps. -/
def specRun (abs : K → Option Ptr) : List (TreeOp K) → (K → Option Ptr) × List TreeOut
  | [] => (abs, [])
  | op :: ops =>
      let r := specStep abs op
      let r' := specRun r.1 ops
      (r'.1, r.2 :: r'.2)

/-- Every operation of the run is legal where it happens. -/
def LegalRun (abs : K → Option Ptr) : List (TreeOp K) → Prop
  | [] => True
  | op :: ops => Legal abs op ∧ LegalRun (specStep abs op).1 ops

/-- The tree has the shape `T`, and its nodes are those of the map. -/
structure Inv (s : TreeState K) (abs : K → Option Ptr) (T : BinaryTree Ptr) : Prop where
  repr : Repr s.mem s.tree T
  abs_iff : ∀ k p, abs k = some p ↔ p ∈ inorder T ∧ s.mem.key p = k

variable {s : TreeState K} {abs : K → Option Ptr} {T : BinaryTree Ptr} {fuel : ℕ}

theorem inv_new (m : TreeMem K) : Inv ⟨m, new⟩ (fun _ => none) .nil :=
  ⟨repr_new m, by simp⟩

theorem Inv.height_le (h : Inv s abs T) : T.height ≤ s.tree.len := by
  rw [h.repr.len, length_inorder]
  exact BinaryTree.height_le_numNodes T

theorem Inv.fresh (h : Inv s abs T) {v : Ptr} (hv : Fresh abs v) : v ∉ inorder T :=
  fun hvT => hv.2 _ ((h.abs_iff _ v).2 ⟨hvT, rfl⟩)

theorem Inv.eq_none (h : Inv s abs T) {k : K} :
    abs k = none ↔ ∀ x ∈ inorder T, s.mem.key x ≠ k := by
  constructor
  · intro hk x hx hxk
    rw [(h.abs_iff k x).2 ⟨hx, hxk⟩] at hk
    simp at hk
  · intro hk
    by_contra hne
    obtain ⟨p, hp⟩ := Option.ne_none_iff_exists'.1 hne
    obtain ⟨hpT, hpk⟩ := (h.abs_iff k p).1 hp
    exact hk p hpT hpk

/-! ### One operation -/

/-- What an operation leaves: the invariant for the new map, at most one more node, and where its
upward loop ended. -/
structure Stepped (s' : TreeState K) (abs' : K → Option Ptr) (len : ℕ) (T T' : BinaryTree Ptr)
    (stop : Option Ptr) : Prop where
  inv : Inv s' abs' T'
  len : s'.tree.len ≤ len + 1
  stops : Stops T T' stop

theorem insert_refines (h : Inv s abs T) {key : K} {v : Ptr} (hv : Fresh abs v)
    (hfuel : s.tree.len < fuel) :
    ∃ s' T' stop, step fuel s (.insert key v) = some (s', (specStep abs (.insert key v)).2, stop) ∧
      Stepped s' (specStep abs (.insert key v)).1 s.tree.len T T' stop := by
  have hvT := h.fresh hv
  have hfuel' := h.height_le.trans_lt hfuel
  by_cases hk : abs key = none
  · obtain ⟨m', tr', T', as, bs, stop, he, hr, hkey, hord, hord', hstop⟩ :=
      insert_spec h.repr hv.1 hvT (h.eq_none.1 hk) hfuel'
    refine ⟨⟨m', tr'⟩, T', stop, by simp [step, specStep, he, hk], ⟨⟨hr, ?_⟩, ?_, hstop⟩⟩
    · intro k p
      have hmem : p ∈ inorder T' ↔ p = v ∨ p ∈ inorder T := by
        rw [hord, hord']
        simp only [List.mem_append, List.mem_cons]
        tauto
      simp only [specStep, hk, if_pos, hmem, hkey]
      rcases eq_or_ne p v with rfl | hpv
      · rcases eq_or_ne k key with rfl | hkk
        · simp
        · simp [Function.update_of_ne hkk, hkk.symm, hv.2 k]
      · rw [Function.update_of_ne hpv]
        rcases eq_or_ne k key with rfl | hkk
        · have := h.eq_none.1 hk p
          simp [hpv, hpv.symm]
          tauto
        · simp [Function.update_of_ne hkk, h.abs_iff, hpv]
    · have h₁ := hr.len
      have h₂ := h.repr.len
      rw [hord'] at h₁
      rw [hord] at h₂
      simp only [List.length_append, List.length_cons] at h₁ h₂
      show tr'.len ≤ s.tree.len + 1
      omega
  · obtain ⟨p, hp⟩ := Option.ne_none_iff_exists'.1 hk
    obtain ⟨hpT, rfl⟩ := (h.abs_iff key p).1 hp
    refine ⟨⟨clearLinks s.mem v, s.tree⟩, T, none, ?_, ⟨?_, Nat.le_succ _, trivial⟩⟩
    · simp [step, specStep, insert_present h.repr hvT hpT hfuel', hk]
    · simp only [specStep, hk, if_neg, not_false_eq_true]
      exact ⟨h.repr.clearLinks hvT, h.abs_iff⟩

theorem remove_refines (h : Inv s abs T) {key : K} (hfuel : s.tree.len < fuel) :
    ∃ s' T' stop, step fuel s (.remove key) = some (s', (specStep abs (.remove key)).2, stop) ∧
      Stepped s' (specStep abs (.remove key)).1 s.tree.len T T' stop := by
  have hfuel' := h.height_le.trans_lt hfuel
  by_cases hk : abs key = none
  · refine ⟨s, T, none, ?_, ⟨?_, Nat.le_succ _, trivial⟩⟩
    · simp [step, specStep, remove_absent h.repr (h.eq_none.1 hk) hfuel'.le, hk]
    · have : Function.update abs key none = abs := by rw [← hk]; simp
      simpa [specStep, this] using h
  · obtain ⟨p, hp⟩ := Option.ne_none_iff_exists'.1 hk
    obtain ⟨hpT, rfl⟩ := (h.abs_iff key p).1 hp
    obtain ⟨m', T', stop, he, hr, hrem⟩ := remove_spec h.repr hpT hfuel'
    refine ⟨_, T', stop, by simp [step, specStep, he, hp]; rfl, ⟨⟨hr, ?_⟩, ?_, hrem.stops⟩⟩
    · intro k q
      rw [hrem.inorder_eq, h.repr.nodup.mem_erase_iff, hrem.key, and_assoc, ← h.abs_iff]
      rcases eq_or_ne k (s.mem.key p) with rfl | hkk
      · simp only [specStep, Function.update_self, hp, Option.some.injEq, ne_eq]
        constructor
        · simp
        · rintro ⟨hne, rfl⟩
          exact absurd rfl hne
      · simp only [specStep, Function.update_of_ne hkk]
        refine ⟨fun hq => ⟨?_, hq⟩, fun hq => hq.2⟩
        rintro rfl
        exact hkk ((h.abs_iff k q).1 hq).2.symm
    · show s.tree.len - 1 ≤ s.tree.len + 1
      omega

/-- **One operation** returns what the map operation returns and keeps the invariant. -/
theorem step_refines (fuel : ℕ) (h : Inv s abs T) (op : TreeOp K) (hlegal : Legal abs op)
    (hfuel : s.tree.len < fuel) :
    ∃ s' T' stop, step fuel s op = some (s', (specStep abs op).2, stop) ∧
      Stepped s' (specStep abs op).1 s.tree.len T T' stop := by
  cases op with
  | insert key v => exact insert_refines h hlegal hfuel
  | remove key => exact remove_refines h hfuel

/-- **A whole run** returns what the run on maps returns and keeps the invariant. -/
theorem run_refines (fuel : ℕ) (h : Inv s abs T) (ops : List (TreeOp K)) (hlegal : LegalRun abs ops)
    (hfuel : s.tree.len + ops.length ≤ fuel) :
    ∃ s' T', run fuel s ops = some (s', (specRun abs ops).2) ∧ Inv s' (specRun abs ops).1 T' ∧
      s'.tree.len ≤ s.tree.len + ops.length := by
  induction ops generalizing s abs T with
  | nil => exact ⟨s, T, rfl, h, le_rfl⟩
  | cons op ops ih =>
    rw [List.length_cons] at hfuel
    obtain ⟨s₁, T₁, stop, he₁, h₁⟩ := step_refines fuel h op hlegal.1 (by omega)
    have hlen := h₁.len
    obtain ⟨s₂, T₂, he₂, h₂, hlen₂⟩ := ih h₁.inv hlegal.2 (by omega)
    refine ⟨s₂, T₂, by simp [run, specRun, he₁, he₂], h₂, ?_⟩
    rw [List.length_cons]
    omega

/-! ### The tree as a map -/

/-- The state answers as the map does. -/
structure IsMap (fuel : ℕ) (s : TreeState K) (abs : K → Option Ptr) : Prop where
  /-- the in-order keys increase strictly -/
  sorted : ((s.nodes fuel).map s.mem.key).Pairwise (· < ·)
  /-- and are the keys of the map -/
  keys : ∀ k, k ∈ (s.nodes fuel).map s.mem.key ↔ abs k ≠ none
  get : ∀ k, get fuel s.mem s.tree k = some (abs k)
  getMut : ∀ k, getMut fuel s.mem s.tree k = some (abs k)
  /-- a node for a present key comes back, and the tree is as it was -/
  rejected : ∀ k v, abs k ≠ none → Fresh abs v →
    ∃ m', insert fuel s.mem s.tree k v = some (m', s.tree, .error v, none) ∧
      m'.key = s.mem.key ∧ shape m' fuel s.tree.root = s.shape fuel ∧
      ∀ x ∈ s.nodes fuel, m'.balance x = s.mem.balance x
  len : s.tree.len = ((s.nodes fuel).map s.mem.key).length

theorem Inv.shape_eq (h : Inv s abs T) (hfuel : s.tree.len ≤ fuel) : s.shape fuel = T := by
  unfold TreeState.shape
  rw [h.repr.root]
  exact AvlTree.shape_eq h.repr.isTree (h.height_le.trans hfuel)

theorem Inv.isMap (h : Inv s abs T) (hfuel : s.tree.len < fuel) : IsMap fuel s abs := by
  have hshape := h.shape_eq hfuel.le
  have hnodes : s.nodes fuel = inorder T := by rw [TreeState.nodes, hshape]
  have hget : ∀ k, AvlTree.get fuel s.mem s.tree k = some (abs k) ∧
      AvlTree.getMut fuel s.mem s.tree k = some (abs k) := by
    intro k
    obtain ⟨res, he, he', hres⟩ := get_spec k h.repr (h.height_le.trans hfuel.le)
    obtain rfl : res = abs k := by
      refine Option.ext fun p => ?_
      rw [hres p, h.abs_iff]
    exact ⟨he, he'⟩
  refine ⟨?_, fun k => ?_, fun k => (hget k).1, fun k => (hget k).2, fun k v hk hv => ?_, ?_⟩
  · rw [hnodes]
    exact List.pairwise_map.2 h.repr.sorted
  · rw [hnodes, List.mem_map, ne_eq, h.eq_none]
    push Not
    rfl
  · obtain ⟨p, hp⟩ := Option.ne_none_iff_exists'.1 hk
    obtain ⟨hpT, rfl⟩ := (h.abs_iff k p).1 hp
    have hvT := h.fresh hv
    have hr := h.repr.clearLinks hvT
    refine ⟨_, insert_present h.repr hvT hpT (h.height_le.trans_lt hfuel), rfl, ?_, ?_⟩
    · rw [hshape, h.repr.root]
      exact AvlTree.shape_eq hr.isTree (h.height_le.trans hfuel.le)
    · intro x hx
      refine (frame_clearLinks s.mem v).balance x ?_
      rw [List.mem_singleton]
      rintro rfl
      exact hvT (hnodes ▸ hx)
  · rw [hnodes, List.length_map, h.repr.len]

/-- **The tree is a finite map**: any legal run of insertions and removals on an empty tree goes
through, returns what the map operations return, and leaves a tree that answers as the map does. -/
theorem run_isMap (m : TreeMem K) (ops : List (TreeOp K)) (hlegal : LegalRun (fun _ => none) ops)
    (fuel : ℕ) (hfuel : ops.length < fuel) :
    ∃ s, run fuel ⟨m, new⟩ ops = some (s, (specRun (fun _ => none) ops).2) ∧
      IsMap fuel s (specRun (fun _ => none) ops).1 := by
  obtain ⟨s, T, he, h, hlen⟩ := run_refines fuel (inv_new m) ops hlegal
    (by simp [new]; omega)
  exact ⟨s, he, h.isMap (by simp [new] at hlen; omega)⟩

/-! ### Balances and links -/

/-- Balances are height differences of at most one, children point back to their parent, the root
has none. -/
structure IsBalanced (fuel : ℕ) (s : TreeState K) : Prop where
  balance_eq : ∀ x ∈ s.nodes fuel, s.mem.balance x =
    ((shape s.mem fuel (s.mem.right x)).height : ℤ) - (shape s.mem fuel (s.mem.left x)).height
  balance_mem : ∀ x ∈ s.nodes fuel, s.mem.balance x = -1 ∨ s.mem.balance x = 0 ∨
    s.mem.balance x = 1
  left_parent : ∀ x ∈ s.nodes fuel, s.mem.left x ≠ null → s.mem.parent (s.mem.left x) = x
  right_parent : ∀ x ∈ s.nodes fuel, s.mem.right x ≠ null → s.mem.parent (s.mem.right x) = x
  root_parent : s.tree.root ≠ null → s.mem.parent s.tree.root = null

theorem Inv.isBalanced (h : Inv s abs T) (hfuel : s.tree.len ≤ fuel) : IsBalanced fuel s := by
  have hnodes : s.nodes fuel = inorder T := by rw [TreeState.nodes, h.shape_eq hfuel]
  have hheight := h.height_le.trans hfuel
  have hnode : ∀ x ∈ inorder T, ∃ l r, s.mem.balance x = (r.height : ℤ) - l.height ∧
      |(r.height : ℤ) - l.height| ≤ 1 ∧ shape s.mem fuel (s.mem.left x) = l ∧
      shape s.mem fuel (s.mem.right x) = r := by
    intro x hx
    obtain ⟨c, l, r, rfl⟩ := exists_plug_of_mem hx
    obtain ⟨⟨hx, hl, hr⟩, -⟩ := isTree_plug.1 h.repr.isTree
    have hd := length_add_height_le c (.node x l r)
    simp only [BinaryTree.height] at hd
    refine ⟨l, r, hx.balance_eq, ((isAvl_plug _ _).1 h.repr.isAvl).1.1, ?_, ?_⟩
    · rw [hx.left_eq]
      exact AvlTree.shape_eq hl (by omega)
    · rw [hx.right_eq]
      exact AvlTree.shape_eq hr (by omega)
  refine ⟨?_, ?_, ?_, ?_, ?_⟩
  · rw [hnodes]
    intro x hx
    obtain ⟨l, r, hb, -, hl, hr⟩ := hnode x hx
    rw [hb, hl, hr]
  · rw [hnodes]
    intro x hx
    obtain ⟨l, r, hb, habs, -⟩ := hnode x hx
    rwa [hb, ← abs_le_one]
  · rw [hnodes]
    exact h.repr.isTree.left_link
  · rw [hnodes]
    exact h.repr.isTree.right_link
  · rw [h.repr.root]
    have ht := h.repr.isTree
    intro hn
    cases T with
    | nil => exact absurd rfl hn
    | node p l r => exact ht.1.parent_eq

/-- **Runs keep the tree balanced**: after any legal run on an empty tree every balance and parent
link is right; and the next operation, whatever it is, finds the children its rotations need and
ends its upward loop at the root or where the height of the subtree has not changed. -/
theorem run_balanced (m : TreeMem K) (ops : List (TreeOp K))
    (hlegal : LegalRun (fun _ => none) ops) (fuel : ℕ) (hfuel : ops.length < fuel) :
    ∃ s outs, run fuel ⟨m, new⟩ ops = some (s, outs) ∧ IsBalanced fuel s ∧
      ∀ op, Legal (specRun (fun _ => none) ops).1 op →
        ∃ s' out stop, step fuel s op = some (s', out, stop) ∧
          Stops (s.shape fuel) (s'.shape fuel) stop := by
  obtain ⟨s, T, he, h, hlen⟩ := run_refines fuel (inv_new m) ops hlegal
    (by simp [new]; omega)
  simp only [new, Nat.zero_add] at hlen
  refine ⟨s, _, he, h.isBalanced (by omega), fun op hop => ?_⟩
  obtain ⟨s', T', stop, he', h'⟩ := step_refines fuel h op hop (by omega)
  have hlen' := h'.len
  refine ⟨s', _, stop, he', ?_⟩
  rw [h.shape_eq (by omega), h'.inv.shape_eq (by omega)]
  exact h'.stops

end Machine

/-- Insertions with a double rotation, one of them rejected, and two removals. -/
def sampleOps : List (TreeOp ℕ) :=
  [.insert 5 1, .insert 3 2, .insert 4 3, .insert 3 4, .insert 7 4, .remove 4, .remove 6]

theorem legalRun_sampleOps : LegalRun (fun _ => none) sampleOps := by
  simp only [sampleOps, LegalRun, Legal, Fresh, specStep]
  simp [Function.update_apply]
  constructor <;> intro k <;> split_ifs <;> simp

/-- A memory of unlinked nodes. -/
def sampleMem : TreeMem ℕ := ⟨fun _ => null, fun _ => null, fun _ => null, fun _ => 0, fun _ => 0⟩

/-- The sample run as a run on a map. -/
theorem run_isMap_sample :
    ∃ s, run 8 ⟨sampleMem, new⟩ sampleOps = some (s, [.inserted (.ok 1), .inserted (.ok 2),
        .inserted (.ok 3), .inserted (.error 4), .inserted (.ok 4), .removed (some 3),
        .removed none]) ∧
      IsMap 8 s (specRun (fun _ => none) sampleOps).1 := by
  obtain ⟨s, he, h⟩ := run_isMap sampleMem sampleOps legalRun_sampleOps 8 (by decide)
  refine ⟨s, ?_, h⟩
  rw [he]
  simp [specRun, specStep, sampleOps]

/-- The sample run keeps the tree balanced. -/
theorem run_balanced_sample :
    ∃ s outs, run 8 ⟨sampleMem, new⟩ sampleOps = some (s, outs) ∧ IsBalanced 8 s ∧
      ∀ op, Legal (specRun (fun _ => none) sampleOps).1 op →
        ∃ s' out stop, step 8 s op = some (s', out, stop) ∧
          Stops (s.shape 8) (s'.shape 8) stop :=
  run_balanced sampleMem sampleOps legalRun_sampleOps 8 (by decide)

end AvlTree
end AuroraOs
