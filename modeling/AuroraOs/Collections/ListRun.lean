import AuroraOs.Collections.LinkedList

/-!
# Runs of list operations

A machine with any number of `LinkedList` values over one memory of nodes, against sequences of
nodes with the corresponding list operations.  `Legal` is the ownership discipline of the source's
types: a node handed over by value (`MemOwner`) is not null and in no list, a node passed by
reference belongs to the list it is used with.

`step_refines` is one operation, `run_represents` a whole run: no operation panics, every returned
node is the one the sequence operation returns, and every list value represents its sequence.
-/

namespace AuroraOs

open DoublyLinked

namespace LinkedList

/-- The operations on the list named `i`. -/
inductive ListOp (ι : Type*)
  | push (i : ι) (val : Ptr)
  | pop (i : ι)
  | pushFront (i : ι) (val : Ptr)
  | popFront (i : ι)
  | insert (i : ι) (index : ℕ) (val : Ptr)
  | remove (i : ι) (index : ℕ)
  | insertBefore (i : ι) (newNode node : Ptr)
  | insertAfter (i : ι) (newNode node : Ptr)
  | removeNode (i : ι) (node : Ptr)
  | updateNode (i : ι) (old new : Ptr)

/-- A memory of nodes with the list values over it. -/
structure Lists (ι : Type*) where
  mem : NodeMem
  list : ι → LinkedList

variable {ι : Type*}

/-- A node that may be handed to a list: not null and in no list. -/
def Fresh (seqs : ι → List Ptr) (v : Ptr) : Prop := v ≠ null ∧ ∀ j, v ∉ seqs j

/-- The ownership discipline for one operation. -/
def Legal (seqs : ι → List Ptr) : ListOp ι → Prop
  | .push _ v | .pushFront _ v | .insert _ _ v => Fresh seqs v
  | .pop _ | .popFront _ | .remove _ _ => True
  | .insertBefore i v node | .insertAfter i v node => node ∈ seqs i ∧ Fresh seqs v
  | .removeNode i node => node ∈ seqs i
  | .updateNode i old new => old ∈ seqs i ∧ Fresh seqs new

/-- Every list value represents its sequence, and no node is in two lists. -/
structure Inv (s : Lists ι) (seqs : ι → List Ptr) : Prop where
  repr : ∀ i, Repr s.mem (s.list i) (seqs i)
  disj : ∀ i j, i ≠ j → ∀ x ∈ seqs i, x ∉ seqs j

variable {s s' : Lists ι} {seqs : ι → List Ptr} {i : ι}

theorem Inv.own (h : Inv s seqs) : ∀ x ∈ seqs i, ∀ j, j ≠ i → x ∉ seqs j :=
  fun x hx j hj => h.disj i j hj.symm x hx

theorem Inv.own_fresh (h : Inv s seqs) {v : Ptr} (hv : Fresh seqs v) :
    ∀ x ∈ v :: seqs i, ∀ j, j ≠ i → x ∉ seqs j := by
  intro x hx j hj
  rcases List.mem_cons.1 hx with rfl | hx
  · exact hv.2 j
  · exact h.own x hx j hj

theorem idxOf_cut {as bs : List Ptr} {node : Ptr} (h : node ∉ as) :
    (as ++ node :: bs).idxOf node = as.length := by
  rw [List.idxOf_append_of_notMem h]
  simp

section Machine

variable [DecidableEq ι]

/-- Store the outcome of an operation on list `i`. -/
def Lists.store (s : Lists ι) (i : ι) (r : NodeMem × LinkedList × Option Ptr) :
    Lists ι × Option Ptr :=
  (⟨r.1, Function.update s.list i r.2.1⟩, r.2.2)

/-- One operation; the second component is the node it returns, if any. -/
def step (s : Lists ι) : ListOp ι → Option (Lists ι × Option Ptr)
  | .push i v => (push s.mem (s.list i) v).map fun r => s.store i (r.1, r.2.1, some r.2.2)
  | .pop i => (pop s.mem (s.list i)).map (s.store i)
  | .pushFront i v => (pushFront s.mem (s.list i) v).map fun r => s.store i (r.1, r.2.1, some r.2.2)
  | .popFront i => (popFront s.mem (s.list i)).map (s.store i)
  | .insert i k v => (insert s.mem (s.list i) k v).map (s.store i)
  | .remove i k => (remove s.mem (s.list i) k).map (s.store i)
  | .insertBefore i v node =>
      (insertBefore s.mem (s.list i) v node).map fun r => s.store i (r.1, r.2.1, some r.2.2)
  | .insertAfter i v node =>
      (insertAfter s.mem (s.list i) v node).map fun r => s.store i (r.1, r.2.1, some r.2.2)
  | .removeNode i node =>
      let r := removeNode s.mem (s.list i) node
      some (s.store i (r.1, r.2.1, some r.2.2))
  | .updateNode i old new =>
      let r := updateNode s.mem (s.list i) old new
      some (s.store i (r.1, r.2, none))

/-- A run of operations, with the nodes returned along the way. -/
def run (s : Lists ι) : List (ListOp ι) → Option (Lists ι × List (Option Ptr))
  | [] => some (s, [])
  | op :: ops => do
      let (s', out) ← step s op
      let (s'', outs) ← run s' ops
      some (s'', out :: outs)

/-! ### The sequences -/

/-- The operation on sequences that a list operation stands for. -/
def specStep (seqs : ι → List Ptr) : ListOp ι → (ι → List Ptr) × Option Ptr
  | .push i v => (Function.update seqs i (seqs i ++ [v]), some v)
  | .pop i => (Function.update seqs i (seqs i).dropLast, (seqs i).getLast?)
  | .pushFront i v => (Function.update seqs i (v :: seqs i), some v)
  | .popFront i => (Function.update seqs i (seqs i).tail, (seqs i).head?)
  | .insert i k v =>
      if k ≤ (seqs i).length then (Function.update seqs i ((seqs i).insertIdx k v), some v)
      else (seqs, none)
  | .remove i k => (Function.update seqs i ((seqs i).eraseIdx k), (seqs i)[k]?)
  | .insertBefore i v node =>
      (Function.update seqs i ((seqs i).insertIdx ((seqs i).idxOf node) v), some v)
  | .insertAfter i v node =>
      (Function.update seqs i ((seqs i).insertIdx ((seqs i).idxOf node + 1) v), some v)
  | .removeNode i node => (Function.update seqs i ((seqs i).erase node), some node)
  | .updateNode i old new =>
      (Function.update seqs i ((seqs i).set ((seqs i).idxOf old) new), none)

/-- A run on sequences. -/
def specRun (seqs : ι → List Ptr) : List (ListOp ι) → (ι → List Ptr) × List (Option Ptr)
  | [] => (seqs, [])
  | op :: ops =>
      let r := specStep seqs op
      let r' := specRun r.1 ops
      (r'.1, r.2 :: r'.2)

/-- Every operation of the run is legal where it happens. -/
def LegalRun (seqs : ι → List Ptr) : List (ListOp ι) → Prop
  | [] => True
  | op :: ops => Legal seqs op ∧ LegalRun (specStep seqs op).1 ops

/-! ### One operation -/

/-- An operation on list `i` that touches its own nodes and free ones only keeps the invariant. -/
theorem Inv.store (h : Inv s seqs) {m' : NodeMem} {l' : LinkedList} {ys touched : List Ptr}
    (ho : Outcome s.mem m' l' ys touched) (htouched : ∀ x ∈ touched, ∀ j, j ≠ i → x ∉ seqs j)
    (hys : ∀ y ∈ ys, y ∈ touched) (out : Option Ptr) :
    Inv (s.store i (m', l', out)).1 (Function.update seqs i ys) := by
  refine ⟨fun j => ?_, fun j k hjk x hx hx' => ?_⟩
  · rcases eq_or_ne j i with rfl | hj
    · simpa [Lists.store] using ho.repr
    · simp only [Lists.store, Function.update_of_ne hj]
      exact (h.repr j).congr fun x hx => ho.frame x fun hx' => htouched x hx' j hj hx
  · rcases eq_or_ne j i with rfl | hj
    · rw [Function.update_self] at hx
      rw [Function.update_of_ne hjk.symm] at hx'
      exact htouched x (hys x hx) k hjk.symm hx'
    · rw [Function.update_of_ne hj] at hx
      rcases eq_or_ne k i with rfl | hk
      · rw [Function.update_self] at hx'
        exact htouched x (hys x hx') j hj hx
      · rw [Function.update_of_ne hk] at hx'
        exact h.disj j k hjk x hx hx'

/-- What an operation does to the lists: it writes to the nodes that are in them before or after it,
and to no other. -/
structure Stepped (s : Lists ι) (seqs : ι → List Ptr) (s' : Lists ι) (seqs' : ι → List Ptr) :
    Prop where
  inv : Inv s' seqs'
  frame : ∀ p, (∀ j, p ∉ seqs j) → (∀ j, p ∉ seqs' j) → s'.mem p = s.mem p

/-- A list that is written back unchanged. -/
theorem Inv.store_self (h : Inv s seqs) (out : Option Ptr) :
    Stepped s seqs (s.store i (s.mem, s.list i, out)).1 seqs :=
  ⟨by simpa [Lists.store] using h, fun _ _ _ => rfl⟩

/-- An operation that touches the nodes of one list before and after it. -/
theorem Inv.store_stepped (h : Inv s seqs) {m' : NodeMem} {l' : LinkedList}
    {ys touched : List Ptr} (ho : Outcome s.mem m' l' ys touched)
    (htouched : ∀ x ∈ touched, ∀ j, j ≠ i → x ∉ seqs j) (hys : ∀ y ∈ ys, y ∈ touched)
    (hsub : ∀ x ∈ touched, x ∈ seqs i ∨ x ∈ ys) (out : Option Ptr) :
    Stepped s seqs (s.store i (m', l', out)).1 (Function.update seqs i ys) := by
  refine ⟨h.store ho htouched hys out, fun p hp hp' => ?_⟩
  refine ho.frame p fun hin => (hsub p hin).elim (hp i) fun hmem => hp' i ?_
  rwa [Function.update_self]

/-- **One operation**: it does not panic, returns what the sequence operation returns, keeps the
invariant and leaves all other nodes alone. -/
theorem step_stepped (h : Inv s seqs) (op : ListOp ι) (hlegal : Legal seqs op) :
    ∃ s', step s op = some (s', (specStep seqs op).2) ∧
      Stepped s seqs s' (specStep seqs op).1 := by
  cases op with
  | push i v =>
    obtain ⟨m', l', he, ho⟩ := push_spec (h.repr i) hlegal.1 (hlegal.2 i)
    exact ⟨_, by simp only [step, he]; rfl,
      h.store_stepped ho (h.own_fresh hlegal) (by simp [or_comm]) (by simp; tauto) _⟩
  | pushFront i v =>
    obtain ⟨m', l', he, ho⟩ := pushFront_spec (h.repr i) hlegal.1 (hlegal.2 i)
    exact ⟨_, by simp only [step, he]; rfl,
      h.store_stepped ho (h.own_fresh hlegal) (by simp) (by simp; tauto) _⟩
  | pop i =>
    rcases List.eq_nil_or_concat' (seqs i) with hnil | ⟨xs, e, hxs⟩
    · have he := pop_nil (hnil ▸ h.repr i)
      refine ⟨_, by simp only [step, he, specStep, hnil]; rfl, ?_⟩
      have : Function.update seqs i [] = seqs := by rw [← hnil]; simp
      simpa [specStep, hnil, this, Lists.store] using h.store_self (i := i) none
    · obtain ⟨m', l', he, ho⟩ := pop_spec (hxs ▸ h.repr i)
      refine ⟨_, by simp only [step, he, specStep, hxs, List.getLast?_concat]; rfl, ?_⟩
      simpa [specStep, hxs, Lists.store] using h.store_stepped ho (hxs ▸ h.own)
        (by simp +contextual) (fun x hx => .inl (hxs ▸ hx)) (some e)
  | popFront i =>
    cases hxs : seqs i with
    | nil =>
      have he := popFront_nil (hxs ▸ h.repr i)
      refine ⟨_, by simp only [step, he, specStep, hxs]; rfl, ?_⟩
      have : Function.update seqs i [] = seqs := by rw [← hxs]; simp
      simpa [specStep, hxs, this, Lists.store] using h.store_self (i := i) none
    | cons x xs =>
      obtain ⟨m', l', he, ho⟩ := popFront_spec (hxs ▸ h.repr i)
      refine ⟨_, by simp only [step, he, specStep, hxs, List.head?_cons]; rfl, ?_⟩
      simpa [specStep, hxs, Lists.store] using h.store_stepped ho (hxs ▸ h.own)
        (by simp +contextual) (fun x hx => .inl (hxs ▸ hx)) (some x)
  | insert i k v =>
    by_cases hk : k ≤ (seqs i).length
    · obtain ⟨m', l', he, ho⟩ := insert_spec (h.repr i) hlegal.1 (hlegal.2 i) hk
      refine ⟨_, by simp only [step, he, specStep, if_pos hk]; rfl, ?_⟩
      simp only [specStep, if_pos hk]
      exact h.store_stepped ho (h.own_fresh hlegal)
        (fun y hy => by simpa using List.eq_or_mem_of_mem_insertIdx hy)
        (by simp [List.mem_insertIdx hk]; tauto) (some v)
    · have he := insert_past_end (h.repr i) v (by omega : (seqs i).length < k)
      refine ⟨_, by simp only [step, he, specStep, if_neg hk]; rfl, ?_⟩
      simp only [specStep, if_neg hk]
      exact h.store_self none
  | remove i k =>
    by_cases hk : k < (seqs i).length
    · obtain ⟨m', l', he, ho⟩ := remove_spec (h.repr i) hk
      refine ⟨_, by simp only [step, he, specStep, List.getElem?_eq_getElem hk]; rfl, ?_⟩
      exact h.store_stepped ho h.own (fun y hy => List.mem_of_mem_eraseIdx hy)
        (fun x hx => .inl hx) _
    · have he := remove_past_end (h.repr i) (by omega : (seqs i).length ≤ k)
      have hnone : (seqs i)[k]? = none := List.getElem?_eq_none (by omega)
      refine ⟨_, by simp only [step, he, specStep, hnone]; rfl, ?_⟩
      have : (seqs i).eraseIdx k = seqs i := List.eraseIdx_of_length_le (by omega)
      simpa [specStep, this, Lists.store] using h.store_self (i := i) none
  | insertBefore i v node =>
    obtain ⟨as, bs, hxs, hnode⟩ := List.eq_append_cons_of_mem hlegal.1
    obtain ⟨m', l', he, ho⟩ :=
      insertBefore_spec (hxs ▸ h.repr i) hlegal.2.1 (hxs ▸ hlegal.2.2 i)
    refine ⟨_, by simp only [step, he, specStep]; rfl, ?_⟩
    simp only [specStep, hxs, idxOf_cut hnode, insertIdx_length]
    exact h.store_stepped ho (hxs ▸ h.own_fresh hlegal.2) (by simp; tauto)
      (by rw [hxs]; simp; tauto) (some v)
  | insertAfter i v node =>
    obtain ⟨as, bs, hxs, hnode⟩ := List.eq_append_cons_of_mem hlegal.1
    obtain ⟨m', l', he, ho⟩ :=
      insertAfter_spec (hxs ▸ h.repr i) hlegal.2.1 (hxs ▸ hlegal.2.2 i)
    refine ⟨_, by simp only [step, he, specStep]; rfl, ?_⟩
    have := insertIdx_length (as ++ [node]) bs v
    simp only [List.length_append, List.length_singleton, List.append_assoc,
      List.singleton_append] at this
    simp only [specStep, hxs, idxOf_cut hnode, this]
    exact h.store_stepped ho (hxs ▸ h.own_fresh hlegal.2) (by simp; tauto)
      (by rw [hxs]; simp; tauto) (some v)
  | removeNode i node =>
    obtain ⟨as, bs, hxs, hnode⟩ := List.eq_append_cons_of_mem hlegal
    obtain ⟨m', l', he, ho⟩ := removeNode_spec (hxs ▸ h.repr i)
    refine ⟨_, by simp only [step, he, specStep]; rfl, ?_⟩
    simp only [specStep, hxs, List.erase_append_right _ hnode, List.erase_cons_head]
    exact h.store_stepped ho (hxs ▸ h.own) (by simp; tauto) (fun x hx => .inl (hxs ▸ hx))
      (some node)
  | updateNode i old new =>
    obtain ⟨as, bs, hxs, hnode⟩ := List.eq_append_cons_of_mem hlegal.1
    obtain ⟨m', l', he, ho⟩ := updateNode_spec (hxs ▸ h.repr i) hlegal.2.1 (hxs ▸ hlegal.2.2 i)
    refine ⟨_, by simp only [step, he, specStep]; rfl, ?_⟩
    simp only [specStep, hxs, idxOf_cut hnode, List.set_append_right _ _ le_rfl, Nat.sub_self,
      List.set_cons_zero]
    exact h.store_stepped ho (hxs ▸ h.own_fresh hlegal.2) (by simp; tauto)
      (by rw [hxs]; simp; tauto) none

/-- **Refinement**: an operation is the operation on sequences. -/
theorem step_refines (h : Inv s seqs) (op : ListOp ι) (hlegal : Legal seqs op) :
    ∃ s', step s op = some (s', (specStep seqs op).2) ∧ Inv s' (specStep seqs op).1 := by
  obtain ⟨s', he, hs⟩ := step_stepped h op hlegal
  exact ⟨s', he, hs.inv⟩

/-- **Frame**: an operation leaves alone the nodes that are in no list before or after it. -/
theorem step_frame {op : ListOp ι} {r : Option Ptr} (h : Inv s seqs)
    (hlegal : Legal seqs op) (he : step s op = some (s', r)) {p : Ptr} (hp : ∀ j, p ∉ seqs j)
    (hp' : ∀ j, p ∉ (specStep seqs op).1 j) : s'.mem p = s.mem p := by
  obtain ⟨s₁, he₁, hs⟩ := step_stepped h op hlegal
  obtain ⟨rfl, -⟩ := Prod.mk.inj (Option.some.inj (he.symm.trans he₁))
  exact hs.frame p hp hp'

/-- **A whole run** keeps the invariant and returns what the run on sequences returns. -/
theorem run_refines (h : Inv s seqs) (ops : List (ListOp ι)) (hlegal : LegalRun seqs ops) :
    ∃ s', run s ops = some (s', (specRun seqs ops).2) ∧ Inv s' (specRun seqs ops).1 := by
  induction ops generalizing s seqs with
  | nil => exact ⟨s, rfl, h⟩
  | cons op ops ih =>
    obtain ⟨s₁, he₁, h₁⟩ := step_refines h op hlegal.1
    obtain ⟨s₂, he₂, h₂⟩ := ih h₁ hlegal.2
    exact ⟨s₂, by simp [run, specRun, he₁, he₂], h₂⟩

/-- **Runs represent sequences**: over any memory, any legal run of operations on any number of
initially empty lists goes through, returns the designated nodes, and leaves every list value
representing the sequence obtained by the corresponding sequence operations. -/
theorem run_represents (m : NodeMem) (ops : List (ListOp ι))
    (hlegal : LegalRun (fun _ => []) ops) :
    ∃ s, run ⟨m, fun _ => new⟩ ops = some (s, (specRun (fun _ => []) ops).2) ∧
      ∀ i, Represents s.mem (s.list i) ((specRun (fun _ => []) ops).1 i) := by
  have h₀ : Inv (⟨m, fun _ => new⟩ : Lists ι) (fun _ => []) :=
    ⟨fun _ => repr_new m, fun _ _ _ _ hx => absurd hx (by simp)⟩
  obtain ⟨s, he, h⟩ := run_refines h₀ ops hlegal
  exact ⟨s, he, fun i => (h.repr i).represents⟩

end Machine

/-- A run over two lists that moves a node from one to the other. -/
theorem run_represents_move :
    ∃ s, run ⟨fun _ => ⟨7, 7⟩, fun _ : Bool => new⟩
        [.push true 1, .push true 2, .insertAfter true 3 1, .pushFront false 4, .popFront true,
          .insert false 1 1, .updateNode true 2 5, .insertBefore true 2 5, .remove true 1,
          .removeNode true 5, .pop false]
      = some (s, [some 1, some 2, some 3, some 4, some 1, some 1, none, some 2, some 2, some 5,
          some 1]) ∧
      ∀ i, Represents s.mem (s.list i) (if i then [3] else [4]) := by
  have h := run_represents (ι := Bool) (fun _ => ⟨7, 7⟩)
    [.push true 1, .push true 2, .insertAfter true 3 1, .pushFront false 4, .popFront true,
      .insert false 1 1, .updateNode true 2 5, .insertBefore true 2 5, .remove true 1,
      .removeNode true 5, .pop false]
    (by simp [LegalRun, Legal, Fresh, specStep])
  obtain ⟨s, he, hr⟩ := h
  exact ⟨s, he, fun i => by cases i <;> exact hr _⟩

end LinkedList
end AuroraOs
