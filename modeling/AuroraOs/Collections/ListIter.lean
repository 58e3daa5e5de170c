import AuroraOs.Collections.ListRun

/-!
# Iterators and `append`

`Iter` and `IterMut` of `libutil/src/collections/linked_list.rs` walk from the first node on; a node
handed out may be taken off the list and put on another one before the walk goes on.  `append` joins
two lists.
-/

namespace AuroraOs

open DoublyLinked

namespace LinkedList

/-- `Iter`, and `IterMut` with the same code. -/
structure Iter where
  start : Ptr
  end_ : Ptr
  len : ℕ

/-- `LinkedList::iter` (and `iter_mut`). -/
def iter (l : LinkedList) : Iter := ⟨l.start, l.end_, l.len⟩

namespace Iter

/-- `Iter::next`: the link of the node is read before the node is handed out. -/
def next (m : NodeMem) (it : Iter) : Option (Option Ptr × Iter) :=
  if it.len = 0 then some (none, it)
  else do
    let out ← asRef it.start
    some (some out, { it with start := (m out).next, len := it.len - 1 })

theorem len_lt_of_next {m : NodeMem} {it it' : Iter} {node : Ptr}
    (h : it.next m = some (some node, it')) : it'.len < it.len := by
  unfold next at h
  split_ifs at h with h0
  · simp at h
  · obtain ⟨out, -, ho⟩ := Option.bind_eq_some_iff.1 h
    simp only [Option.some.injEq, Prod.mk.injEq] at ho
    rw [← ho.2]
    exact Nat.sub_one_lt h0

/-- The nodes that a walk over an unchanged memory yields. -/
def collect (m : NodeMem) (it : Iter) : Option (List Ptr) :=
  match _h : it.next m with
  | none => none
  | some (none, _) => some []
  | some (some node, it') => (collect m it').map (node :: ·)
termination_by it.len
decreasing_by exact len_lt_of_next _h

/-- The walk is about to visit the nodes `rest`. -/
structure At (it : Iter) (rest : List Ptr) : Prop where
  len_eq : it.len = rest.length
  start_eq : rest ≠ [] → it.start = first rest null

variable {m : NodeMem} {it : Iter} {node p n : Ptr} {rest : List Ptr}

theorem next_nil (h : it.At []) : it.next m = some (none, it) := if_pos h.len_eq

/-- One step of the walk. -/
theorem next_cons (h : it.At (node :: rest)) (hnull : node ≠ null)
    (hlink : rest ≠ [] → (m node).next = first rest null) :
    ∃ it', it.next m = some (some node, it') ∧ it'.At rest ∧ it'.end_ = it.end_ := by
  have hlen : it.len = rest.length + 1 := h.len_eq
  have hstart : it.start = node := h.start_eq (by simp)
  refine ⟨{ it with start := (m node).next, len := it.len - 1 }, ?_, ⟨?_, hlink⟩, rfl⟩
  · rw [next, if_neg (by omega), hstart, asRef_of_ne hnull]
    rfl
  · show it.len - 1 = rest.length
    omega

/-- A walk over a chain yields its nodes. -/
theorem collect_of_linked (h : it.At rest) (hnull : null ∉ rest) (hlink : Linked m p rest null) :
    it.collect m = some rest := by
  induction rest generalizing it p with
  | nil =>
    rw [collect]
    split <;> rename_i he <;> rw [next_nil h] at he <;> simp at he
  | cons x rest ih =>
    obtain ⟨-, hx, hrest⟩ := linked_cons.1 hlink
    have hne : x ≠ null := by
      rintro rfl
      exact hnull List.mem_cons_self
    obtain ⟨it', hnext, hat, -⟩ := next_cons h hne fun _ => hx
    rw [collect]
    split <;> rename_i he <;> rw [hnext] at he <;> simp only [Option.some.injEq, Prod.mk.injEq,
      reduceCtorEq, false_and] at he
    obtain ⟨rfl, rfl⟩ := he
    rw [ih hat (fun hmem => hnull (List.mem_cons_of_mem _ hmem)) hrest]
    rfl

end Iter

variable {m : NodeMem} {a b : LinkedList} {xs ys : List Ptr}

theorem Repr.iter_at (h : Repr m a xs) : a.iter.At xs := ⟨h.len_eq, h.start_eq⟩

/-- A walk over a list yields its nodes in order. -/
theorem Repr.collect_iter (h : Repr m a xs) : a.iter.collect m = some xs :=
  Iter.collect_of_linked h.iter_at h.not_null h.linked

/-! ### Taking nodes off while walking -/

section Divert

variable {ι : Type*} [DecidableEq ι]

/-- What a loop does with the node it was handed: leave it, or take it off list `i` and push it onto
another list. -/
def divert (i : ι) (s : Lists ι) (node : Ptr) : Option ι → Option (Lists ι)
  | none => some s
  | some j => do
      let (s, _) ← step s (.removeNode i node)
      let (s, _) ← step s (.push j node)
      some s

/-- A loop over list `i` that decides on each node when it is handed out.  The log has the nodes
handed out so far, with the decisions. -/
def iterate (i : ι) (choose : Lists ι → List (Ptr × Option ι) → Ptr → Option ι) (s : Lists ι)
    (log : List (Ptr × Option ι)) (it : Iter) : Option (Lists ι × List (Ptr × Option ι)) :=
  match _h : it.next s.mem with
  | none => none
  | some (none, _) => some (s, log)
  | some (some node, it') => do
      let dest := choose s log node
      let s ← divert i s node dest
      iterate i choose s (log ++ [(node, dest)]) it'
termination_by it.len
decreasing_by exact Iter.len_lt_of_next _h

/-- The nodes with a decision, in the order of the walk. -/
def decided (log : List (Ptr × Option ι)) (dest : Option ι) : List Ptr :=
  (log.filter fun e => decide (e.2 = dest)).map Prod.fst

/-- The sequences after the decisions of the log, while list `i` still has `rest` to visit. -/
def divided (seqs : ι → List Ptr) (i : ι) (log : List (Ptr × Option ι)) (rest : List Ptr) :
    ι → List Ptr :=
  fun j => if j = i then decided log none ++ rest else seqs j ++ decided log (some j)

variable {s s' : Lists ι} {seqs : ι → List Ptr} {i j : ι} {log : List (Ptr × Option ι)} {node : Ptr}
  {rest : List Ptr} {dest : Option ι}

@[simp] theorem decided_concat {dest' : Option ι} : decided (log ++ [(node, dest)]) dest' =
    decided log dest' ++ if dest = dest' then [node] else [] := by
  by_cases h : dest = dest' <;> simp [decided, h]

theorem mem_decided {p : Ptr} : p ∈ decided log dest ↔ (p, dest) ∈ log := by
  simp [decided]

theorem divided_keep :
    divided seqs i (log ++ [(node, none)]) rest = divided seqs i log (node :: rest) := by
  funext j
  by_cases hj : j = i <;> simp [divided, hj]

/-- Taking the node off and pushing it, on the sequences. -/
theorem divided_move (hj : j ≠ i) (hnode : node ∉ decided log none) :
    divided seqs i (log ++ [(node, some j)]) rest =
      (specStep (specStep (divided seqs i log (node :: rest)) (.removeNode i node)).1
        (.push j node)).1 := by
  have herase : (decided log none ++ node :: rest).erase node = decided log none ++ rest := by
    rw [List.erase_append_right _ hnode, List.erase_cons_head]
  funext k
  simp only [specStep, Function.update_apply]
  by_cases hk : k = i
  · subst hk
    simp [divided, hj.symm, herase]
  · by_cases hkj : k = j
    · subst hkj
      simp [divided, hk]
    · simp [divided, hk, hkj, Ne.symm hkj]

/-- Taking a node off list `i` writes to nodes of that list only. -/
theorem removeNode_frame {r : Option Ptr} {p : Ptr} (h : Inv s seqs) (hnode : node ∈ seqs i)
    (he : step s (.removeNode i node) = some (s', r)) (hp : p ∉ seqs i) : s'.mem p = s.mem p := by
  obtain ⟨as, bs, hxs, -⟩ := List.eq_append_cons_of_mem hnode
  obtain ⟨m', l', hstep, ho⟩ := removeNode_spec (hxs ▸ h.repr i)
  simp only [step, hstep, Lists.store, Option.some.injEq, Prod.mk.injEq] at he
  obtain ⟨rfl, -⟩ := he
  exact ho.frame p (hxs ▸ hp)

/-- Pushing a node writes to it and to nodes of the list only. -/
theorem push_frame {r : Option Ptr} {p : Ptr} (h : Inv s seqs) (hnode : Fresh seqs node)
    (he : step s (.push j node) = some (s', r)) (hp : p ≠ node) (hpj : p ∉ seqs j) :
    s'.mem p = s.mem p := by
  obtain ⟨m', l', hstep, ho⟩ := push_spec (h.repr j) hnode.1 (hnode.2 j)
  simp only [step, hstep, Option.map_some, Lists.store, Option.some.injEq, Prod.mk.injEq] at he
  obtain ⟨rfl, -⟩ := he
  exact ho.frame p (by simp [hp, hpj])

/-- The body of the loop: the node goes where the decision says, and the other nodes stay. -/
theorem divert_spec (h : Inv s (divided seqs i log (node :: rest))) (hdest : dest ≠ some i) :
    ∃ s', divert i s node dest = some s' ∧ Inv s' (divided seqs i (log ++ [(node, dest)]) rest) ∧
      ∀ p, p ∉ divided seqs i log (node :: rest) i →
        (∀ j, dest = some j → p ∉ divided seqs i log (node :: rest) j) → s'.mem p = s.mem p := by
  cases dest with
  | none => exact ⟨s, rfl, by rwa [divided_keep], fun _ _ _ => rfl⟩
  | some j =>
    have hj : j ≠ i := fun hj => hdest (congrArg some hj)
    have hi : divided seqs i log (node :: rest) i = decided log none ++ node :: rest := if_pos rfl
    have hnd : (decided log none ++ node :: rest).Nodup := hi ▸ (h.repr i).nodup
    have hnode : node ∉ decided log none := fun hmem =>
      (List.nodup_append.1 hnd).2.2 node hmem node List.mem_cons_self rfl
    have hmem : node ∈ divided seqs i log (node :: rest) i := by
      rw [hi]
      simp
    obtain ⟨s₁, he₁, h₁⟩ := step_refines h (.removeNode i node) hmem
    have hfresh : Fresh (specStep (divided seqs i log (node :: rest)) (.removeNode i node)).1
        node := by
      refine ⟨(h.repr i).ne_null hmem, fun k hk => ?_⟩
      by_cases hki : k = i
      · subst hki
        simp only [specStep, Function.update_self] at hk
        exact (h.repr k).nodup.not_mem_erase hk
      · simp only [specStep, Function.update_of_ne hki] at hk
        exact h.disj i k (Ne.symm hki) node hmem hk
    obtain ⟨s₂, he₂, h₂⟩ := step_refines h₁ (.push j node) hfresh
    refine ⟨s₂, by simp [divert, he₁, he₂], by rwa [divided_move hj hnode], fun p hp hpj => ?_⟩
    have hp' : p ∉ (specStep (divided seqs i log (node :: rest)) (.removeNode i node)).1 j := by
      simp only [specStep, Function.update_of_ne hj]
      exact hpj j rfl
    rw [push_frame h₁ hfresh he₂ (ne_of_mem_of_not_mem hmem hp).symm hp',
      removeNode_frame h hmem he₁ hp]

/-- The loop from any point of the walk on. -/
theorem iterate_run {choose : Lists ι → List (Ptr × Option ι) → Ptr → Option ι} {it : Iter}
    (hchoose : ∀ s log node, choose s log node ≠ some i) (hat : it.At rest)
    (h : Inv s (divided seqs i log rest)) (hlog : log.map Prod.fst ++ rest = seqs i) :
    ∃ s' log', iterate i choose s log it = some (s', log') ∧ log <+: log' ∧
      log'.map Prod.fst = seqs i ∧ Inv s' (divided seqs i log' []) ∧
      ∀ p, p ∉ seqs i → (∀ j, decided log' (some j) ≠ [] → p ∉ seqs j) → s'.mem p = s.mem p := by
  induction rest generalizing s log it with
  | nil =>
    refine ⟨s, log, ?_, List.prefix_rfl, by simpa using hlog, h, fun _ _ _ => rfl⟩
    rw [iterate]
    split <;> rename_i he <;> rw [Iter.next_nil hat] at he <;> simp at he
  | cons node rest ih =>
    have hi : divided seqs i log (node :: rest) i = decided log none ++ node :: rest := if_pos rfl
    have hlinked := hi ▸ (h.repr i).linked
    have hnext : (s.mem node).next = first rest null := (linked_append.1 hlinked).2.2.1
    have hmem : node ∈ divided seqs i log (node :: rest) i := by
      rw [hi]
      simp
    obtain ⟨it', hit, hat', -⟩ := Iter.next_cons hat ((h.repr i).ne_null hmem) fun _ => hnext
    set dest := choose s log node with hdest
    obtain ⟨s₁, he₁, h₁, hf₁⟩ := divert_spec h (hdest ▸ hchoose s log node)
    obtain ⟨s₂, log', he₂, hpre, hmap, h₂, hf₂⟩ := ih hat' h₁ (by simpa using hlog)
    refine ⟨s₂, log', ?_, (List.prefix_append _ _).trans hpre, hmap, h₂, fun p hp hpj => ?_⟩
    · rw [iterate]
      split <;> rename_i he <;> rw [hit] at he <;> simp only [Option.some.injEq, Prod.mk.injEq,
        reduceCtorEq, false_and] at he
      obtain ⟨rfl, rfl⟩ := he
      simp only [← hdest, he₁, Option.bind_eq_bind, Option.bind_some, he₂]
    · have hsub : ∀ dest, p ∉ decided log dest := fun dest hmem =>
        hp (hlog ▸ List.mem_append_left _ (List.mem_map_of_mem (mem_decided.1 hmem)))
      have hrest : p ∉ node :: rest := fun hmem => hp (hlog ▸ List.mem_append_right _ hmem)
      rw [hf₂ p hp hpj]
      refine hf₁ p (by simp only [hi, List.mem_append, hsub, hrest, or_self, not_false_eq_true])
        fun j hj => ?_
      have hne : decided log' (some j) ≠ [] :=
        List.ne_nil_of_mem (mem_decided.2 (hj ▸ hpre.subset List.mem_concat_self))
      have hji : j ≠ i := fun hji => hchoose s log node (hdest ▸ hji ▸ hj)
      simp only [divided, if_neg hji, List.mem_append, hpj j hne, hsub, or_self, not_false_eq_true]

/-- **A walk that loses nodes on the way** still visits the nodes that list `i` had at the start,
each once and in order.  Afterwards list `i` has the nodes that were left, in order, and every other
list what was pushed onto it.  Links of nodes that are neither on list `i` nor on a list that got a
node stay as they were. -/
theorem iterate_yields {choose : Lists ι → List (Ptr × Option ι) → Ptr → Option ι}
    (h : Inv s seqs) (hchoose : ∀ s log node, choose s log node ≠ some i) :
    ∃ s' log, iterate i choose s [] (s.list i).iter = some (s', log) ∧
      log.map Prod.fst = seqs i ∧ Repr s'.mem (s'.list i) (decided log none) ∧
      (∀ j, j ≠ i → Repr s'.mem (s'.list j) (seqs j ++ decided log (some j))) ∧
      ∀ p, p ∉ seqs i → (∀ j, decided log (some j) ≠ [] → p ∉ seqs j) → s'.mem p = s.mem p := by
  have hstart : divided seqs i [] (seqs i) = seqs := by
    funext j
    by_cases hj : j = i
    · subst hj
      simp [divided, decided]
    · simp [divided, decided, hj]
  have h₀ : Inv s (divided seqs i [] (seqs i)) := hstart.symm ▸ h
  obtain ⟨s', log, he, -, hmap, h', hframe⟩ := iterate_run hchoose (h.repr i).iter_at h₀ rfl
  refine ⟨s', log, he, hmap, ?_, fun j hj => ?_, hframe⟩
  · simpa [divided] using h'.repr i
  · simpa [divided, hj] using h'.repr j

end Divert

/-- A walk over three nodes that moves the first and the last to another list. -/
theorem iterate_yields_ends :
    ∃ s' log, iterate true (fun _ _ node => if node = 2 then none else some false)
        ⟨fun p => ⟨p - 1, if p = 3 then 0 else p + 1⟩, fun b => if b then ⟨1, 3, 3⟩ else new⟩ []
        ⟨1, 3, 3⟩ = some (s', log) ∧
      log.map Prod.fst = [1, 2, 3] ∧ Repr s'.mem (s'.list true) (decided log none) ∧
      (∀ j, j ≠ true → Repr s'.mem (s'.list j) ([] ++ decided log (some j))) ∧
      ∀ p, p ∉ [1, 2, 3] → (∀ j, decided log (some j) ≠ [] → p ∉ if j then [1, 2, 3] else []) →
        s'.mem p = ⟨p - 1, if p = 3 then 0 else p + 1⟩ := by
  have h : Inv (⟨fun p => ⟨p - 1, if p = 3 then 0 else p + 1⟩,
      fun b => if b then ⟨1, 3, 3⟩ else new⟩ : Lists Bool)
      (fun b => if b then [1, 2, 3] else []) := by
    refine ⟨fun b => ?_, fun b c hbc x hx hx' => ?_⟩
    · cases b
      · exact repr_new _
      · constructor <;> simp
    · cases b <;> cases c <;> simp_all
  have hchoose : ∀ (s : Lists Bool) (log : List (Ptr × Option Bool)) (node : Ptr),
      (fun _ _ node => if node = 2 then none else some false :
        Lists Bool → List (Ptr × Option Bool) → Ptr → Option Bool) s log node ≠ some true := by
    intro s log node
    simp only
    split <;> simp
  obtain ⟨s', log, he, hmap, hi, hj, hframe⟩ := iterate_yields h hchoose
  refine ⟨s', log, he, hmap, hi, fun j hne => ?_, hframe⟩
  have hr := hj j hne
  rwa [if_neg hne] at hr

/-! ### Appending -/

variable {m' : NodeMem} {a' b' : LinkedList}

/-- What `append` is for: one list has all the nodes of `zs`, for index walks and iterators too,
and the other list has none. -/
structure Concat (m : NodeMem) (a b : LinkedList) (zs : List Ptr) : Prop where
  repr : Repr m a zs
  get_eq : ∀ k, get m a k = some zs[k]?
  iter_eq : a.iter.collect m = some zs
  empty : Repr m b []

theorem Concat.of_repr (ha : Repr m a xs) (hb : Repr m b []) : Concat m a b xs :=
  ⟨ha, get_spec ha, ha.collect_iter, hb⟩

/-- When both lists have nodes, `append` joins the chains and keeps the length of the first. -/
theorem append_len (ha : Repr m a xs) (hb : Repr m b ys) (hxs : xs ≠ []) (hys : ys ≠ []) :
    ∃ m' a' b', append m a b = some (m', a', b') ∧ a'.len = xs.length := by
  have hea : a.end_ ≠ null := by
    rw [ha.end_eq hxs]
    exact ha.ne_null (last_mem null hxs)
  have hsb : b.start ≠ null := by
    rw [hb.start_eq hys]
    cases ys with
    | nil => exact absurd rfl hys
    | cons y ys => exact hb.ne_null (by simp)
  refine ⟨setPrev (setNext m a.end_ b.start) b.start a.end_, { a with end_ := b.end_ },
    ⟨null, null, 0⟩, ?_, ha.len_eq⟩
  rw [append, if_neg (by rw [hb.len_eq]; simpa using hys),
    if_neg (by rw [ha.len_eq]; simpa using hxs), asRef_of_ne hea]
  simp only [Option.bind_eq_bind, Option.bind_some, asRef_of_ne hsb]

/-- **`append` concatenates exactly when one of the lists is empty**: otherwise the length stays
that of the first list. -/
theorem append_concat_iff (ha : Repr m a xs) (hb : Repr m b ys) :
    (∃ m' a' b', append m a b = some (m', a', b') ∧ Concat m' a' b' (xs ++ ys)) ↔
      xs = [] ∨ ys = [] := by
  constructor
  · rintro ⟨m', a', b', he, hc⟩
    by_contra hne
    rw [not_or] at hne
    obtain ⟨m₁, a₁, b₁, he₁, hlen⟩ := append_len ha hb hne.1 hne.2
    rw [he, Option.some.injEq, Prod.mk.injEq, Prod.mk.injEq] at he₁
    have hsum : a'.len = xs.length + ys.length := by
      rw [hc.repr.len_eq, List.length_append]
    rw [he₁.2.1, hlen] at hsum
    exact hne.2 (List.eq_nil_of_length_eq_zero (by omega))
  · rintro hempty
    by_cases hys : ys = []
    · subst hys
      refine ⟨m, a, b, if_pos hb.len_eq, ?_⟩
      rw [List.append_nil]
      exact Concat.of_repr ha hb
    · obtain rfl : xs = [] := hempty.resolve_right hys
      refine ⟨m, ⟨b.start, b.end_, b.len⟩, ⟨null, null, 0⟩, ?_, Concat.of_repr hb (repr_new m)⟩
      have hlen : a.len = 0 := ha.len_eq
      rw [append, if_neg (by rw [hb.len_eq]; simpa using hys), if_pos hlen]

/-- Appending to the empty list. -/
theorem append_concat_iff_empty :
    (∃ m' a' b', append (fun _ => ⟨0, 0⟩) new ⟨2, 2, 1⟩ = some (m', a', b') ∧
      Concat m' a' b' ([] ++ [2])) ↔ ([] : List Ptr) = [] ∨ [2] = [] :=
  append_concat_iff (repr_new _) (by constructor <;> simp)

/-- Two lists of one node each: the result has length 1. -/
theorem append_loses_len :
    ¬ ∃ m' a' b', append (fun _ => ⟨0, 0⟩) ⟨1, 1, 1⟩ ⟨2, 2, 1⟩ = some (m', a', b') ∧
      Concat m' a' b' ([1] ++ [2]) := by
  rintro ⟨m', a', b', he, hc⟩
  simp only [append, asRef, null, one_ne_zero, if_false, Option.bind_eq_bind, Option.bind_some,
    OfNat.ofNat_ne_zero, Option.some.injEq, Prod.mk.injEq] at he
  have hlen := hc.repr.len_eq
  rw [← he.2.1] at hlen
  simp at hlen

end LinkedList
end AuroraOs
