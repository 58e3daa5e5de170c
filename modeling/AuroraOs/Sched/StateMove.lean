import AuroraOs.Sched.ThreadListInvariant

/-!
# Threads that change lists

`ThreadList::inner_state_move` of `kernel/src/sched/mod.rs`, between any two lists.  The loop looks the
first list up with the old state, and `insert_into` the second one with the state that the thread has by
then.
-/

namespace AuroraOs

open LinkedList

/-- The lists that are nodes of a tree, and may not be there. -/
def ListId.keyed : ListId → Bool
  | .join _ | .wait _ | .connWait _ | .futex _ => true
  | _ => false

/-- **The first node** of a list is taken off, and pushed on another list. -/
theorem LinkedList.popFront_push {ι : Type*} [DecidableEq ι] {L : Lists ι} {seqs : ι → List Ptr} {a b : ι}
    {p : Ptr} {ps : List Ptr} (h : LinkedList.Inv L seqs) (hab : a ≠ b) (hs : seqs a = p :: ps) :
    ∃ L₁ L₂, step L (.popFront a) = some (L₁, some p) ∧ step L₁ (.push b p) = some (L₂, some p) ∧
      LinkedList.Inv L₂ (Function.update (Function.update seqs a ps) b (seqs b ++ [p])) ∧
      (∀ i, i ≠ a → i ≠ b → L₂.list i = L.list i) ∧
      ∀ q, q ∉ seqs a → q ∉ seqs b → L₂.mem q = L.mem q := by
  have hp : p ∈ seqs a := by simp [hs]
  obtain ⟨m₁, l₁, hpop, ho₁⟩ := popFront_spec (hs ▸ h.repr a)
  have h₁ : LinkedList.Inv (L.store a (m₁, l₁, some p)).1 (Function.update seqs a ps) :=
    h.store ho₁ (hs ▸ h.own) (fun y hy => List.mem_cons_of_mem p hy) (some p)
  have hb : Function.update seqs a ps b = seqs b := Function.update_of_ne hab.symm _ _
  -- the node is in no list now
  have hfresh : Fresh (Function.update seqs a ps) p := by
    refine ⟨(h.repr a).ne_null hp, fun j => ?_⟩
    rcases eq_or_ne j a with rfl | hj
    · rw [Function.update_self]
      exact (List.nodup_cons.1 (hs ▸ (h.repr _).nodup)).1
    · rw [Function.update_of_ne hj]
      exact h.disj a j hj.symm p hp
  obtain ⟨m₂, l₂, hpush, ho₂⟩ := push_spec (h₁.repr b) hfresh.1 (hfresh.2 b)
  have h₂ := h₁.store (i := b) ho₂ (h₁.own_fresh hfresh) (by simp [or_comm]) (some p)
  rw [hb] at h₂
  have hstep₁ : step L (.popFront a) = some ((L.store a (m₁, l₁, some p)).1, some p) := by
    rw [step, hpop]
    rfl
  have hstep₂ : step (L.store a (m₁, l₁, some p)).1 (.push b p) =
      some (((L.store a (m₁, l₁, some p)).1.store b (m₂, l₂, some p)).1, some p) := by
    rw [step, hpush]
    rfl
  refine ⟨_, _, hstep₁, hstep₂, h₂, fun i hia hib => ?_, fun q hqa hqb => ?_⟩
  · exact (Function.update_of_ne hib _ _).trans (Function.update_of_ne hia _ _)
  · have hq₂ : q ∉ p :: Function.update seqs a ps b := by
      rw [hb, List.mem_cons]
      rintro (rfl | hq)
      · exact hqa hp
      · exact hqb hq
    exact (ho₂.frame q hq₂).trans (ho₁.frame q (hs ▸ hqa))

namespace ThreadList

variable {s s' s'' : ThreadList} {seqs seqs' seqs'' : ListId → List Ptr} {id a b : ListId} {p q : Ptr}
  {ps : List Ptr} {prid n : ℕ} {old new st : ThreadState}

/-- The list exists. -/
def Exists (s : ThreadList) (id : ListId) : Prop := id.keyed = true → s.nodes id = true

/-- On a processor that is up the lists that are no nodes exist. -/
theorem has_select_iff (hcpu : prid < s.cpus) :
    s.has (s.select prid st) = true ↔ s.Exists (s.select prid st) := by
  unfold Exists
  cases st <;> simp [select, has, ListId.keyed, hcpu]

/-- The first `n` threads of list `a` have gone to the end of list `b`, with the state of that list. -/
structure Moved (s s' : ThreadList) (seqs seqs' : ListId → List Ptr) (a b : ListId) (st : ThreadState)
    (n : ℕ) : Prop where
  lists : LinkedList.Inv s'.lists seqs'
  old : seqs' a = (seqs a).drop n
  new : seqs' b = seqs b ++ (seqs a).take n
  other : ∀ id, id ≠ a → id ≠ b → seqs' id = seqs id ∧ s'.lists.list id = s.lists.list id
  links : ∀ p, p ∉ seqs a → p ∉ seqs b → s'.lists.mem p = s.lists.mem p
  moved : ∀ p ∈ (seqs a).take n, s'.thread p = { s.thread p with state := st }
  rest : ∀ p, p ∉ (seqs a).take n → s'.thread p = s.thread p
  same : Same s s'

theorem Moved.zero (h : LinkedList.Inv s.lists seqs) : Moved s s seqs seqs a b st 0 where
  lists := h
  old := rfl
  new := by simp
  other _ _ _ := ⟨rfl, rfl⟩
  links _ _ _ := rfl
  moved _ hp := by simp at hp
  rest _ _ := rfl
  same := .refl

/-- **One thread** goes from the front of a list to the end of another one. -/
theorem moveOne (h : LinkedList.Inv s.lists seqs) (hab : a ≠ b) (hs : seqs a = p :: ps)
    (hb : s.select prid st = b) (hhas : s.has b = true) :
    ∃ s₁ s₂ seqs', s.onList (.popFront a) = some (s₁, some p) ∧
      (s₁.setState p st).insertInto prid p = some s₂ ∧ Moved s s₂ seqs seqs' a b st 1 := by
  obtain ⟨L₁, L₂, hpop, hpush, hinv, hlist, hlinks⟩ := popFront_push h hab hs
  have hget : (({ s with lists := L₁ } : ThreadList).setState p st).get prid
      ((({ s with lists := L₁ } : ThreadList).setState p st).thread p).state = some b := by
    rw [setState_state]
    have hsel : s.get prid st = some b := by
      rw [get, hb]
      exact if_pos hhas
    exact hsel
  refine ⟨{ s with lists := L₁ }, { s with lists := L₂, thread := (s.setState p st).thread }, _,
    by simp only [onList, hpop, Option.map_some], ?_, ⟨hinv, ?_, ?_, fun id ha hb => ⟨?_, hlist id ha hb⟩,
    hlinks, fun q hq => ?_, fun q hq => ?_, ⟨fun q => setState_tuid, rfl, rfl, rfl, rfl⟩⟩⟩
  · simp only [insertInto, hget, Option.bind_eq_bind, Option.bind_some]
    simp only [onList, ThreadList.setState, hpush, Option.map_some, Option.bind_some]
  · rw [Function.update_of_ne hab, Function.update_self, hs, List.drop_one, List.tail_cons]
  · rw [Function.update_self, hs, List.take_one, List.head?_cons, Option.toList_some]
  · rw [Function.update_of_ne hb, Function.update_of_ne ha]
  · obtain rfl : q = p := by simpa [hs] using hq
    exact Function.update_self _ _ _
  · exact Function.update_of_ne (by simpa [hs] using hq) _ _

/-- One thread, and then `n` threads. -/
theorem Moved.cons (h₁ : Moved s s' seqs seqs' a b st 1) (hn : Moved s' s'' seqs' seqs'' a b st n)
    (hab : a ≠ b) (hs : seqs a = p :: ps) : Moved s s'' seqs seqs'' a b st (n + 1) := by
  have hold : seqs' a = ps := by rw [h₁.old, hs, List.drop_one, List.tail_cons]
  have hnew : seqs' b = seqs b ++ [p] := by
    rw [h₁.new, hs, List.take_one, List.head?_cons, Option.toList_some]
  have htake : (seqs a).take (n + 1) = p :: ps.take n := by rw [hs, List.take_succ_cons]
  have hone : (seqs a).take 1 = [p] := by rw [hs, List.take_one, List.head?_cons, Option.toList_some]
  have hp : p ∉ ps := by
    rw [← hold]
    exact h₁.lists.disj b a hab.symm p (by simp [hnew])
  constructor
  case lists => exact hn.lists
  case old => rw [hn.old, hold, hs, List.drop_succ_cons]
  case new => rw [hn.new, hnew, hold, htake, List.append_assoc, List.singleton_append]
  case other =>
    intro id ha hb
    obtain ⟨h1, h2⟩ := h₁.other id ha hb
    obtain ⟨h3, h4⟩ := hn.other id ha hb
    exact ⟨h3.trans h1, h4.trans h2⟩
  case links =>
    intro q ha hb
    rw [hs, List.mem_cons, not_or] at ha
    rw [hn.links q (hold ▸ ha.2) (by simp [hnew, hb, ha.1]), h₁.links q (by simp [hs, ha]) hb]
  case moved =>
    intro q hq
    rw [htake, List.mem_cons] at hq
    rcases hq with rfl | hq
    · rw [hn.rest q fun h => hp (hold ▸ List.mem_of_mem_take h)]
      exact h₁.moved q (by simp [hone])
    · have hqp : q ≠ p := fun h => hp (h ▸ List.mem_of_mem_take hq)
      rw [hn.moved q (hold.symm ▸ hq), h₁.rest q (by simp [hone, hqp])]
  case rest =>
    intro q hq
    rw [htake, List.mem_cons, not_or] at hq
    rw [hn.rest q (hold.symm ▸ hq.2), h₁.rest q (by simp [hone, hq.1])]
  case same => exact h₁.same.trans hn.same

/-- **The loop** moves as many threads as are left to move, or as many as there are. -/
theorem moveFrom_moves (count left : ℕ) (h : LinkedList.Inv s.lists seqs) (hle : left ≤ count)
    (hab : s.select prid old ≠ s.select prid new) (ha : s.has (s.select prid old) = true)
    (hb : s.has (s.select prid new) = true) :
    ∃ s' seqs', moveFrom prid old new count left s =
        some (s', count - left + min left (seqs (s.select prid old)).length) ∧
      Moved s s' seqs seqs' (s.select prid old) (s.select prid new) new
        (min left (seqs (s.select prid old)).length) := by
  induction left generalizing s seqs with
  | zero => exact ⟨s, seqs, by simp [moveFrom], by simpa using Moved.zero h⟩
  | succ left ih =>
    unfold moveFrom
    simp only [get, ha, if_true, Option.bind_eq_bind, Option.bind_some]
    cases hs : seqs (s.select prid old) with
    | nil =>
      have hpop : s.onList (.popFront (s.select prid old)) = some (s, none) := by
        simp only [onList, step, popFront_nil (hs ▸ h.repr _), Option.map_some, Lists.store,
          Function.update_eq_self]
      rw [hpop]
      exact ⟨s, seqs, by simp, by simpa using Moved.zero h⟩
    | cons p ps =>
      obtain ⟨s₁, s₂, seqs₂, hpop, hins, h₁⟩ := moveOne h hab hs rfl hb
      have hsel : ∀ st, s₂.select prid st = s.select prid st := fun st => h₁.same.select
      have hlen : (seqs₂ (s.select prid old)).length = ps.length := by
        rw [h₁.old, hs, List.drop_one, List.tail_cons]
      obtain ⟨s', seqs', he, hn⟩ := ih h₁.lists (by omega) (by rwa [hsel, hsel])
        (by rwa [hsel, h₁.same.has]) (by rwa [hsel, h₁.same.has])
      rw [hsel, hlen] at he
      rw [hsel, hsel, hlen] at hn
      refine ⟨s', seqs', ?_, ?_⟩
      · simp only [hpop, Option.bind_some, hins, he, List.length_cons]
        congr 2
        omega
      · rw [List.length_cons, Nat.succ_min_succ]
        exact h₁.cons hn hab hs

/-- **`inner_state_move`** moves the first `count` threads of a list, or all of them, to the end of the other
list in their order, and returns their number; if a list does not exist it changes nothing. -/
theorem innerStateMove_moves (h : LinkedList.Inv s.lists seqs) (hcpu : prid < s.cpus)
    (hold : old ≠ .running) (hnew : new ≠ .running) (count : ℕ) :
    (s.Exists (s.select prid old) ∧ s.Exists (s.select prid new) →
      s.select prid old ≠ s.select prid new →
        ∃ s' seqs', s.innerStateMove prid old new count =
            some (s', min count (seqs (s.select prid old)).length) ∧
          Moved s s' seqs seqs' (s.select prid old) (s.select prid new) new
            (min count (seqs (s.select prid old)).length)) ∧
    (¬ (s.Exists (s.select prid old) ∧ s.Exists (s.select prid new)) →
      s.innerStateMove prid old new count = some (s, 0)) := by
  have hget : ∀ st, (s.get prid st).isNone = true ↔ ¬ s.Exists (s.select prid st) := by
    intro st
    rw [← has_select_iff hcpu, get]
    split_ifs with hhas <;> simp [hhas]
  rw [innerStateMove, if_neg (by tauto)]
  constructor
  · rintro ⟨ha, hb⟩ hab
    rw [if_neg (by rw [hget, hget]; tauto)]
    obtain ⟨s', seqs', he, hm⟩ := moveFrom_moves count count h le_rfl hab ((has_select_iff hcpu).2 ha)
      ((has_select_iff hcpu).2 hb)
    rw [Nat.sub_self, Nat.zero_add] at he
    exact ⟨s', seqs', he, hm⟩
  · intro hno
    exact if_pos (by rw [hget, hget]; tauto)

/-- Of two threads that wait for a futex, one is moved. -/
theorem innerStateMove_moves_two :
    ∃ s s' : ThreadList, ∃ seqs, s.innerStateMove 0 (.futexBlock 100) .ready 1 = some (s', 1) ∧
      LinkedList.Inv s'.lists seqs ∧ seqs (.futex 0) = [16] ∧ seqs .ready = [8] ∧
      (s'.thread 8).state = .ready ∧ (s'.thread 16).state = .futexBlock 100 := by
  have hnew : LinkedList.Inv (⟨fun _ => ⟨0, 0⟩, fun _ => .new⟩ : LinkedList.Lists ListId) (fun _ => []) :=
    ⟨fun _ => repr_new _, fun _ _ _ _ hx => absurd hx (by simp)⟩
  have hlegal : LegalRun (fun _ => []) [.push (ListId.futex 0) 8, .push (.futex 0) 16] := by
    refine ⟨⟨by decide, by simp⟩, ⟨by decide, fun id => ?_⟩, trivial⟩
    by_cases hid : id = .futex 0 <;> simp [specStep, hid]
  obtain ⟨L, -, h⟩ := run_refines hnew _ hlegal
  simp only [specRun, specStep, Function.update_self, Function.update_idem, List.nil_append] at h
  let s : ThreadList :=
    { lists := L, cpus := 1, nodes := fun _ => true, thread := fun _ => ⟨.futexBlock 100, false, ⟨1, 0⟩⟩
      alive := fun _ => true, fuid := fun _ => 0 }
  obtain ⟨s', seqs', he, hm⟩ := (@innerStateMove_moves s _ 0 (.futexBlock 100) .ready h Nat.one_pos
    (by simp) (by simp) 1).1 ⟨fun _ => rfl, fun _ => rfl⟩ (by simp [select])
  exact ⟨s, s', seqs', he, hm.lists, hm.old, hm.new, congrArg Thread.state (hm.moved 8 List.mem_cons_self),
    congrArg Thread.state (hm.rest 16 (by simp [s, select]))⟩

end ThreadList
end AuroraOs
