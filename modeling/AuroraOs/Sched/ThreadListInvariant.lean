import AuroraOs.Lib.Machine
import AuroraOs.Sched.ThreadList

/-!
# Where the threads are

`Inv gone s seqs hand threads`: the lists hold `seqs`, every thread is on one of them or in hand, a
thread off the running lists is on the list that its state names, and every processor runs one
thread, whose state names a list that is there.  Nobody is on the join list of a thread that is
gone, and that list need not be there.
-/

namespace AuroraOs

open DoublyLinked LinkedList Machine

/-- The lists that no state of a thread on them names. -/
def ListId.free : ListId → Bool
  | .running _ | .cleaner => true
  | _ => false

/-- The state that `schedule` leaves a thread with. -/
def Thread.offState (t : Thread) : ThreadState :=
  if t.state = .running then t.defaultState else t.state

namespace ThreadList

variable {s s' : ThreadList} {seqs : ListId → List Ptr} {hand threads l : List Ptr} {id : ListId}
  {p q : Ptr} {prid : ℕ} {st : ThreadState} {gone : Tuid → Prop}

/-- The lists hold `seqs`, and the threads in hand are on none of them. -/
structure Core (s : ThreadList) (seqs : ListId → List Ptr) (hand threads : List Ptr) : Prop where
  lists : LinkedList.Inv s.lists seqs
  fresh : ∀ p ∈ hand, Fresh seqs p
  nodup : hand.Nodup
  mem : ∀ p, p ∈ threads ↔ p ∈ hand ∨ ∃ id, p ∈ seqs id
  there : ∀ id, ∀ p ∈ seqs id, s.has id = true
  state : ∀ id, ∀ p ∈ seqs id, id.free = false → ∃ c, id = s.select c (s.thread p).state

/-- The state names the join list of a thread that is gone. -/
def Late (gone : Tuid → Prop) (st : ThreadState) : Prop := ∃ t, st = .join t ∧ gone t

/-- Every processor runs one thread, and its state names a list. -/
def Busy (gone : Tuid → Prop) (s : ThreadList) (seqs : ListId → List Ptr) : Prop :=
  ∀ c < s.cpus, ∃ p, seqs (.running c) = [p] ∧
    (Late gone (s.thread p).state ∨ s.has (s.select c (s.thread p).state) = true)

/-- A thread is taken off a list. -/
theorem Core.take (h : Core s seqs hand threads) (op : ListOp ListId) (hlegal : Legal seqs op)
    (hspec : specStep seqs op = (Function.update seqs id l, some p))
    (hperm : (seqs id).Perm (p :: l)) :
    ∃ L, s.onList op = some ({ s with lists := L }, some p) ∧
      Core { s with lists := L } (Function.update seqs id l) (p :: hand) threads := by
  obtain ⟨L, he, hL⟩ := step_refines h.lists op hlegal
  rw [hspec] at he hL
  have hp : p ∈ seqs id := hperm.mem_iff.2 List.mem_cons_self
  have hl : p ∉ l := (List.nodup_cons.1 (hperm.nodup (h.lists.repr id).nodup)).1
  have hsub : ∀ j, Function.update seqs id l j ⊆ seqs j := by
    intro j
    rcases eq_or_ne j id with rfl | hj
    · rw [Function.update_self]
      exact fun x hx => hperm.mem_iff.2 (List.mem_cons_of_mem p hx)
    · rw [Function.update_of_ne hj]
      exact List.Subset.refl _
  refine ⟨L, by simp [onList, he], hL, fun q hq => ?_, ?_, fun q => ?_,
    fun j q hq => h.there j q (hsub j hq), fun j q hq => h.state j q (hsub j hq)⟩
  · rcases List.mem_cons.1 hq with rfl | hq
    · refine ⟨(h.lists.repr id).ne_null hp, fun j => ?_⟩
      rcases eq_or_ne j id with rfl | hj
      · rwa [Function.update_self]
      · rw [Function.update_of_ne hj]
        exact h.lists.disj id j hj.symm q hp
    · exact ⟨(h.fresh q hq).1, fun j hj => (h.fresh q hq).2 j (hsub j hj)⟩
  · exact List.nodup_cons.2 ⟨fun hmem => (h.fresh p hmem).2 id hp, h.nodup⟩
  · rw [h.mem q, List.mem_cons]
    constructor
    · rintro (hq | ⟨j, hj⟩)
      · exact .inl (.inr hq)
      · rcases eq_or_ne j id with rfl | hne
        · rcases List.mem_cons.1 (hperm.mem_iff.1 hj) with rfl | hq
          · exact .inl (.inl rfl)
          · exact .inr ⟨j, by rwa [Function.update_self]⟩
        · exact .inr ⟨j, by rwa [Function.update_of_ne hne]⟩
    · rintro ((rfl | hq) | ⟨j, hj⟩)
      · exact .inr ⟨id, hp⟩
      · exact .inl hq
      · exact .inr ⟨j, hsub j hj⟩

/-- Nothing is taken off an empty list. -/
theorem Core.takeNone (h : Core s seqs hand threads) (op : ListOp ListId) (hlegal : Legal seqs op)
    (hspec : specStep seqs op = (seqs, none)) :
    ∃ L, s.onList op = some ({ s with lists := L }, none) ∧
      Core { s with lists := L } seqs hand threads := by
  obtain ⟨L, he, hL⟩ := step_refines h.lists op hlegal
  rw [hspec] at he hL
  exact ⟨L, by simp [onList, he], hL, h.fresh, h.nodup, h.mem, h.there, h.state⟩

theorem specStep_popFront_nil (hs : seqs id = []) : specStep seqs (.popFront id) = (seqs, none) := by
  simp only [specStep, hs, List.tail_nil, List.head?_nil]
  rw [← hs, Function.update_eq_self]

theorem specStep_popFront_cons (hs : seqs id = p :: l) :
    specStep seqs (.popFront id) = (Function.update seqs id l, some p) := by
  simp only [specStep, hs, List.tail_cons, List.head?_cons]

theorem specStep_pop_nil (hs : seqs id = []) : specStep seqs (.pop id) = (seqs, none) := by
  simp only [specStep, hs, List.dropLast_nil, List.getLast?_nil]
  rw [← hs, Function.update_eq_self]

theorem specStep_pop_concat (hs : seqs id = l ++ [p]) :
    specStep seqs (.pop id) = (Function.update seqs id l, some p) := by
  simp only [specStep, hs, List.dropLast_concat, List.getLast?_concat]

/-- A thread in hand goes on a list. -/
theorem Core.put (h : Core s seqs (p :: hand) threads) (id : ListId) (hhas : s.has id = true)
    (hstate : id.free = false → ∃ c, id = s.select c (s.thread p).state) :
    ∃ L, s.onList (.push id p) = some ({ s with lists := L }, some p) ∧
      Core { s with lists := L } (Function.update seqs id (seqs id ++ [p])) hand threads := by
  have hp := h.fresh p List.mem_cons_self
  obtain ⟨L, he, hL⟩ := step_refines h.lists (.push id p) hp
  obtain ⟨hph, hnd⟩ := List.nodup_cons.1 h.nodup
  -- what is on a list was there before, or is the thread
  have hnew : ∀ j q, q ∈ Function.update seqs id (seqs id ++ [p]) j ↔ q ∈ seqs j ∨ j = id ∧ q = p := by
    intro j q
    rcases eq_or_ne j id with rfl | hj
    · simp
    · simp [hj]
  refine ⟨L, by simp [onList, he, specStep], hL, fun q hq => ?_, hnd, fun q => ?_, fun j q hq => ?_,
    fun j q hq => ?_⟩
  · have hf := h.fresh q (List.mem_cons_of_mem p hq)
    refine ⟨hf.1, fun j hj => ?_⟩
    rcases (hnew j q).1 hj with hj | ⟨-, rfl⟩
    · exact hf.2 j hj
    · exact hph hq
  · simp only [h.mem q, List.mem_cons, hnew]
    constructor
    · rintro ((rfl | hq) | ⟨j, hj⟩)
      · exact .inr ⟨id, .inr ⟨rfl, rfl⟩⟩
      · exact .inl hq
      · exact .inr ⟨j, .inl hj⟩
    · rintro (hq | ⟨j, hj | ⟨-, rfl⟩⟩)
      · exact .inl (.inr hq)
      · exact .inr ⟨j, hj⟩
      · exact .inl (.inl rfl)
  · rcases (hnew j q).1 hq with hq | ⟨rfl, rfl⟩
    · exact h.there j q hq
    · exact hhas
  · rcases (hnew j q).1 hq with hq | ⟨rfl, rfl⟩
    · exact h.state j q hq
    · exact hstate

@[simp] theorem setState_tuid : ((s.setState p st).thread q).tuid = (s.thread q).tuid := by
  unfold setState
  by_cases hq : q = p
  · rw [hq]
    simp
  · simp [hq]

@[simp] theorem setState_state : ((s.setState p st).thread p).state = st := by
  simp [ThreadList.setState]

/-- The state of a thread in hand. -/
theorem Core.setState (h : Core s seqs (p :: hand) threads) (st : ThreadState) :
    Core (s.setState p st) seqs (p :: hand) threads := by
  refine ⟨h.lists, h.fresh, h.nodup, h.mem, h.there, fun j q hq hfree => ?_⟩
  have hqp : q ≠ p := by
    rintro rfl
    exact (h.fresh q List.mem_cons_self).2 j hq
  have hthread : (s.setState p st).thread q = s.thread q := Function.update_of_ne hqp _ _
  rw [hthread]
  exact h.state j q hq hfree

/-- **`insert_into`** puts a thread in hand on the list that its state names. -/
theorem Core.insertInto (h : Core s seqs (p :: hand) threads) (prid : ℕ)
    (hst : (s.thread p).state = st) (hhas : s.has (s.select prid st) = true) :
    ∃ L, s.insertInto prid p = some { s with lists := L } ∧
      Core { s with lists := L }
        (Function.update seqs (s.select prid st) (seqs (s.select prid st) ++ [p])) hand threads := by
  subst hst
  obtain ⟨L, he, h'⟩ := h.put _ hhas fun _ => ⟨prid, rfl⟩
  refine ⟨L, ?_, h'⟩
  simp only [ThreadList.insertInto, get, hhas, if_true, Option.bind_eq_bind, Option.bind_some, he]

/-- A thread in hand is freed. -/
theorem Core.drop (h : Core s seqs (p :: hand) threads) :
    Core s seqs hand (threads.filter (· ≠ p)) := by
  obtain ⟨hph, hnd⟩ := List.nodup_cons.1 h.nodup
  refine ⟨h.lists, fun q hq => h.fresh q (List.mem_cons_of_mem p hq), hnd, fun q => ?_, h.there,
    h.state⟩
  rw [List.mem_filter, h.mem q, List.mem_cons, decide_eq_true_eq]
  constructor
  · rintro ⟨(rfl | hq) | hq, hne⟩
    · exact absurd rfl hne
    · exact .inl hq
    · exact .inr hq
  · rintro (hq | ⟨id, hq⟩)
    · exact ⟨.inl (.inr hq), fun hqp => hph (hqp ▸ hq)⟩
    · refine ⟨.inr ⟨id, hq⟩, fun hqp => ?_⟩
      exact (h.fresh p List.mem_cons_self).2 id (hqp ▸ hq)

/-- A new thread is in hand. -/
theorem Core.add (h : Core s seqs hand threads) (hp : p ≠ null) (hnew : p ∉ threads) (t : Thread) :
    Core { s with thread := Function.update s.thread p t } seqs (p :: hand) (p :: threads) := by
  have hhand : p ∉ hand := fun hm => hnew ((h.mem p).2 (.inl hm))
  have hlist : ∀ id, p ∉ seqs id := fun id hm => hnew ((h.mem p).2 (.inr ⟨id, hm⟩))
  refine ⟨h.lists, fun q hq => ?_, List.nodup_cons.2 ⟨hhand, h.nodup⟩, fun q => ?_, h.there,
    fun id q hq hfree => ?_⟩
  · rcases List.mem_cons.1 hq with rfl | hq
    · exact ⟨hp, hlist⟩
    · exact h.fresh q hq
  · rw [List.mem_cons, List.mem_cons, h.mem q, or_assoc]
  · have hqp : q ≠ p := by
      rintro rfl
      exact hlist id hq
    show ∃ c, id = s.select c (Function.update s.thread p t q).state
    rw [Function.update_of_ne hqp]
    exact h.state id q hq hfree

/-- More lists are there. -/
theorem Core.grow (h : Core s seqs hand threads) {cpus : ℕ} {nodes : ListId → Bool}
    (hhas : ∀ id, s.has id = true → has { s with cpus := cpus, nodes := nodes } id = true) :
    Core { s with cpus := cpus, nodes := nodes } seqs hand threads :=
  ⟨h.lists, h.fresh, h.nodup, h.mem, fun id p hp => hhas id (h.there id p hp), h.state⟩

/-! ### Moving a thread that does not run -/

/-- The invariant. -/
structure Inv (gone : Tuid → Prop) (s : ThreadList) (seqs : ListId → List Ptr)
    (hand threads : List Ptr) : Prop where
  core : Core s seqs hand threads
  busy : Busy gone s seqs
  shut : ∀ t, gone t → seqs (.join t) = []

/-- What does not touch the running threads leaves them running. -/
theorem Busy.congr {L : LinkedList.Lists ListId} {T : Ptr → Thread} {seqs' : ListId → List Ptr}
    (h : Busy gone s seqs) (hs : ∀ c, seqs' (.running c) = seqs (.running c))
    (ht : ∀ c, ∀ q ∈ seqs (.running c), T q = s.thread q) :
    Busy gone { s with lists := L, thread := T } seqs' := by
  intro c hc
  obtain ⟨p, hp, hhas⟩ := h c hc
  refine ⟨p, (hs c).trans hp, ?_⟩
  have htp : T p = s.thread p := ht c p (by simp [hp])
  show Late gone (T p).state ∨ s.has (s.select c (T p).state) = true
  rwa [htp]

theorem select_eq_join {t : Tuid} (h : s.select prid st = .join t) : st = .join t := by
  cases st <;> simp_all [select]

theorem select_running : s.select prid .running = .running prid := rfl

theorem select_destroy : s.select prid .destroy = .destroy := rfl

theorem select_ne_running (hst : st ≠ .running) (c : ℕ) : s.select prid st ≠ .running c := by
  cases st <;> simp_all [select]

/-- A list that is shut stays shut when a thread is taken off some list. -/
theorem Inv.shut_take (h : Inv gone s seqs hand threads) (hp : p ∈ seqs id) {t : Tuid} (ht : gone t) :
    Function.update seqs id l (.join t) = [] := by
  have hne : ListId.join t ≠ id := by
    rintro rfl
    rw [h.shut t ht] at hp
    cases hp
  rw [Function.update_of_ne hne]
  exact h.shut t ht

/-- **A thread that does not run changes its state and goes on the list of the new one.** -/
theorem Inv.shift (h : Inv gone s seqs [] threads) (prid : ℕ) (st : ThreadState) (op : ListOp ListId)
    (hlegal : Legal seqs op) (hspec : specStep seqs op = (Function.update seqs id l, some p))
    (hperm : (seqs id).Perm (p :: l)) (hid : ∀ c, id ≠ .running c)
    (hst : st ≠ .running) (hlate : ¬ Late gone st) (hhas : s.has (s.select prid st) = true) :
    ∃ L, s.onList op = some ({ s with lists := L }, some p) ∧
      ∃ L' T, ({ s with lists := L }.setState p st).insertInto prid p
          = some { s with lists := L', thread := T } ∧ (∀ q, (T q).tuid = (s.thread q).tuid) ∧
        (∀ q ≠ p, T q = s.thread q) ∧ Inv gone { s with lists := L', thread := T } (Function.update (Function.update seqs id l)
          (s.select prid st) (Function.update seqs id l (s.select prid st) ++ [p])) [] threads := by
  obtain ⟨L, he, h₁⟩ := h.core.take op hlegal hspec hperm
  have h₂ := h₁.setState st
  obtain ⟨L', he', h₃⟩ := h₂.insertInto prid setState_state hhas
  have hp : p ∈ seqs id := hperm.mem_iff.2 List.mem_cons_self
  refine ⟨L, he, L', _, he', fun q => setState_tuid, fun q hq => Function.update_of_ne hq _ _, h₃,
    h.busy.congr (fun c => ?_) fun c q hq => ?_, fun t ht => ?_⟩
  · have h1 : ListId.running c ≠ s.select prid st := (select_ne_running hst c).symm
    have h2 : ListId.running c ≠ id := (hid c).symm
    exact (Function.update_of_ne h1 _ _).trans (Function.update_of_ne h2 _ _)
  · have hqp : q ≠ p := by
      rintro rfl
      exact h.core.lists.disj id (.running c) (hid c) q hp hq
    exact Function.update_of_ne hqp _ _
  · have hne : ListId.join t ≠ s.select prid st := fun hsel => hlate ⟨t, select_eq_join hsel.symm, ht⟩
    exact (Function.update_of_ne hne _ _).trans (h.shut_take hp ht)

theorem moveTo_eq (hget : s.get prid (s.thread p).state = some id)
    {L : LinkedList.Lists ListId} (he : s.onList (.removeNode id p) = some ({ s with lists := L }, some p)) :
    s.moveTo prid p st = (({ s with lists := L } : ThreadList).setState p st).insertInto prid p := by
  simp only [moveTo, removeFromCurrent, hget, he, Option.bind_eq_bind, Option.bind_some]

/-- More lists are there. -/
theorem Inv.grow (h : Inv gone s seqs hand threads) {nodes : ListId → Bool}
    (hhas : ∀ id, s.has id = true → has { s with nodes := nodes } id = true) :
    Inv gone { s with nodes := nodes } seqs hand threads := by
  refine ⟨h.core.grow hhas, fun c hc => ?_, h.shut⟩
  obtain ⟨p, hp, hs⟩ := h.busy c hc
  exact ⟨p, hp, hs.imp_right (hhas _)⟩

/-- **A running thread sets its own state** to one that names a list. -/
theorem Inv.setOwn (h : Inv gone s seqs hand threads) (hp : seqs (.running prid) = [p])
    (hhas : Late gone st ∨ s.has (s.select prid st) = true) :
    Inv gone (s.setState p st) seqs hand threads := by
  have hmem : p ∈ seqs (.running prid) := by simp [hp]
  have hother : ∀ id ≠ .running prid, ∀ q ∈ seqs id, (s.setState p st).thread q = s.thread q := by
    intro id hid q hq
    refine Function.update_of_ne ?_ _ _
    rintro rfl
    exact h.core.lists.disj id _ hid q hq hmem
  refine ⟨⟨h.core.lists, h.core.fresh, h.core.nodup, h.core.mem, h.core.there,
    fun id q hq hfree => ?_⟩, fun c hc => ?_, h.shut⟩
  · have hid : id ≠ .running prid := by
      rintro rfl
      simp [ListId.free] at hfree
    rw [hother id hid q hq]
    exact h.core.state id q hq hfree
  · obtain ⟨q, hq, hs⟩ := h.busy c hc
    rcases eq_or_ne c prid with rfl | hne
    · refine ⟨p, hp, ?_⟩
      rw [setState_state]
      exact hhas
    · refine ⟨q, hq, ?_⟩
      rw [hother (.running c) (by simpa using hne) q (by simp [hq])]
      exact hs

/-- One more thread is gone, and nobody is on its join list. -/
theorem Inv.close (h : Inv gone s seqs hand threads) {t : Tuid} (ht : seqs (.join t) = []) :
    Inv (fun u => gone u ∨ u = t) s seqs hand threads := by
  refine ⟨h.core, fun c hc => ?_, fun u hu => ?_⟩
  · obtain ⟨p, hp, hs⟩ := h.busy c hc
    exact ⟨p, hp, hs.imp_left fun ⟨u, hu, hg⟩ => ⟨u, hu, .inl hg⟩⟩
  · rcases hu with hu | rfl
    · exact h.shut u hu
    · exact ht

/-- **`dealloc_state`** takes the join list of a thread that is gone. -/
theorem Inv.dealloc (h : Inv gone s seqs hand threads) {t : Tuid} (ht : gone t) :
    Inv gone { s with nodes := Function.update s.nodes (.join t) false } seqs hand threads := by
  have hhas : ∀ id ≠ .join t, s.has id = true →
      has { s with nodes := Function.update s.nodes (.join t) false } id = true := by
    intro id hid h
    have hkey : Function.update s.nodes (.join t) false id = s.nodes id := Function.update_of_ne hid _ _
    cases id <;> first | exact h | exact hkey.trans h
  obtain ⟨⟨h1, h2, h3, h4, h5, h6⟩, hbusy, hshut⟩ := h
  refine ⟨⟨h1, h2, h3, h4, fun id p hp => ?_, h6⟩, fun c hc => ?_, hshut⟩
  · refine hhas id ?_ (h5 id p hp)
    rintro rfl
    simp [hshut t ht] at hp
  · obtain ⟨p, hp, hs⟩ := hbusy c hc
    refine ⟨p, hp, ?_⟩
    by_cases hsel : s.select c (s.thread p).state = .join t
    · exact .inl ⟨t, select_eq_join hsel, ht⟩
    · exact hs.imp_right (hhas _ hsel)

/-! ### Loops -/

/-- **A loop over a list** visits its threads in order, when what is left to visit stays linked. -/
theorem forEachFrom_spec {body : ThreadList → Ptr → Option ThreadList}
    (I : List Ptr → ThreadList → Prop)
    (hnext : ∀ p rest s, I (p :: rest) s → p ≠ null ∧ (s.lists.mem p).next = first rest null)
    (hbody : ∀ p rest s, I (p :: rest) s → ∃ s', body s p = some s' ∧ I rest s')
    (xs : List Ptr) (h : I xs s) :
    ∃ s', forEachFrom body xs.length (first xs null) s = some s' ∧ I [] s' := by
  induction xs generalizing s with
  | nil => exact ⟨s, rfl, h⟩
  | cons p rest ih =>
    obtain ⟨hp, hlink⟩ := hnext p rest s h
    obtain ⟨s₁, he₁, h₁⟩ := hbody p rest s h
    obtain ⟨s₂, he₂, h₂⟩ := ih h₁
    refine ⟨s₂, ?_, h₂⟩
    simp only [List.length_cons, first_cons, forEachFrom, asRef_of_ne hp, Option.bind_eq_bind,
      Option.bind_some, hlink, he₁, he₂]

/-- The link from a thread of a list to the next one. -/
theorem Core.next_eq (h : Core s seqs hand threads) {kept rest : List Ptr}
    (hs : seqs id = kept ++ p :: rest) :
    p ≠ null ∧ (s.lists.mem p).next = first rest null := by
  have hrepr := h.lists.repr id
  have hlinked := hrepr.linked
  rw [hs, linked_append] at hlinked
  exact ⟨hrepr.ne_null (by simp [hs]), hlinked.2.2.1⟩

/-- A loop over list `id` whose body takes care of one thread at a time.  `J` relates the states on
the way to the threads that stay on the list. -/
theorem forEach_spec (id : ListId) (body : ThreadList → Ptr → Option ThreadList)
    (h : Inv gone s seqs [] threads) (J : ThreadList → List Ptr → Prop) (hJ : J s [])
    (hbody : ∀ s seqs kept p rest, Inv gone s seqs [] threads → J s kept → seqs id = kept ++ p :: rest →
      ∃ s' seqs' kept', body s p = some s' ∧ Inv gone s' seqs' [] threads ∧ J s' kept' ∧
        seqs' id = kept' ++ rest) :
    ∃ s' seqs', s.forEach body id = some s' ∧ Inv gone s' seqs' [] threads ∧ J s' (seqs' id) := by
  have hrepr := h.core.lists.repr id
  have hstart : s.forEach body id
      = forEachFrom body (seqs id).length (first (seqs id) null) s := by
    rw [forEach, hrepr.len_eq]
    rcases List.eq_nil_or_concat (seqs id) with hnil | ⟨_, _, hne⟩
    · rw [hnil]
      rfl
    · rw [hrepr.start_eq (by simp [hne])]
  obtain ⟨s', he, seqs', kept', h', hJ', hs'⟩ := forEachFrom_spec (s := s)
    (fun rest s => ∃ seqs kept, Inv gone s seqs [] threads ∧ J s kept ∧ seqs id = kept ++ rest)
    (fun p rest s ⟨seqs, kept, h, _, hs⟩ => h.core.next_eq hs)
    (fun p rest s ⟨seqs, kept, h, hJ, hs⟩ => by
      obtain ⟨s', seqs', kept', he, h', hJ', hs'⟩ := hbody s seqs kept p rest h hJ hs
      exact ⟨s', he, seqs', kept', h', hJ', hs'⟩)
    (seqs id) ⟨seqs, [], h, hJ, by simp⟩
  rw [List.append_nil] at hs'
  exact ⟨s', seqs', hstart.trans he, h', hs' ▸ hJ'⟩

/-- The fields that only booting, starting and ending write. -/
structure Same (s s' : ThreadList) : Prop where
  tuid : ∀ p, (s'.thread p).tuid = (s.thread p).tuid
  cpus : s'.cpus = s.cpus
  nodes : s'.nodes = s.nodes
  alive : s'.alive = s.alive
  fuid : s'.fuid = s.fuid

theorem Same.trans {s'' : ThreadList} (h : Same s s') (h' : Same s' s'') : Same s s'' :=
  ⟨fun p => (h'.tuid p).trans (h.tuid p), h'.cpus.trans h.cpus, h'.nodes.trans h.nodes,
    h'.alive.trans h.alive, h'.fuid.trans h.fuid⟩

theorem Same.of_tuid {L : LinkedList.Lists ListId} {T : Ptr → Thread}
    (h : Same { s with lists := L, thread := T } s') (hT : ∀ p, (T p).tuid = (s.thread p).tuid) :
    Same s s' :=
  ⟨fun p => (h.tuid p).trans (hT p), h.cpus, h.nodes, h.alive, h.fuid⟩

theorem Same.refl : Same s s := ⟨fun _ => rfl, rfl, rfl, rfl, rfl⟩

theorem Same.select (h : Same s s') : s'.select prid st = s.select prid st := by
  cases st <;> simp [ThreadList.select, h.fuid]

theorem Same.has (h : Same s s') (id : ListId) : s'.has id = s.has id := by
  cases id <;> simp [ThreadList.has, h.cpus, h.nodes]

/-- **Waking a thread** on the list that its state names. -/
theorem Inv.wake (h : Inv gone s seqs [] threads) (prid : ℕ) {kept rest : List Ptr}
    (hs : seqs id = kept ++ p :: rest) (hid : id.free = false) (hready : id ≠ .ready)
    (hsel : id = s.select prid (s.thread p).state) :
    ∃ s' seqs', s.moveTo prid p .ready = some s' ∧ Inv gone s' seqs' [] threads ∧ Same s s' ∧
      seqs' id = kept ++ rest := by
  have hmem : p ∈ seqs id := by simp [hs]
  have hp : p ∉ kept := by
    have hnd := (h.core.lists.repr id).nodup
    rw [hs] at hnd
    exact fun hk => (List.disjoint_of_nodup_append hnd) hk List.mem_cons_self
  have herase : (seqs id).erase p = kept ++ rest := by
    rw [hs, List.erase_append_right _ hp, List.erase_cons_head]
  obtain ⟨L, he, L', T, he', htuid, -, h'⟩ := h.shift prid .ready (.removeNode id p) hmem
    rfl (List.perm_cons_erase hmem) (by rintro c rfl; simp [ListId.free] at hid) (by simp)
    (by simp [Late]) rfl
  have hget : s.get prid (s.thread p).state = some id := by
    simp only [get, ← hsel, h.core.there id p hmem, if_true]
  refine ⟨_, _, (moveTo_eq hget he).trans he', h', ⟨htuid, rfl, rfl, rfl, rfl⟩, ?_⟩
  have hne : id ≠ s.select prid .ready := hready
  rw [Function.update_of_ne hne, Function.update_self, herase]

theorem Core.sleeping (h : Core s seqs hand threads) (hp : p ∈ seqs .sleep) :
    ∃ nsec, (s.thread p).state = .sleep nsec := by
  obtain ⟨c, hc⟩ := h.state .sleep p hp rfl
  cases hst : (s.thread p).state <;> rw [hst] at hc <;> simp [ThreadList.select] at hc
  exact ⟨_, rfl⟩

/-- **The loop of `time_handler`.** -/
theorem wakeSleeping_spec (h : Inv gone s seqs [] threads) (nsec : ℕ) :
    ∃ s' seqs', s.wakeSleeping nsec = some s' ∧ Inv gone s' seqs' [] threads ∧ Same s s' := by
  refine forEach_spec _ _ h (fun s' _ => Same s s') .refl ?_
  intro s₁ seqs₁ kept p rest h₁ hs₁ hseq
  obtain ⟨n, hn⟩ := h₁.core.sleeping (p := p) (by simp [hseq])
  by_cases hdue : nsec ≥ n
  · obtain ⟨s₂, seqs₂, he, h₂, hs₂, hseq₂⟩ :=
      h₁.wake 0 hseq rfl (by simp) (by rw [hn]; rfl)
    exact ⟨s₂, seqs₂, kept, by simp only [wakeIfDue, hn, if_pos hdue, he], h₂, hs₁.trans hs₂, hseq₂⟩
  · exact ⟨s₁, seqs₁, kept ++ [p], by simp only [wakeIfDue, hn, if_neg hdue], h₁, hs₁, by simp [hseq]⟩

/-- The state of a thread on the list of a key names that list on every processor. -/
theorem Core.select_eq (h : Core s seqs hand threads) (hp : p ∈ seqs id) (hfree : id.free = false)
    (hidle : ∀ c, id ≠ .idle c) (prid : ℕ) : id = s.select prid (s.thread p).state := by
  obtain ⟨c, rfl⟩ := h.state id p hp hfree
  clear hp
  cases hst : (s.thread p).state with
  | running => simp [hst, ThreadList.select, ListId.free] at hfree
  | idle => exact absurd (by rw [hst]; rfl) (hidle c)
  | _ => rfl

/-- **The loops of `int_handler` and `remove_thread`**: nobody stays on the list. -/
theorem wakeAll_spec (h : Inv gone s seqs [] threads) (prid : ℕ) (st : ThreadState)
    (hid : (s.select prid st).free = false)
    (hidle : ∀ c, s.select prid st ≠ .idle c) (hready : s.select prid st ≠ .ready) :
    ∃ s' seqs', s.wakeAll prid st = some s' ∧ Inv gone s' seqs' [] threads ∧ Same s s' ∧
      seqs' (s.select prid st) = [] := by
  unfold wakeAll get
  by_cases hhas : s.has (s.select prid st) = true
  swap
  · refine ⟨s, seqs, by simp [hhas], h, .refl, ?_⟩
    by_contra hne
    obtain ⟨p, hp⟩ := List.exists_mem_of_ne_nil _ hne
    exact hhas (h.core.there _ p hp)
  simp only [hhas, if_true]
  obtain ⟨s', seqs', he, h', hsame, hnil⟩ := forEach_spec (s.select prid st)
    (fun s ptr => s.moveTo prid ptr .ready) h (fun s' kept => Same s s' ∧ kept = []) ⟨.refl, rfl⟩ (by
      rintro s₁ seqs₁ kept p rest h₁ ⟨hs₁, rfl⟩ hseq
      have hsel := h₁.core.select_eq (p := p) (by simp [hseq]) hid hidle prid
      obtain ⟨s₂, seqs₂, he, h₂, hs₂, hseq₂⟩ := h₁.wake prid hseq hid hready hsel
      exact ⟨s₂, seqs₂, [], he, h₂, ⟨hs₁.trans hs₂, rfl⟩, hseq₂⟩)
  exact ⟨s', seqs', he, h', hsame, hnil⟩

/-- The thread on a running list is the running thread. -/
theorem Core.current (h : Core s seqs hand threads) (hs : seqs (.running prid) = [p]) :
    s.current prid = some p := by
  have hhas : s.has (.running prid) = true := h.there _ p (by simp [hs])
  have hget := getNode_spec (h.lists.repr (.running prid)) (show 0 < _ by simp [hs])
  simp only [hs] at hget
  rw [ThreadList.current, if_pos hhas, hget]
  rfl

/-- The running thread of a processor. -/
theorem Inv.current (h : Inv gone s seqs hand threads) (hc : prid < s.cpus) :
    ∃ p, seqs (.running prid) = [p] ∧ s.current prid = some p := by
  obtain ⟨p, hp, -⟩ := h.busy prid hc
  exact ⟨p, hp, h.core.current hp⟩

theorem wakeWaiting_spec (h : Inv gone s seqs [] threads) (hc : prid < s.cpus) :
    ∃ s' seqs', s.wakeWaiting prid = some s' ∧ Inv gone s' seqs' [] threads ∧ Same s s' := by
  obtain ⟨p, -, hp⟩ := h.current hc
  obtain ⟨s', seqs', he, h', hs, -⟩ := wakeAll_spec h prid
    (.waiting (s.thread p).tuid) rfl (by simp [select]) (by simp [select])
  exact ⟨s', seqs', by simp only [wakeWaiting, hp, Option.bind_eq_bind, Option.bind_some, he], h', hs⟩

/-- **The sweep of `thread_cleaner`.** -/
theorem sweep_spec (h : Inv gone s seqs [] threads) (refCount : Ptr → ℕ) :
    ∃ s' seqs', s.sweep refCount = some s' ∧ Inv gone s' seqs' [] threads ∧ Same s s' := by
  refine forEach_spec _ _ h (fun s' _ => Same s s') .refl ?_
  intro s₁ seqs₁ kept p rest h₁ hs₁ hseq
  unfold sweepOne
  by_cases hzero : refCount p = 0
  swap
  · exact ⟨s₁, seqs₁, kept ++ [p], if_neg hzero, h₁, hs₁, by simp [hseq]⟩
  have hmem : p ∈ seqs₁ .destroy := by simp [hseq]
  have hp : p ∉ kept := by
    have hnd := (h₁.core.lists.repr .destroy).nodup
    rw [hseq] at hnd
    exact fun hk => (List.disjoint_of_nodup_append hnd) hk List.mem_cons_self
  have herase : (seqs₁ .destroy).erase p = kept ++ rest := by
    rw [hseq, List.erase_append_right _ hp, List.erase_cons_head]
  obtain ⟨L, he, h₂⟩ := h₁.core.take (.removeNode .destroy p) hmem rfl
    (List.perm_cons_erase hmem)
  obtain ⟨L', he', h₃⟩ := h₂.put .cleaner rfl (by simp [ListId.free])
  refine ⟨{ s₁ with lists := L' }, _, kept, ?_, ⟨h₃, ?_, fun t ht => ?_⟩,
    ⟨hs₁.tuid, hs₁.cpus, hs₁.nodes, hs₁.alive, hs₁.fuid⟩, ?_⟩
  · rw [if_pos hzero]
    simp only [he, Option.bind_eq_bind, Option.bind_some]
    simp only [he', Option.bind_some]
  · refine h₁.busy.congr (fun c => ?_) fun _ _ _ => rfl
    rw [Function.update_of_ne (by simp), Function.update_of_ne (by simp)]
  · rw [Function.update_of_ne (by simp)]
    exact h₁.shut_take hmem ht
  · rw [Function.update_of_ne (by simp), Function.update_self, herase]

/-- **The loop of `inner_state_move`.** -/
theorem moveFrom_spec {old new : ThreadState} {count : ℕ} (left : ℕ) (h : Inv gone s seqs [] threads)
    (hold : old ≠ .running) (hnew : new ≠ .running) (hlate : ¬ Late gone new)
    (hhas : s.has (s.select prid old) = true)
    (hhas' : s.has (s.select prid new) = true) :
    ∃ s' seqs' n, moveFrom prid old new count left s = some (s', n) ∧ Inv gone s' seqs' [] threads ∧
      Same s s' := by
  induction left generalizing s seqs with
  | zero => exact ⟨s, seqs, count, rfl, h, .refl⟩
  | succ left ih =>
    unfold moveFrom
    simp only [get, hhas, if_true, Option.bind_eq_bind, Option.bind_some]
    cases hs : seqs (s.select prid old) with
    | nil =>
      obtain ⟨L, he, h₁⟩ := h.core.takeNone (.popFront (s.select prid old)) trivial
        (specStep_popFront_nil hs)
      simp only [he, Option.bind_some]
      exact ⟨_, seqs, _, rfl, ⟨h₁, h.busy, h.shut⟩, ⟨fun _ => rfl, rfl, rfl, rfl, rfl⟩⟩
    | cons p ps =>
      obtain ⟨L, he, L', T, he', htuid, -, h'⟩ := h.shift prid new (.popFront (s.select prid old)) trivial
        (specStep_popFront_cons hs) (by rw [hs]) (select_ne_running hold) hnew hlate hhas'
      obtain ⟨s'', seqs'', n, he'', h'', hs''⟩ := ih h' hhas hhas'
      refine ⟨s'', seqs'', n, ?_, h'', hs''.of_tuid htuid⟩
      simp only [he, Option.bind_some, he']
      exact he''

theorem innerStateMove_spec (h : Inv gone s seqs [] threads) (prid : ℕ) {old new : ThreadState} (count : ℕ)
    (hold : old ≠ .running) (hnew : new ≠ .running) (hlate : ¬ Late gone new) :
    ∃ s' seqs' n, s.innerStateMove prid old new count = some (s', n) ∧ Inv gone s' seqs' [] threads ∧
      Same s s' := by
  rw [innerStateMove, if_neg (by tauto)]
  by_cases hget : (s.get prid old).isNone = true ∨ (s.get prid new).isNone = true
  · exact ⟨s, seqs, 0, if_pos hget, h, .refl⟩
  · rw [if_neg hget]
    have hhas : ∀ st, ¬ (s.get prid st).isNone = true → s.has (s.select prid st) = true := by
      intro st hst
      by_contra hn
      simp [get, hn] at hst
    exact moveFrom_spec count h hold hnew hlate (hhas _ fun h => hget (.inl h)) (hhas _ fun h => hget (.inr h))

/-! ### `schedule` -/

/-- There is a thread to switch to: a ready one of a process that is alive, or an idle one. -/
def HasNext (s : ThreadList) (seqs : ListId → List Ptr) (prid : ℕ) : Prop :=
  (∃ q ∈ seqs .ready, s.alive (s.thread q).tuid.pid = true) ∨ seqs (.idle prid) ≠ []

/-- The process of the thread is alive. -/
def live (s : ThreadList) (ptr : Ptr) : Bool := s.alive (s.thread ptr).tuid.pid

/-- The thread that the loop of `schedule` comes to. -/
def next (s : ThreadList) (seqs : ListId → List Ptr) (prid : ℕ) : Option Ptr :=
  ((seqs .ready).find? s.live).or (seqs (.idle prid)).getLast?

theorem next_of_live (hs : seqs .ready = p :: l) (hp : s.live p = true) :
    s.next seqs prid = some p := by
  rw [next, hs, List.find?_cons_of_pos hp, Option.some_or]

theorem next_of_nil (hs : seqs .ready = []) : s.next seqs prid = (seqs (.idle prid)).getLast? := by
  rw [next, hs, List.find?_nil, Option.none_or]

/-- A dead thread is passed over. -/
theorem next_of_dead {s' : ThreadList} {seqs' : ListId → List Ptr} (hs : seqs .ready = p :: l)
    (hp : s.live p = false) (hready : seqs' .ready = l) (hidle : seqs' (.idle prid) = seqs (.idle prid))
    (hlive : s'.live = s.live) : s'.next seqs' prid = s.next seqs prid := by
  rw [next, next, hready, hidle, hlive, hs, List.find?_cons_of_neg (by rw [hp]; simp)]

theorem next_isSome : (s.next seqs prid).isSome = true ↔ HasNext s seqs prid := by
  simp [next, HasNext, live]

/-- What the loop of `schedule` does. -/
structure Picked (s : ThreadList) (seqs : ListId → List Ptr) (prid : ℕ) (s' : ThreadList)
    (seqs' : ListId → List Ptr) (next : Option Ptr) : Prop where
  same : Same s s'
  running : ∀ c, seqs' (.running c) = seqs (.running c)
  thread : ∀ c, ∀ q ∈ seqs (.running c), s'.thread q = s.thread q
  isSome : next.isSome = true ↔ HasNext s seqs prid

/-- **The next thread** is in hand, or there is none; dead threads on the way go to be destroyed. -/
theorem pickFrom_spec {fuel : ℕ} (prid : ℕ) (h : Inv gone s seqs [] threads) (hfuel : (seqs .ready).length < fuel) :
    ∃ s' seqs' next, pickFrom prid fuel s = some (s', next) ∧ next = s.next seqs prid ∧
      Inv gone s' seqs' next.toList threads ∧ Picked s seqs prid s' seqs' next := by
  induction fuel generalizing s seqs with
  | zero => omega
  | succ fuel ih =>
    unfold pickFrom
    cases hs : seqs .ready with
    | nil =>
      -- no thread is ready
      obtain ⟨L, he, h₁⟩ := h.core.takeNone (.popFront .ready) trivial (specStep_popFront_nil hs)
      simp only [he, Option.bind_eq_bind, Option.bind_some]
      rcases List.eq_nil_or_concat (seqs (.idle prid)) with hnil | ⟨ps, p, hps⟩
      · obtain ⟨L', he', h₂⟩ := h₁.takeNone (.pop (.idle prid)) trivial (specStep_pop_nil hnil)
        have hnext : s.next seqs prid = none := by
          rw [next_of_nil hs, hnil]
          rfl
        refine ⟨_, seqs, none, he', hnext.symm, ⟨h₂, h.busy, h.shut⟩, ⟨fun _ => rfl, rfl, rfl, rfl, rfl⟩,
          fun _ => rfl, fun _ _ _ => rfl, ?_⟩
        rw [← next_isSome, hnext]
      · rw [List.concat_eq_append] at hps
        obtain ⟨L', he', h₂⟩ := h₁.take (.pop (.idle prid)) trivial (specStep_pop_concat hps)
          (by rw [hps]; exact List.perm_append_singleton _ _)
        have hnext : s.next seqs prid = some p := by
          rw [next_of_nil hs, hps, List.getLast?_concat]
        have hrun : ∀ c, Function.update seqs (.idle prid) ps (.running c) = seqs (.running c) :=
          fun c => Function.update_of_ne (by simp) _ _
        refine ⟨_, _, some p, he', hnext.symm, ⟨h₂, h.busy.congr hrun fun _ _ _ => rfl, fun t ht => ?_⟩,
          ⟨fun _ => rfl, rfl, rfl, rfl, rfl⟩, hrun, fun _ _ _ => rfl, ?_⟩
        · exact h.shut_take (p := p) (by rw [hps]; simp) ht
        · rw [← next_isSome, hnext]
    | cons p ps =>
      by_cases halive : s.alive (s.thread p).tuid.pid = false
      · -- a thread of a dead process
        obtain ⟨L, he, L', T, he', htuid, hT, h'⟩ := h.shift prid .destroy (.popFront .ready) trivial
          (specStep_popFront_cons hs) (by rw [hs]) (by simp) (by simp) (by simp [Late]) rfl
        have hother : ∀ id, id ≠ .ready → id ≠ .destroy →
            Function.update (Function.update seqs .ready ps) .destroy
              (Function.update seqs .ready ps .destroy ++ [p]) id = seqs id := by
          intro id h1 h2
          rw [Function.update_of_ne h2, Function.update_of_ne h1]
        have hready : Function.update (Function.update seqs .ready ps) .destroy
            (Function.update seqs .ready ps .destroy ++ [p]) .ready = ps := by
          rw [Function.update_of_ne (by simp), Function.update_self]
        have hlen : ps.length < fuel := by
          rw [hs, List.length_cons] at hfuel
          omega
        have hlive : live { s with lists := L', thread := T } = s.live := by
          funext q
          simp only [live, htuid]
        obtain ⟨s'', seqs'', next, he'', hnext, h'', hpick⟩ :=
          ih h' (by rw [select_destroy, hready]; exact hlen)
        rw [select_destroy, next_of_dead hs halive hready (hother _ (by simp) (by simp)) hlive] at hnext
        refine ⟨s'', seqs'', next, ?_, hnext, h'', hpick.same.of_tuid htuid, fun c => ?_,
          fun c q hq => ?_, ?_⟩
        · simp only [he, Option.bind_eq_bind, Option.bind_some, halive, if_true, he']
          exact he''
        · rw [hpick.running c, select_destroy, hother _ (by simp) (by simp)]
        · have hqp : q ≠ p := by
            rintro rfl
            exact h.core.lists.disj (.running c) .ready (by simp) q hq (by simp [hs])
          rw [hpick.thread c q (by rw [select_destroy, hother _ (by simp) (by simp)]; exact hq)]
          exact hT q hqp
        · rw [← next_isSome, hnext]
      · obtain ⟨L, he, h₁⟩ := h.core.take (.popFront .ready) trivial (specStep_popFront_cons hs)
          (by rw [hs])
        have hnext : s.next seqs prid = some p := next_of_live hs (eq_true_of_ne_false halive)
        have hrun : ∀ c, Function.update seqs .ready ps (.running c) = seqs (.running c) :=
          fun c => Function.update_of_ne (by simp) _ _
        refine ⟨_, _, some p, ?_, hnext.symm, ⟨h₁, h.busy.congr hrun fun _ _ _ => rfl, fun t ht => ?_⟩,
          ⟨fun _ => rfl, rfl, rfl, rfl, rfl⟩, hrun, fun _ _ _ => rfl, ?_⟩
        · simp only [he, Option.bind_eq_bind, Option.bind_some, if_neg halive]
        · exact h.shut_take (p := p) (by rw [hs]; simp) ht
        · rw [← next_isSome, hnext]

theorem offState_ne_running (t : Thread) : t.offState ≠ .running := by
  unfold Thread.offState Thread.defaultState
  by_cases hrun : t.state = .running
  · rw [if_pos hrun]
    split <;> simp
  · rwa [if_neg hrun]

theorem late_offState (t : Thread) : Late gone t.offState ↔ Late gone t.state := by
  unfold Thread.offState Thread.defaultState Late
  by_cases hrun : t.state = .running
  · rw [if_pos hrun, hrun]
    split <;> simp
  · rw [if_neg hrun]

theorem has_offState (hc : prid < s.cpus) {t : Thread} (h : s.has (s.select prid t.state) = true) :
    s.has (s.select prid t.offState) = true := by
  unfold Thread.offState Thread.defaultState
  by_cases hrun : t.state = .running
  · rw [if_pos hrun]
    split
    · exact decide_eq_true hc
    · rfl
  · rwa [if_neg hrun]

/-- The thread that is switched away gets its new state. -/
theorem Core.yield {old : Ptr} (h : Core s seqs (old :: hand) threads) :
    ∃ T, (if (s.thread old).state = .running then s.setState old (s.thread old).defaultState else s)
        = { s with thread := T } ∧ Core { s with thread := T } seqs (old :: hand) threads ∧
      (T old).state = (s.thread old).offState ∧ (∀ q, (T q).tuid = (s.thread q).tuid) ∧
      ∀ q ≠ old, T q = s.thread q := by
  unfold Thread.offState
  by_cases hrun : (s.thread old).state = .running
  · refine ⟨(s.setState old (s.thread old).defaultState).thread, if_pos hrun, h.setState _, ?_,
      fun q => setState_tuid, fun q hq => Function.update_of_ne hq _ _⟩
    rw [setState_state, if_pos hrun]
  · exact ⟨s.thread, if_neg hrun, h, (if_neg hrun).symm, fun _ => rfl, fun _ _ => rfl⟩

/-- What a switch from `old` to `p` does. -/
structure Switched (s : ThreadList) (seqs : ListId → List Ptr) (prid : ℕ) (old p : Ptr)
    (s' : ThreadList) (seqs' : ListId → List Ptr) : Prop where
  same : Same s s'
  next : seqs' (.running prid) = [p]
  state : (s'.thread p).state = .running
  prev : old ∈ seqs' (s.select prid (s.thread old).offState)
  other : ∀ id, id ≠ .running prid → id ≠ s.select prid (s.thread old).offState → seqs' id = seqs id
  rest : ∀ q, q ≠ p → q ≠ old → s'.thread q = s.thread q

/-- **A switch**, when the state of the thread that is switched away names a list. -/
theorem Core.switchTo {old : Ptr} (h : Core s seqs [p] threads) (hc : prid < s.cpus)
    (hold : seqs (.running prid) = [old])
    (hhas : s.has (s.select prid (s.thread old).offState) = true) :
    ∃ s' seqs', s.switchTo prid p = some s' ∧ Core s' seqs' [] threads ∧
      Switched s seqs prid old p s' seqs' := by
  -- the thread that ran is taken off its list
  obtain ⟨L₁, he₁, h₁⟩ := h.take (.pop (.running prid)) trivial
    (specStep_pop_concat (l := []) hold) (by rw [hold])
  obtain ⟨T, heT, h₂, hst, htuid, hT⟩ := h₁.yield
  -- it goes on the list that its state names, which is not that of the running thread
  obtain ⟨L₃, he₃, h₃⟩ := h₂.insertInto prid hst hhas
  have hne : ListId.running prid ≠ s.select prid (s.thread old).offState :=
    (select_ne_running (offState_ne_running _) prid).symm
  -- the next thread runs
  have h₄ := h₃.setState .running
  obtain ⟨L₅, he₅, h₅⟩ := h₄.insertInto prid setState_state (decide_eq_true hc)
  refine ⟨_, _, ?_, h₅, ⟨fun q => ?_, rfl, rfl, rfl, rfl⟩, ?_, setState_state, ?_, ?_, ?_⟩
  · simp only [ThreadList.switchTo, he₁, Option.bind_eq_bind, Option.bind_some]
    rw [heT]
    simp only [he₃, Option.bind_some]
    exact he₅
  · exact setState_tuid.trans (htuid q)
  · rw [select_running, Function.update_self]
    refine (congrArg (· ++ [p]) ?_).trans (List.nil_append [p])
    exact (Function.update_of_ne hne _ _).trans (Function.update_self _ _ _)
  · rw [select_running, Function.update_of_ne hne.symm]
    have hself : ∀ xs : List Ptr, old ∈ Function.update
        (Function.update seqs (.running prid) []) (s.select prid (s.thread old).offState)
        (xs ++ [old]) (s.select prid (s.thread old).offState) := by
      intro xs
      rw [Function.update_self]
      simp
    exact hself _
  · intro id h1 h2
    rw [select_running, Function.update_of_ne h1]
    exact (Function.update_of_ne h2 _ _).trans (Function.update_of_ne h1 _ _)
  · intro q hqp hqold
    exact (Function.update_of_ne hqp _ _).trans (hT q hqold)

/-- **A switch** leaves one thread running on every processor, when the one it switches away does
not go to a thread that is gone. -/
theorem switchTo_spec (h : Inv gone s seqs [p] threads) (hc : prid < s.cpus)
    (hlate : ∀ old, seqs (.running prid) = [old] → ¬ Late gone (s.thread old).state) :
    ∃ s' seqs', s.switchTo prid p = some s' ∧ Inv gone s' seqs' [] threads ∧ Same s s' := by
  obtain ⟨old, hold, hhas⟩ := h.busy prid hc
  have hlate := hlate old hold
  have hoff := has_offState hc (hhas.resolve_left hlate)
  obtain ⟨s', seqs', he, h', hsw⟩ := h.core.switchTo hc hold hoff
  refine ⟨s', seqs', he, ⟨h', fun c hcpu => ?_, fun t ht => ?_⟩, hsw.same⟩
  · rw [hsw.same.cpus] at hcpu
    rcases eq_or_ne c prid with rfl | hne
    · refine ⟨p, hsw.next, .inr ?_⟩
      rw [hsw.state]
      exact decide_eq_true (by rwa [hsw.same.cpus])
    · obtain ⟨q, hq, hqhas⟩ := h.busy c hcpu
      have hcr : ListId.running c ≠ .running prid := by simpa using hne
      have hqmem : q ∈ seqs (.running c) := by simp [hq]
      have hqp : q ≠ p := by
        rintro rfl
        exact (h.core.fresh q List.mem_cons_self).2 _ hqmem
      have hqold : q ≠ old := by
        rintro rfl
        exact h.core.lists.disj _ _ hcr q hqmem (by simp [hold])
      refine ⟨q, ?_, ?_⟩
      · rw [hsw.other _ hcr (select_ne_running (offState_ne_running _) c).symm, hq]
      · rwa [hsw.rest q hqp hqold, hsw.same.select, hsw.same.has]
  · rw [hsw.other _ (by simp) fun hsel => hlate ((late_offState _).1 ⟨t, select_eq_join hsel.symm, ht⟩)]
    exact h.shut t ht

/-- **`schedule`**, when the thread that it switches away does not go to a thread that is gone. -/
theorem schedule_spec (h : Inv gone s seqs [] threads) (hc : prid < s.cpus)
    (hlate : HasNext s seqs prid → ∀ old, seqs (.running prid) = [old] →
      ¬ Late gone (s.thread old).state) :
    ∃ s' seqs' switched, s.schedule prid = some (s', switched) ∧ Inv gone s' seqs' [] threads ∧
      Same s s' := by
  have hfuel : (seqs .ready).length < (s.lists.list .ready).len + 1 := by
    rw [(h.core.lists.repr .ready).len_eq]
    exact Nat.lt_succ_self _
  obtain ⟨s₁, seqs₁, next, he, -, h₁, hpick⟩ := pickFrom_spec prid h hfuel
  unfold schedule
  simp only [he, Option.bind_eq_bind, Option.bind_some]
  cases next with
  | none => exact ⟨s₁, seqs₁, false, rfl, h₁, hpick.same⟩
  | some p =>
    have hnext : HasNext s seqs prid := hpick.isSome.1 rfl
    obtain ⟨s₂, seqs₂, he₂, h₂, hs₂⟩ := switchTo_spec h₁ (by rwa [hpick.same.cpus])
      fun old hold => by
        rw [hpick.running] at hold
        rw [hpick.thread prid old (by simp [hold])]
        exact hlate hnext old hold
    exact ⟨s₂, seqs₂, true, by simp only [he₂, Option.bind_some], h₂, hpick.same.trans hs₂⟩

/-- A switch panics when the state of the thread that is switched away names no list. -/
theorem Core.switchTo_none {old : Ptr} (h : Core s seqs [p] threads)
    (hold : seqs (.running prid) = [old])
    (hhas : s.has (s.select prid (s.thread old).offState) = false) : s.switchTo prid p = none := by
  obtain ⟨L₁, he₁, h₁⟩ := h.take (.pop (.running prid)) trivial
    (specStep_pop_concat (l := []) hold) (by rw [hold])
  obtain ⟨T, heT, -, hst, -⟩ := h₁.yield
  simp only [ThreadList.switchTo, he₁, Option.bind_eq_bind, Option.bind_some]
  rw [heT]
  have hget : ({ s with lists := L₁, thread := T } : ThreadList).get prid (T old).state = none := by
    rw [hst]
    exact if_neg (by rw [← Bool.not_eq_true] at hhas; exact hhas)
  simp only [ThreadList.insertInto, hget, Option.bind_eq_bind, Option.bind_none]

/-- **A late joiner**: when the thread that `schedule` switches away is about to join, it panics on
a list that is not there or ends up on the list. -/
theorem schedule_join {old : Ptr} {t : Tuid} (h : Inv gone s seqs [] threads) (hc : prid < s.cpus)
    (hnext : HasNext s seqs prid) (hold : seqs (.running prid) = [old])
    (hjoin : (s.thread old).state = .join t) :
    s.schedule prid = none ∨ ∃ s' seqs', s.schedule prid = some (s', true) ∧
      Core s' seqs' [] threads ∧ old ∈ seqs' (.join t) := by
  have hfuel : (seqs .ready).length < (s.lists.list .ready).len + 1 := by
    rw [(h.core.lists.repr .ready).len_eq]
    exact Nat.lt_succ_self _
  obtain ⟨s₁, seqs₁, next, he, -, h₁, hpick⟩ := pickFrom_spec prid h hfuel
  obtain ⟨p, rfl⟩ := Option.isSome_iff_exists.1 (hpick.isSome.2 hnext)
  have hold₁ : seqs₁ (.running prid) = [old] := by rw [hpick.running, hold]
  have hoff : (s₁.thread old).offState = .join t := by
    rw [hpick.thread prid old (by simp [hold]), Thread.offState, hjoin]
    rfl
  unfold schedule
  simp only [he, Option.bind_eq_bind, Option.bind_some]
  cases hhas : s₁.has (s₁.select prid (s₁.thread old).offState) with
  | false =>
    left
    rw [h₁.core.switchTo_none hold₁ hhas, Option.bind_none]
  | true =>
    obtain ⟨s', seqs', he', h', hsw⟩ := h₁.core.switchTo (by rwa [hpick.same.cpus]) hold₁ hhas
    have hprev := hsw.prev
    rw [hoff] at hprev
    exact .inr ⟨s', seqs', by rw [he', Option.bind_some], h', hprev⟩

end ThreadList
end AuroraOs
