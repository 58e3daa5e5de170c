import AuroraOs.Sched.Join

/-!
# Runs with joins

`run_sound_iff`: in which runs nobody is left on the join list of a thread that is gone.
`run_late_join`: what else happens.  A thread that joins is a late joiner from the wake-up of its
target on, whichever of its steps has come before: its target is gone, and no one wakes it again.
-/

namespace AuroraOs

open LinkedList Machine

namespace ThreadList
namespace Joins

variable {j j' : Joins} {seqs : ListId → List Ptr} {p : Ptr} {prid : ℕ}

/-- The invariant. -/
structure Good (j : Joins) : Prop where
  world : j.world.Good j.Gone
  listed : ∀ p t, j.pc p = .setting t → j.Gone t ∨ j.world.tlist.nodes (.join t) = true
  given : ∀ t, j.table t = true → t.tid < j.nextTid t.pid
  tabled : ∀ p ∈ j.world.threads, j.table (j.world.tlist.thread p).tuid = true
  distinct : ∀ p ∈ j.world.threads, ∀ q ∈ j.world.threads,
    (j.world.tlist.thread p).tuid = (j.world.tlist.thread q).tuid → p = q
  removing : ∀ t, j.cleaner = .removing t →
    j.table t = true ∧ ∀ p ∈ j.world.threads, (j.world.tlist.thread p).tuid ≠ t
  waking : ∀ t, j.cleaner = .waking t → j.table t = false ∧ t.tid < j.nextTid t.pid
  deallocing : ∀ t, j.cleaner = .deallocing t → j.Gone t

/-- A step of the scheduler that keeps the threads and the lists keeps the invariant. -/
theorem Good.step (h : j.Good) {s : ThreadList} {pc : Ptr → BlockPc}
    (hgood : World.Good { j.world with tlist := s } j.Gone)
    (htuid : ∀ p, (s.thread p).tuid = (j.world.tlist.thread p).tuid)
    (hnodes : ∀ id, j.world.tlist.nodes id = true → s.nodes id = true)
    (hpc : ∀ p t, pc p = .setting t → j.pc p = .setting t ∨ s.nodes (.join t) = true) :
    Good { j with world := { j.world with tlist := s }, pc := pc } := by
  refine ⟨hgood, fun p t ht => ?_, h.given, fun p hp => ?_, fun p hp q hq hpq => ?_, fun t ht => ?_,
    h.waking, h.deallocing⟩
  · rcases hpc p t ht with ht | ht
    · exact (h.listed p t ht).imp_right (hnodes _)
    · exact .inr ht
  · simp only [htuid]
    exact h.tabled p hp
  · simp only [htuid] at hpq
    exact h.distinct p hp q hq hpq
  · obtain ⟨h1, h2⟩ := h.removing t ht
    exact ⟨h1, fun p hp => by simpa only [htuid] using h2 p hp⟩

/-- What the invariant says about the threads that are gone. -/
theorem Good.empty (h : j.Good) {t : Tuid} (ht : j.Gone t) : j.world.on (.join t) = [] := by
  obtain ⟨seqs, h⟩ := h.world
  rw [World.on_eq h]
  exact h.shut t ht

theorem late_eq_true {t : Tuid} (hcur : j.world.tlist.current prid = some p)
    (hst : (j.world.tlist.thread p).state = .join t) (ht : j.Gone t) : j.late prid = true := by
  simp [late, hcur, hst, ht]

theorem exists_of_late (h : j.late prid = true) :
    ∃ p t, j.world.tlist.current prid = some p ∧ (j.world.tlist.thread p).state = .join t ∧
      j.Gone t := by
  obtain ⟨p, hcur, h⟩ := (Option.any_eq_true _ _).1 h
  cases hst : (j.world.tlist.thread p).state with
  | join t =>
    rw [hst] at h
    exact ⟨p, t, hcur, hst, by simpa using h⟩
  | _ =>
    rw [hst] at h
    cases h

theorem pc_update {pc : BlockPc} {q : Ptr} {t : Tuid}
    (h : Function.update j.pc p pc q = .setting t) : j.pc q = .setting t ∨ pc = .setting t := by
  by_cases hq : q = p
  · rw [hq, Function.update_self] at h
    exact .inr h
  · rw [Function.update_of_ne hq] at h
    exact .inl h

/-- **A step of the scheduler** that is not about joining. -/
theorem sched_spec (h : j.Good) (op : Op) (hop : op.plain = true) (hL : j.world.Legal op)
    (hin : ∀ prid, op = .schedule prid → j.world.hasNext prid = true → j.late prid = false) :
    ∃ s, j.world.step op = some { j.world with tlist := s } ∧
      World.Good { j.world with tlist := s } j.Gone ∧
      (∀ p, (s.thread p).tuid = (j.world.tlist.thread p).tuid) ∧
      ∀ id, j.world.tlist.nodes id = true → s.nodes id = true := by
  have hkeeps : op.keeps = true := by
    cases op <;> simp_all [Op.plain, Op.keeps]
  have hlate : ∀ st, j.world.Enters op st → ¬ ThreadList.Late j.Gone st := by
    rintro st hst ⟨t, rfl, ht⟩
    cases op with
    | schedule prid =>
      obtain ⟨hnext, p, hcur, hst⟩ := hst
      have hl := late_eq_true hcur hst.symm ht
      rw [hin prid rfl hnext] at hl
      cases hl
    | stateMove prid oldState newState count =>
      obtain rfl : ThreadState.join t = newState := hst
      simp [Op.plain] at hop
    | _ => exact hst
  obtain ⟨s, he, h', -, htuid, hnodes⟩ := World.keeps_spec op hkeeps h.world hL hlate
  exact ⟨s, he, h', htuid, hnodes⟩

/-- **`block` goes on.** -/
theorem goOn_spec (h : j.Good) (hc : prid < j.world.tlist.cpus)
    (hcur : j.world.tlist.current prid = some p)
    (hin : j.pc p = .switching → j.world.hasNext prid = true → j.late prid = false) :
    ∃ j', j.goOn prid p = some j' ∧ j'.Good := by
  unfold goOn
  cases hpc : j.pc p with
  | out => exact ⟨j, rfl, h⟩
  | inserting t =>
    obtain ⟨seqs, hinv⟩ := h.world
    have hnew : Function.update j.world.tlist.nodes (.join t) true (.join t) = true :=
      Function.update_self _ _ _
    refine ⟨_, rfl, h.step ⟨seqs, hinv.grow fun id => World.has_ensure⟩ (fun _ => rfl)
      (fun id hid => ?_) fun q u hu => ?_⟩
    · show Function.update j.world.tlist.nodes (.join t) true id = true
      by_cases hj : id = .join t
      · rwa [hj]
      · rwa [Function.update_of_ne hj]
    · rcases pc_update hu with hu | hu
      · exact .inl hu
      · obtain rfl := BlockPc.setting.inj hu
        exact .inr hnew
  | setting t =>
    obtain ⟨seqs, hinv⟩ := h.world
    obtain ⟨q, hq, hcur'⟩ := hinv.current hc
    obtain rfl : p = q := Option.some.inj (hcur.symm.trans hcur')
    have hhas := (h.listed p t hpc).imp_left fun ht => (⟨t, rfl, ht⟩ : ThreadList.Late j.Gone (.join t))
    exact ⟨_, rfl, h.step ⟨seqs, hinv.setOwn hq hhas⟩ (fun _ => setState_tuid) (fun _ h => h)
      fun q u hu => .inl ((pc_update hu).resolve_right (by simp))⟩
  | switching =>
    obtain ⟨s, he, h', htuid, hnodes⟩ := sched_spec h (.schedule prid) rfl hc
      (by rintro _ ⟨⟩; exact hin hpc)
    refine ⟨{ j with world := { j.world with tlist := s }, pc := Function.update j.pc p .out },
      by simp only [he, Option.bind_eq_bind, Option.bind_some], h.step h' htuid hnodes ?_⟩
    exact fun q u hu => .inl ((pc_update hu).resolve_right (by simp))

/-- The same threads are gone. -/
theorem gone_eq {j' : Joins} (h : ∀ t, j'.Gone t ↔ j.Gone t) : j'.Gone = j.Gone :=
  funext fun t => propext (h t)

/-- **A new thread** is in the table of its process and in nobody's way. -/
theorem spawn_spec (h : j.Good) {pid : ℕ} (hp : p ≠ null) (hnew : p ∉ j.world.threads) :
    ∃ j', j.step (.spawn p pid) = some j' ∧ j'.Good := by
  obtain ⟨s, he, h', hnodes, -, hself, hother⟩ := World.spawn_spec h.world ⟨pid, j.nextTid pid⟩ hp hnew
  set tuid : Tuid := ⟨pid, j.nextTid pid⟩ with htuid
  have hfree : j.table tuid = false := by
    by_contra ht
    exact absurd (h.given tuid (by simpa using ht)) (lt_irrefl _)
  -- the new id was given to nobody
  have hnext : ∀ t : Tuid, t.tid < Function.update j.nextTid pid (j.nextTid pid + 1) t.pid
      ↔ t.tid < j.nextTid t.pid ∨ t = tuid := by
    rintro ⟨a, b⟩
    by_cases ha : a = pid
    · subst ha
      simp only [Function.update_self, htuid, Tuid.mk.injEq, true_and]
      omega
    · simp [htuid, ha]
  have htable : ∀ t, t ≠ tuid → Function.update j.table tuid true t = j.table t :=
    fun t ht => Function.update_of_ne ht _ _
  have hkept : ∀ t, j.table t = true → Function.update j.table tuid true t = true := by
    intro t ht
    by_cases hu : t = tuid
    · rw [hu, Function.update_self]
    · rwa [htable t hu]
  have hold : ∀ q ∈ j.world.threads, s.thread q = j.world.tlist.thread q :=
    fun q hq => hother q fun hqp => hnew (hqp ▸ hq)
  have hne : ∀ t : Tuid, t.tid < j.nextTid t.pid → t ≠ tuid := by
    rintro t ht rfl
    exact lt_irrefl _ ht
  let j' : Joins := { j with
    world := ⟨s, p :: j.world.threads⟩
    table := Function.update j.table tuid true
    nextTid := Function.update j.nextTid pid (j.nextTid pid + 1)
    pc := Function.update j.pc p .out }
  have hgone : j'.Gone = j.Gone := gone_eq fun t => by
    simp only [Gone, j', hnext]
    by_cases ht : t = tuid
    · simp [ht, htuid]
    · simp [ht]
  refine ⟨j', by simp only [step, ← htuid, he, Option.bind_eq_bind, Option.bind_some, j'], ?_⟩
  refine ⟨hgone ▸ h', fun q t ht => ?_, fun t ht => ?_, fun q hq => ?_, fun q hq r hr hqr => ?_,
    fun t ht => ?_, fun t ht => ?_, fun t ht => ?_⟩
  · rw [hgone]
    exact (h.listed q t ((pc_update ht).resolve_right (by simp))).imp_right fun hn => by rwa [hnodes]
  · refine (hnext t).2 ?_
    by_cases hu : t = tuid
    · exact .inr hu
    · exact .inl (h.given t (by rwa [← htable t hu]))
  · rcases List.mem_cons.1 hq with rfl | hq
    · show Function.update j.table tuid true _ = true
      rw [hself, Function.update_self]
    · show Function.update j.table tuid true (s.thread q).tuid = true
      rw [hold q hq]
      exact hkept _ (h.tabled q hq)
  · have hfresh : ∀ q ∈ j.world.threads, (s.thread q).tuid ≠ tuid := by
      intro q hq
      rw [hold q hq]
      exact hne _ (h.given _ (h.tabled q hq))
    rcases List.mem_cons.1 hq with rfl | hq₀ <;> rcases List.mem_cons.1 hr with rfl | hr₀
    · rfl
    · exact absurd (hqr.symm.trans hself) (hfresh r hr₀)
    · exact absurd (hqr.trans hself) (hfresh q hq₀)
    · refine h.distinct q hq₀ r hr₀ ?_
      rwa [← hold q hq₀, ← hold r hr₀]
  · obtain ⟨h1, h2⟩ := h.removing t ht
    refine ⟨hkept t h1, fun q hq => ?_⟩
    rcases List.mem_cons.1 hq with rfl | hq
    · show (s.thread q).tuid ≠ t
      rw [hself]
      exact (hne t (h.given t h1)).symm
    · show (s.thread q).tuid ≠ t
      rw [hold q hq]
      exact h2 q hq
  · obtain ⟨h1, h2⟩ := h.waking t ht
    exact ⟨(htable t (hne t h2)).trans h1, (hnext t).2 (.inl h2)⟩
  · rw [hgone]
    exact h.deallocing t ht

/-! ### The cleaner -/

/-- A step of the cleaner that keeps the ids of the threads keeps the invariant. -/
theorem Good.goto (h : j.Good) {w : World} {pc : CleanerPc} {gone : Tuid → Prop}
    (hgone : Gone { j with world := w, cleaner := pc } = gone) (hgood : w.Good gone)
    (htuid : ∀ p, (w.tlist.thread p).tuid = (j.world.tlist.thread p).tuid)
    (hthreads : ∀ p ∈ w.threads, p ∈ j.world.threads)
    (hlisted : ∀ t, j.Gone t ∨ j.world.tlist.nodes (.join t) = true →
      gone t ∨ w.tlist.nodes (.join t) = true)
    (hremoving : ∀ t, pc = .removing t →
      j.table t = true ∧ ∀ p ∈ w.threads, (j.world.tlist.thread p).tuid ≠ t)
    (hwaking : ∀ t, pc ≠ .waking t) (hdeallocing : ∀ t, pc = .deallocing t → gone t) :
    Good { j with world := w, cleaner := pc } := by
  refine ⟨hgone ▸ hgood, fun p t ht => ?_, h.given, fun p hp => ?_, fun p hp q hq hpq => ?_,
    fun t ht => ?_, fun t ht => absurd ht (hwaking t), fun t ht => ?_⟩
  · rw [hgone]
    exact hlisted t (h.listed p t ht)
  · simp only [htuid]
    exact h.tabled p (hthreads p hp)
  · simp only [htuid] at hpq
    exact h.distinct p (hthreads p hp) q (hthreads q hq) hpq
  · obtain ⟨htable, hothers⟩ := hremoving t ht
    exact ⟨htable, fun p hp => by simpa only [htuid] using hothers p hp⟩
  · rw [hgone]
    exact hdeallocing t ht

/-- The next thread to free, if there is one, leaves the list of the cleaner. -/
theorem popping_spec (h : j.Good) (upgrade : Bool) (hpc : j.cleaner = .popping) :
    ∃ j', j.clean upgrade = some j' ∧ j'.Good := by
  obtain ⟨s, ptr, threads, he, hpop, h', hnodes, -, hthread, hptr, hthreads⟩ := World.reap_spec h.world
  have hgood : ∀ pc' : CleanerPc, (∀ t, pc' ≠ .waking t) → (∀ t, pc' ≠ .deallocing t) →
      (∀ t, pc' = .removing t →
        j.table t = true ∧ ∀ q ∈ threads, (j.world.tlist.thread q).tuid ≠ t) →
      Good { j with world := ⟨s, threads⟩, cleaner := pc' } := by
    intro pc' hw hd hr
    have hgone : Gone { j with world := ⟨s, threads⟩, cleaner := pc' } = j.Gone := gone_eq fun t => by
      simp [Gone, hw, hpc]
    exact h.goto hgone h' (fun q => by rw [hthread]) (fun q hq => ((hthreads q).1 hq).1)
      (fun t ht => ht.imp_right fun hn => by rwa [hnodes]) hr hw fun t ht => absurd ht (hd t)
  unfold clean
  rw [hpc]
  simp only [hpop, he, Option.bind_eq_bind, Option.bind_some]
  cases ptr with
  | none => exact ⟨_, rfl, hpc ▸ hgood .popping (by simp) (by simp) (by simp)⟩
  | some p =>
    refine ⟨_, rfl, hgood _ (by split <;> simp) (by split <;> simp) fun t ht => ?_⟩
    have hp := hptr p rfl
    obtain rfl : (j.world.tlist.thread p).tuid = t := by
      split at ht
      · exact CleanerPc.removing.inj ht
      · cases ht
    refine ⟨h.tabled p hp, fun q hq hqp => ?_⟩
    obtain ⟨hq, hne⟩ := (hthreads q).1 hq
    exact hne (congrArg some (h.distinct q hq p hp hqp).symm)

/-- The thread is taken out of its table, and those that joined it are yet to be woken. -/
theorem removing_spec (h : j.Good) (upgrade : Bool) {t : Tuid} (hpc : j.cleaner = .removing t) :
    ∃ j', j.clean upgrade = some j' ∧ j'.Good := by
  obtain ⟨htable, hothers⟩ := h.removing t hpc
  have hgone : Gone { j with table := Function.update j.table t false, cleaner := .waking t }
      = j.Gone := gone_eq fun u => by
    by_cases hu : u = t
    · simp [Gone, hu, htable]
    · simp [Gone, hu, Ne.symm hu, hpc]
  unfold clean
  rw [hpc]
  simp only [htable, if_true]
  refine ⟨_, rfl, hgone ▸ h.world, fun q u hu => ?_, fun u hu => ?_, fun q hq => ?_, h.distinct,
    by simp, fun u hu => ?_, by simp⟩
  · rw [hgone]
    exact h.listed q u hu
  · refine h.given u ?_
    by_cases hut : u = t
    · rwa [hut]
    · rwa [← Function.update_of_ne hut false j.table]
  · exact (Function.update_of_ne (hothers q hq) _ _).trans (h.tabled q hq)
  · obtain rfl := CleanerPc.waking.inj hu
    exact ⟨Function.update_self _ _ _, h.given _ htable⟩

/-- With those that joined it woken, the thread is gone. -/
theorem waking_spec (h : j.Good) (upgrade : Bool) {t : Tuid} (hpc : j.cleaner = .waking t) :
    ∃ j', j.clean upgrade = some j' ∧ j'.Good := by
  obtain ⟨htable, hgiven⟩ := h.waking t hpc
  obtain ⟨seqs, hinv⟩ := h.world
  obtain ⟨s, seqs', he, h', hs, hnil⟩ := wakeAll_spec hinv 0 (.join t) rfl (by simp [select])
    (by simp [select])
  have hgood : ∀ pc' : CleanerPc, (∀ u, pc' ≠ .waking u) → (∀ u, pc' ≠ .removing u) →
      (∀ u, pc' = .deallocing u → u = t) →
      Good { j with world := { j.world with tlist := s }, cleaner := pc' } := by
    intro pc' hw hr hd
    have hgone : Gone { j with world := { j.world with tlist := s }, cleaner := pc' }
        = fun u => j.Gone u ∨ u = t := funext fun u => propext (by
      by_cases hu : u = t
      · simp [Gone, hu, htable, hgiven, hw]
      · simp [Gone, hw, hpc, hu, Ne.symm hu])
    exact h.goto hgone ⟨seqs', h'.close hnil⟩ hs.tuid (fun _ hq => hq)
      (fun u hu => hu.imp .inl fun hn => by rwa [hs.nodes]) (fun u hu => absurd hu (hr u)) hw
      fun u hu => .inr (hd u hu)
  unfold clean
  rw [hpc]
  simp only [he, Option.bind_eq_bind, Option.bind_some]
  refine ⟨_, rfl, hgood _ (by split <;> simp) (by split <;> simp) fun u hu => ?_⟩
  split at hu
  · exact (CleanerPc.deallocing.inj hu).symm
  · cases hu

/-- The join list of a thread that is gone is empty when it is freed. -/
theorem deallocing_spec (h : j.Good) (upgrade : Bool) {t : Tuid} (hpc : j.cleaner = .deallocing t) :
    ∃ j', j.clean upgrade = some j' ∧ j'.Good := by
  have hgt := h.deallocing t hpc
  obtain ⟨seqs, hinv⟩ := h.world
  have hgood : ∀ tlist : ThreadList, tlist.thread = j.world.tlist.thread →
      World.Good { j.world with tlist := tlist } j.Gone →
      (∀ u, u ≠ t → j.world.tlist.nodes (.join u) = true → tlist.nodes (.join u) = true) →
      Good { j with world := { j.world with tlist := tlist }, cleaner := .popping } := by
    intro tlist hthread hw hnodes
    have hgone : Gone { j with world := { j.world with tlist := tlist }, cleaner := .popping }
        = j.Gone := gone_eq fun u => by simp [Gone, hpc]
    refine h.goto hgone hw (fun q => by rw [hthread]) (fun _ hq => hq) (fun u hu => ?_) (by simp)
      (by simp) (by simp)
    by_cases hut : u = t
    · exact .inl (hut ▸ hgt)
    · exact hu.imp_right (hnodes u hut)
  unfold clean
  rw [hpc]
  by_cases hhas : j.world.tlist.has (.join t) = true
  · have hlen : (j.world.tlist.lists.list (.join t)).len = 0 := by
      rw [(hinv.core.lists.repr (.join t)).len_eq, hinv.shut t hgt]
      rfl
    simp only [if_pos hhas, if_pos hlen]
    refine ⟨_, rfl, hgood _ rfl ⟨seqs, hinv.dealloc hgt⟩ fun u hu hn => ?_⟩
    show Function.update j.world.tlist.nodes (.join t) false (.join u) = true
    rwa [Function.update_of_ne (by simpa using hu)]
  · simp only [if_neg hhas]
    exact ⟨_, rfl, hgood j.world.tlist rfl ⟨seqs, hinv⟩ fun _ _ hn => hn⟩

/-- **The cleaner goes on**: it never finds a thread on the join list that it frees. -/
theorem clean_spec (h : j.Good) (upgrade : Bool) : ∃ j', j.clean upgrade = some j' ∧ j'.Good := by
  cases hpc : j.cleaner with
  | popping => exact popping_spec h upgrade hpc
  | removing t => exact removing_spec h upgrade hpc
  | waking t => exact waking_spec h upgrade hpc
  | deallocing t => exact deallocing_spec h upgrade hpc

/-! ### Runs -/

/-- **A step in time** goes through and keeps the invariant. -/
theorem step_spec (op : JoinOp) (h : j.Good) (hL : j.Legal op) (hin : j.InTime op) :
    ∃ j', j.step op = some j' ∧ j'.Good := by
  cases op with
  | sched op =>
    obtain ⟨s, he, h', htuid, hnodes⟩ := sched_spec h op hL.1 hL.2 fun prid hop => by
      subst hop
      exact hin prid rfl
    exact ⟨{ j with world := { j.world with tlist := s } }, by simp only [step, he, Option.map_some],
      h.step h' htuid hnodes fun q t ht => .inl ht⟩
  | spawn ptr pid => exact spawn_spec h hL.1 hL.2
  | block prid t =>
    obtain ⟨seqs, hinv⟩ := h.world
    obtain ⟨p, -, hcur⟩ := hinv.current hL.1
    refine ⟨_, by simp only [step, hcur, Option.bind_eq_bind, Option.bind_some]; rfl,
      h.step ⟨seqs, hinv⟩ (fun _ => rfl) (fun _ hn => hn) fun q u hu => ?_⟩
    refine (pc_update hu).imp_right fun hu => ?_
    split at hu
    next hhas =>
      obtain rfl := BlockPc.setting.inj hu
      exact hhas
    next => cases hu
  | run prid =>
    obtain ⟨seqs, hinv⟩ := h.world
    obtain ⟨p, -, hcur⟩ := hinv.current hL
    obtain ⟨j', he, h'⟩ := goOn_spec h hL hcur fun hpc =>
      hin prid (by simp [scheduler, hcur, hpc])
    exact ⟨j', by simp only [step, hcur, Option.bind_eq_bind, Option.bind_some, he], h'⟩
  | clean upgrade => exact clean_spec h upgrade

/-- `schedule` with a late joiner panics, or leaves it on the join list of a thread that is gone. -/
theorem late_spec (h : j.Good) (hc : prid < j.world.tlist.cpus) (hnext : j.world.hasNext prid = true)
    (hlate : j.late prid = true) :
    j.world.step (.schedule prid) = none ∨ ∃ s t, j.Gone t ∧
      j.world.step (.schedule prid) = some { j.world with tlist := s } ∧
      World.on { j.world with tlist := s } (.join t) ≠ [] := by
  obtain ⟨p, t, hcur, hst, ht⟩ := exists_of_late hlate
  obtain ⟨seqs, hinv⟩ := h.world
  obtain ⟨q, hq, hcur'⟩ := hinv.current hc
  obtain rfl : p = q := Option.some.inj (hcur.symm.trans hcur')
  rcases schedule_join hinv hc ((World.hasNext_iff hinv prid).1 hnext) hq hst with
    he | ⟨s, seqs', he, h', hp⟩
  · exact .inl (by simp only [World.step, he, Option.map_none])
  · refine .inr ⟨s, t, ht, by simp only [World.step, he, Option.map_some], ?_⟩
    have hon : World.on { j.world with tlist := s } (.join t) = seqs' (.join t) :=
      (h'.lists.repr _).nodes_eq
    rw [hon]
    exact List.ne_nil_of_mem hp

/-- A step that is too late is not sound. -/
theorem not_sound (op : JoinOp) (h : j.Good) (hL : j.Legal op) (hin : ¬ j.InTime op) : ¬ j.Sound op := by
  unfold InTime at hin
  push Not at hin
  obtain ⟨prid, hsched, hnext, hlate⟩ := hin
  rw [ne_eq, Bool.not_eq_false] at hlate
  rintro ⟨j', he, hempty⟩
  cases op with
  | sched op =>
    cases op with
    | schedule c =>
      obtain rfl : c = prid := by simpa [scheduler] using hsched
      rcases late_spec h hL.2 hnext hlate with hnone | ⟨s, t, ht, hsome, hon⟩
      · simp [step, hnone] at he
      · simp only [step, hsome, Option.map_some, Option.some.injEq] at he
        subst he
        exact hon (hempty t ht)
    | _ => simp [scheduler] at hsched
  | run c =>
    obtain ⟨p, hcur, hpc⟩ := Option.bind_eq_some_iff.1 hsched
    have hsw : j.pc p = .switching := by
      by_contra hne
      simp [hne] at hpc
    obtain rfl : c = prid := by simpa [hsw] using hpc
    rcases late_spec h hL hnext hlate with hnone | ⟨s, t, ht, hsome, hon⟩
    · simp [step, hcur, goOn, hsw, hnone] at he
    · simp only [step, hcur, goOn, hsw, hsome, Option.bind_eq_bind, Option.bind_some,
        Option.some.injEq] at he
      subst he
      exact hon (hempty t ht)
  | _ => simp [scheduler] at hsched

theorem sound_iff (op : JoinOp) (h : j.Good) (hL : j.Legal op) : j.Sound op ↔ j.InTime op := by
  constructor
  · intro hs
    by_contra hin
    exact not_sound op h hL hin hs
  · intro hin
    obtain ⟨j', he, h'⟩ := step_spec op h hL hin
    exact ⟨j', he, fun t ht => h'.empty ht⟩

theorem init_spec (mem : NodeMem) (fuid : Ptr → ℕ) {cleaner : Ptr} {idle : List Ptr}
    (hnd : (cleaner :: idle).Nodup) (hnull : null ∉ cleaner :: idle) :
    ∃ j, init mem fuid cleaner idle = some j ∧ j.Good := by
  obtain ⟨w, he, (h : w.Good fun _ => False), hids, hinj⟩ := World.init_spec mem fuid hnd hnull
  simp only [init, he, Option.bind_eq_bind, Option.bind_some]
  -- nobody is gone
  have hgone : ∀ {j : Joins}, (∀ t, t.tid < j.nextTid t.pid → j.table t = true) →
      j.Gone = fun _ => False := by
    intro j htable
    funext t
    simp only [Gone, eq_iff_iff, iff_false]
    rintro ⟨hlt, hfalse, -⟩
    rw [htable t hlt] at hfalse
    cases hfalse
  refine ⟨_, rfl, (hgone fun t ht => ?_).symm ▸ h, by simp, fun t ht => ?_, fun p hp => ?_, hinj, by simp, by simp, by simp⟩
  · by_cases h0 : t.pid = 0 <;> simp_all
  · obtain ⟨h0, hlt⟩ : t.pid = 0 ∧ t.tid < idle.length + 1 := by simpa using ht
    simpa [h0] using hlt
  · obtain ⟨h0, hlt⟩ := hids p hp
    simp only [h0, decide_true, Bool.true_and, decide_eq_true_eq]
    exact hlt

/-- **Nobody is left on the join list of a thread that is gone**, and `schedule` and `dealloc_state`
find the lists as they expect them, in exactly the runs in which `schedule` never switches away from
a thread that is about to join one that is gone. -/
theorem run_sound_iff (mem : NodeMem) (fuid : Ptr → ℕ) (cleaner : Ptr) (idle : List Ptr)
    (hnd : (cleaner :: idle).Nodup) (hnull : null ∉ cleaner :: idle) :
    ∃ j₀, init mem fuid cleaner idle = some j₀ ∧
      ∀ ops, Along step Legal j₀ ops → (Along step Sound j₀ ops ↔ Along step InTime j₀ ops) := by
  obtain ⟨j₀, he₀, h₀⟩ := init_spec mem fuid hnd hnull
  refine ⟨j₀, he₀, fun ops hops => along_iff Good (fun j op h hL => ⟨sound_iff op h hL, ?_⟩) h₀ hops⟩
  intro hin j' he
  obtain ⟨j'', he', h'⟩ := step_spec op h hL hin
  obtain rfl := Option.some.inj (he.symm.trans he')
  exact h'

/-- Thread 4 joins thread 5, which exits and is freed. -/
theorem run_sound_sample :
    ∃ j₀, init (fun _ => ⟨0, 0⟩) (fun _ => 0) 1 [2, 3] = some j₀ ∧
      Along step Sound j₀ [.spawn 4 1, .spawn 5 1, .sched (.schedule 0), .sched (.schedule 1),
        .block 1 ⟨1, 1⟩, .run 1, .run 1, .run 1, .sched (.setOwn 1 .destroy), .sched (.schedule 1),
        .sched (.sweep fun _ => 0), .clean true, .clean true, .clean true, .clean true,
        .sched (.schedule 1)] := by
  obtain ⟨j₀, he, h⟩ := run_sound_iff (fun _ => ⟨0, 0⟩) (fun _ => 0) 1 [2, 3] (by decide) (by decide)
  refine ⟨j₀, he, (h _ ?_).2 ?_⟩
  all_goals obtain rfl := Option.some.inj he
  all_goals decide +kernel

/-- Thread 4 runs on processor 0, and thread 5 is about to be taken out of the thread table. -/
def exiting : List JoinOp :=
  [.spawn 4 1, .spawn 5 1, .sched (.schedule 0), .sched (.setOwn 0 (.sleep 9)), .sched (.schedule 0),
    .sched (.schedule 1), .sched (.setOwn 1 .destroy), .sched (.schedule 1),
    .sched (.sweep fun _ => 0), .clean true]

/-- **Late joiners.**  Thread 4 joins thread 5 after it is gone, and is left on the list; it finds
the list, and `schedule` panics because the list has been freed since; it gets on the list after the
wake-up, and `dealloc_state` finds it there. -/
theorem run_late_join :
    ∃ left missing full : List JoinOp, ∃ j₀ ∈ init (fun _ => ⟨0, 0⟩) (fun _ => 0) 1 [2, 3],
      (Along step Legal j₀ left ∧ ∃ j ∈ Machine.run step j₀ left,
        j.Gone ⟨1, 1⟩ ∧ j.world.on (.join ⟨1, 1⟩) = [4]) ∧
      (Along step Legal j₀ (missing ++ [.run 0]) ∧ ∃ j ∈ Machine.run step j₀ missing,
        j.pc 4 = .switching ∧ j.step (.run 0) = none) ∧
      Along step Legal j₀ (full ++ [.clean true]) ∧ ∃ j ∈ Machine.run step j₀ full,
        j.cleaner = .deallocing ⟨1, 1⟩ ∧ j.step (.clean true) = none := by
  let left : List JoinOp := [.clean true, .clean true, .block 0 ⟨1, 1⟩, .run 0, .run 0, .run 0]
  let missing : List JoinOp := [.clean true, .block 0 ⟨1, 1⟩, .run 0, .run 0, .clean true, .clean true]
  let full : List JoinOp := [.clean true, .block 0 ⟨1, 1⟩, .run 0, .run 0, .clean true, .run 0]
  refine ⟨exiting ++ left, exiting ++ missing, exiting ++ full, ?_⟩
  decide +kernel

end Joins
end ThreadList
end AuroraOs
