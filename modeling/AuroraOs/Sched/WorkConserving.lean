import AuroraOs.Sched.ThreadListRun

/-!
# Which thread runs after `schedule`

`schedule` takes the first ready thread of a process that is alive, and the last thread of the idle
list when there is none, before it looks at the thread that runs.  So it takes the processor from a
lone thread that could go on and gives it to the idle thread (`idleLast_iff`), where a yield is to
leave the thread running.
-/

namespace AuroraOs

open LinkedList Machine

namespace ThreadList

variable {s s' : ThreadList} {seqs : ListId → List Ptr} {hand threads : List Ptr} {p q old : Ptr}
  {prid fuel : ℕ} {gone : Tuid → Prop} {switched : Bool}

/-! ### The marks of the idle threads -/

theorem onList_thread {op : ListOp ListId} {r : ThreadList × Option Ptr} (he : s.onList op = some r) :
    r.1.thread = s.thread := by
  obtain ⟨x, -, rfl⟩ := Option.map_eq_some_iff.1 he
  rfl

theorem insertInto_thread (he : s.insertInto prid p = some s') : s'.thread = s.thread := by
  obtain ⟨id, -, he⟩ := Option.bind_eq_some_iff.1 he
  obtain ⟨r, hr, he⟩ := Option.bind_eq_some_iff.1 he
  obtain rfl := Option.some.inj he
  exact onList_thread hr

@[simp] theorem setState_idle {st : ThreadState} :
    ((s.setState p st).thread q).idle = (s.thread q).idle := by
  unfold setState
  by_cases hq : q = p
  · rw [hq]
    simp
  · simp [hq]

theorem pickFrom_idle {r : ThreadList × Option Ptr} (he : pickFrom prid fuel s = some r) (q : Ptr) :
    (r.1.thread q).idle = (s.thread q).idle := by
  induction fuel generalizing s with
  | zero => cases he
  | succ fuel ih =>
    obtain ⟨⟨s₁, ptr⟩, he₁, he⟩ := Option.bind_eq_some_iff.1 he
    have h₁ : s₁.thread = s.thread := onList_thread he₁
    cases ptr with
    | none =>
      rw [onList_thread (id he), h₁]
    | some p =>
      by_cases halive : s₁.alive (s₁.thread p).tuid.pid = false
      · simp only [if_pos halive] at he
        obtain ⟨s₂, he₂, he⟩ := Option.bind_eq_some_iff.1 he
        rw [ih he, insertInto_thread he₂, setState_idle, h₁]
      · simp only [if_neg halive] at he
        obtain rfl := Option.some.inj he
        rw [h₁]

theorem switchTo_idle (he : s.switchTo prid p = some s') (q : Ptr) :
    (s'.thread q).idle = (s.thread q).idle := by
  obtain ⟨⟨s₁, ptr⟩, he₁, he⟩ := Option.bind_eq_some_iff.1 he
  obtain ⟨old, -, he⟩ := Option.bind_eq_some_iff.1 he
  obtain ⟨s₂, he₂, he⟩ := Option.bind_eq_some_iff.1 he
  have h₁ : s₁.thread = s.thread := onList_thread he₁
  rw [insertInto_thread he, setState_idle, insertInto_thread he₂]
  split
  · rw [setState_idle, h₁]
  · rw [h₁]

theorem schedule_idle (he : s.schedule prid = some (s', switched)) (q : Ptr) :
    (s'.thread q).idle = (s.thread q).idle := by
  obtain ⟨⟨s₁, ptr⟩, he₁, he⟩ := Option.bind_eq_some_iff.1 he
  have h₁ : (s₁.thread q).idle = (s.thread q).idle := pickFrom_idle he₁ q
  cases ptr with
  | none =>
    cases he
    exact h₁
  | some p =>
    obtain ⟨s₂, he₂, he⟩ := Option.bind_eq_some_iff.1 he
    cases he
    exact (switchTo_idle he₂ q).trans h₁

/-! ### The thread that runs -/

/-- **After `schedule`** the next thread runs, or the old one when there is no next one. -/
theorem schedule_current (h : Inv gone s seqs [] threads) (hc : prid < s.cpus)
    (he : s.schedule prid = some (s', switched)) :
    s'.current prid = (s.next seqs prid).or (s.current prid) := by
  have hfuel : (seqs .ready).length < (s.lists.list .ready).len + 1 := by
    rw [(h.core.lists.repr .ready).len_eq]
    exact Nat.lt_succ_self _
  obtain ⟨s₁, seqs₁, ptr, he₁, hptr, h₁, hpick⟩ := pickFrom_spec prid h hfuel
  obtain ⟨old, hold, -⟩ := h.busy prid hc
  have hold₁ : seqs₁ (.running prid) = [old] := (hpick.running prid).trans hold
  unfold schedule at he
  simp only [he₁, Option.bind_eq_bind, Option.bind_some] at he
  rw [← hptr]
  cases ptr with
  | none =>
    obtain ⟨rfl, -⟩ := Prod.mk.inj (Option.some.inj he)
    rw [Option.none_or, h₁.core.current hold₁, h.core.current hold]
  | some p =>
    obtain ⟨s₃, he₃, he⟩ := Option.bind_eq_some_iff.1 he
    obtain ⟨rfl, -⟩ := Prod.mk.inj (Option.some.inj he)
    -- it has not panicked, so the state of the old thread names a list
    have hhas : s₁.has (s₁.select prid (s₁.thread old).offState) = true := by
      by_contra hne
      rw [h₁.core.switchTo_none hold₁ (Bool.eq_false_of_not_eq_true hne)] at he₃
      cases he₃
    obtain ⟨s₄, seqs₄, he₄, h₄, hsw⟩ := h₁.core.switchTo (by rwa [hpick.same.cpus]) hold₁ hhas
    rw [he₄] at he₃
    obtain rfl := Option.some.inj he₃
    rw [Option.some_or, h₄.current hsw.next]

namespace World

variable (w : World) (prid : ℕ) (s' : ThreadList)

/-- The first ready thread of a process that is alive. -/
def firstLive : Option Ptr := (w.on .ready).find? w.tlist.live

/-- An idle thread runs after `schedule` only if no live thread was ready and the thread that ran
was not in state `Running`. -/
def IdleLast : Prop :=
  ∀ p old, s'.current prid = some p → w.tlist.current prid = some old →
    (s'.thread p).idle = true →
      (∀ q ∈ w.on .ready, w.tlist.live q = false) ∧ (w.tlist.thread old).state ≠ .running

/-- A lone thread in state `Running` is not displaced by an idle thread. -/
def LoneStays : Prop :=
  ∀ p old, s'.current prid = some p → w.tlist.current prid = some old →
    (∀ q ∈ w.on .ready, w.tlist.live q = false) → (w.tlist.thread old).state = .running →
      (w.tlist.thread old).idle = false → (s'.thread p).idle = false

variable {w prid s'}

theorem firstLive_eq_none : w.firstLive = none ↔ ∀ q ∈ w.on .ready, w.tlist.live q = false := by
  simp [firstLive, List.find?_eq_none]

theorem next_eq (h : Inv gone w.tlist seqs [] w.threads) :
    w.tlist.next seqs prid = w.firstLive.or (w.on (.idle prid)).getLast? := by
  rw [next, firstLive, on_eq h, on_eq h]

theorem idleLast_of_current (hp : s'.current prid = some p) (hold : w.tlist.current prid = some old) :
    w.IdleLast prid s' ↔
      ((s'.thread p).idle = true → w.firstLive = none ∧ (w.tlist.thread old).state ≠ .running) := by
  rw [firstLive_eq_none]
  constructor
  · exact fun h => h p old hp hold
  · intro h p' old' hp' hold'
    obtain rfl := Option.some.inj (hp.symm.trans hp')
    obtain rfl := Option.some.inj (hold.symm.trans hold')
    exact h

theorem loneStays_of_current (hp : s'.current prid = some p) (hold : w.tlist.current prid = some old) :
    w.LoneStays prid s' ↔ (w.firstLive = none → (w.tlist.thread old).state = .running →
      (w.tlist.thread old).idle = false → (s'.thread p).idle = false) := by
  rw [firstLive_eq_none]
  constructor
  · exact fun h => h p old hp hold
  · intro h p' old' hp' hold'
    obtain rfl := Option.some.inj (hp.symm.trans hp')
    obtain rfl := Option.some.inj (hold.symm.trans hold')
    exact h

/-- **Where `schedule` is work-conserving**: if the first live thread on the ready list is no idle
thread, or there is none and the thread that runs is not in state `Running`, or the last thread of
the idle list is not an idle thread.  When the idle list is empty, the thread that runs goes on. -/
theorem idleLast_iff (h : w.Good gone) (hc : prid < w.tlist.cpus)
    (hcur : w.tlist.current prid = some old) (he : w.tlist.schedule prid = some (s', switched)) :
    (w.IdleLast prid s' ↔ match w.firstLive with
      | some q => (w.tlist.thread q).idle = false
      | none => (w.tlist.thread old).state = .running →
          ∀ q ∈ (w.on (.idle prid)).getLast?.or (some old), (w.tlist.thread q).idle = false) ∧
    (w.LoneStays prid s' ↔ w.firstLive.isSome = true ∨ (w.tlist.thread old).state ≠ .running ∨
      (w.tlist.thread old).idle = true ∨
        ∀ q ∈ (w.on (.idle prid)).getLast?, (w.tlist.thread q).idle = false) := by
  obtain ⟨seqs, h⟩ := h
  have hrun := schedule_current h hc he
  rw [next_eq h, hcur] at hrun
  have hidle := schedule_idle he
  cases hfirst : w.firstLive with
  | some q =>
    rw [hfirst, Option.some_or, Option.some_or] at hrun
    rw [idleLast_of_current hrun hcur, loneStays_of_current hrun hcur, hfirst, hidle]
    simp
  | none =>
    rw [hfirst, Option.none_or] at hrun
    cases hlast : (w.on (.idle prid)).getLast? with
    | none =>
      -- the thread that runs goes on
      rw [hlast, Option.none_or] at hrun
      rw [idleLast_of_current hrun hcur, loneStays_of_current hrun hcur, hfirst, hidle]
      simp only [ne_eq, true_and, Option.or_some, Option.getD_none, Option.mem_def,
        Option.some.injEq, forall_eq', imp_self, implies_true, Option.isSome_none,
        Bool.false_eq_true, reduceCtorEq, IsEmpty.forall_iff, or_true, and_true]
      grind
    | some t =>
      rw [hlast, Option.some_or] at hrun
      rw [idleLast_of_current hrun hcur, loneStays_of_current hrun hcur, hfirst, hidle]
      simp only [ne_eq, true_and, Option.or_some, Option.getD_some, Option.mem_def,
        Option.some.injEq, forall_eq', forall_const, Option.isSome_none, Bool.false_eq_true,
        false_or]
      grind

/-- One processor: the cleaner runs, and the idle thread waits. -/
theorem idleLast_iff_sample :
    ∃ w s', (do (← init (fun _ => ⟨0, 0⟩) (fun _ => 0) 1 [2]).step (.schedule 0)) = some w ∧
      w.tlist.schedule 0 = some (s', true) ∧ (w.IdleLast 0 s' ↔ match w.firstLive with
      | some q => (w.tlist.thread q).idle = false
      | none => (w.tlist.thread 1).state = .running →
          ∀ q ∈ (w.on (.idle 0)).getLast?.or (some 1), (w.tlist.thread q).idle = false) ∧
      (w.LoneStays 0 s' ↔ w.firstLive.isSome = true ∨ (w.tlist.thread 1).state ≠ .running ∨
        (w.tlist.thread 1).idle = true ∨
          ∀ q ∈ (w.on (.idle 0)).getLast?, (w.tlist.thread q).idle = false) := by
  obtain ⟨w₀, he₀, h₀ : w₀.Good fun _ => False, -⟩ := init_spec (fun _ => ⟨0, 0⟩) (fun _ => 0)
    (show [1, 2].Nodup by decide) (by decide)
  obtain rfl := Option.some.inj he₀
  obtain ⟨w, he, h⟩ := step_spec (.schedule 0) h₀ (by decide +kernel)
  obtain rfl := Option.some.inj he
  exact ⟨_, _, rfl, rfl, idleLast_iff h (by decide +kernel) (by decide +kernel) rfl⟩

/-- The lone cleaner is displaced by the idle thread. -/
theorem idle_displaces :
    ∃ w s', (do (← init (fun _ => ⟨0, 0⟩) (fun _ => 0) 1 [2]).step (.schedule 0)) = some w ∧
      w.tlist.schedule 0 = some (s', true) ∧ ¬ w.IdleLast 0 s' ∧ ¬ w.LoneStays 0 s' := by
  refine ⟨_, _, rfl, rfl, fun h => ?_, fun h => ?_⟩
  · exact absurd (h 2 1 (by decide +kernel) (by decide +kernel) (by decide +kernel)).2
      (by decide +kernel)
  · exact absurd (h 2 1 (by decide +kernel) (by decide +kernel) (by decide +kernel)
      (by decide +kernel) (by decide +kernel)) (by decide +kernel)

end World
end ThreadList
end AuroraOs
