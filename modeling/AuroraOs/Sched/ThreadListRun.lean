import AuroraOs.Sched.ThreadListInvariant

/-!
# Runs of the scheduler

The steps that take the lock of the thread lists, from the state after `sched::init` on any number
of processors.  `run_placed`: no step panics, every thread that the cleaner has not freed is on one
list, a thread that is neither running nor with the cleaner is on the list that its state names, and
every processor runs one thread.
-/

namespace AuroraOs

open LinkedList Machine

namespace ThreadList

/-- The lists and the threads that are not freed. -/
structure World where
  tlist : ThreadList
  threads : List Ptr

/-- A step under the lock. -/
inductive Op
  /-- `schedule` on a processor -/
  | schedule (prid : ℕ)
  /-- the loop of `time_handler` -/
  | wakeSleeping (nsec : ℕ)
  /-- the loop of `int_handler` -/
  | wakeWaiting (prid : ℕ)
  /-- `inner_state_move` -/
  | stateMove (prid : ℕ) (oldState newState : ThreadState) (count : ℕ)
  /-- the loop of `Process::remove_thread` -/
  | wakeJoining (prid : ℕ) (tuid : Tuid)
  /-- the sweep of `thread_cleaner`, with the reference counts it reads -/
  | sweep (refCount : Ptr → ℕ)
  /-- `thread_cleaner` frees a thread -/
  | reap
  /-- the running thread sets its own state -/
  | setOwn (prid : ℕ) (state : ThreadState)
  /-- `ensure` -/
  | ensure (id : ListId)
  /-- a new thread -/
  | spawn (ptr : Ptr) (tuid : Tuid)
  /-- the end of a process -/
  | terminate (pid : ℕ)

/-- The step neither starts nor frees a thread. -/
def Op.keeps : Op → Bool
  | .spawn _ _ | .reap => false
  | _ => true

namespace World

variable (w : World)

/-- The threads on a list, in order. -/
def on (id : ListId) : List Ptr := LinkedList.nodes w.tlist.lists.mem (w.tlist.lists.list id)

/-- A step; `none` is a panic. -/
def step : Op → Option World
  | .schedule prid => (w.tlist.schedule prid).map fun r => { w with tlist := r.1 }
  | .wakeSleeping nsec => (w.tlist.wakeSleeping nsec).map fun s => { w with tlist := s }
  | .wakeWaiting prid => (w.tlist.wakeWaiting prid).map fun s => { w with tlist := s }
  | .stateMove prid oldState newState count =>
      (w.tlist.innerStateMove prid oldState newState count).map fun r => { w with tlist := r.1 }
  | .wakeJoining prid tuid => (w.tlist.wakeAll prid (.join tuid)).map fun s => { w with tlist := s }
  | .sweep refCount => (w.tlist.sweep refCount).map fun s => { w with tlist := s }
  | .reap => do
      let (s, ptr) ← w.tlist.onList (.popFront .cleaner)
      match ptr with
      | some ptr => some ⟨s, w.threads.filter (· ≠ ptr)⟩
      | none => some { w with tlist := s }
  | .setOwn prid state => do
      let ptr ← w.tlist.current prid
      some { w with tlist := w.tlist.setState ptr state }
  | .ensure id =>
      some { w with tlist := { w.tlist with nodes := Function.update w.tlist.nodes id true } }
  | .spawn ptr tuid => do
      let s := { w.tlist with thread := Function.update w.tlist.thread ptr ⟨.ready, false, tuid⟩ }
      let s ← s.insertInto 0 ptr
      some ⟨s, ptr :: w.threads⟩
  | .terminate pid =>
      some { w with tlist := { w.tlist with alive := Function.update w.tlist.alive pid false } }

/-- What the code calls a step with: a processor that is up, a state whose list is there, a thread
that is new. -/
def Legal : Op → Prop
  | .schedule prid | .wakeWaiting prid | .wakeJoining prid _ => prid < w.tlist.cpus
  | .stateMove prid oldState newState _ =>
      prid < w.tlist.cpus ∧ oldState ≠ .running ∧ newState ≠ .running
  | .setOwn prid state => prid < w.tlist.cpus ∧ w.tlist.has (w.tlist.select prid state) = true
  | .spawn ptr _ => ptr ≠ null ∧ ptr ∉ w.threads
  | .wakeSleeping _ | .sweep _ | .reap | .ensure _ | .terminate _ => True

instance (op : Op) : Decidable (w.Legal op) := by
  cases op <;> unfold Legal <;> infer_instance

/-- The lists before a processor is up. -/
def new (mem : NodeMem) (fuid : Ptr → ℕ) : World where
  tlist :=
    { lists := ⟨mem, fun _ => LinkedList.new⟩
      cpus := 0
      nodes := fun _ => false
      thread := fun _ => ⟨.ready, false, ⟨0, 0⟩⟩
      alive := fun _ => true
      fuid := fuid }
  threads := []

/-- `init` and `ap_init`: the next processor runs its idle thread. -/
def apInit (ptr : Ptr) (tuid : Tuid) : Option World := do
  let s := { w.tlist with
    cpus := w.tlist.cpus + 1, thread := Function.update w.tlist.thread ptr ⟨.running, true, tuid⟩ }
  let s ← s.insertInto w.tlist.cpus ptr
  some ⟨s, ptr :: w.threads⟩

/-- The processors come up one after the other; `tid` is the next thread id of the kernel. -/
def apInits (w : World) (tid : ℕ) : List Ptr → Option World
  | [] => some w
  | ptr :: ptrs => do apInits (← w.apInit ptr ⟨0, tid⟩) (tid + 1) ptrs

/-- The state after `init` on every processor: the thread of `thread_cleaner` is ready, and each
processor runs its idle thread. -/
def init (mem : NodeMem) (fuid : Ptr → ℕ) (cleaner : Ptr) (idle : List Ptr) : Option World := do
  apInits (← (new mem fuid).step (.spawn cleaner ⟨0, 0⟩)) 1 idle

/-- Where the threads are. -/
structure Placed : Prop where
  represents : ∀ id, Represents w.tlist.lists.mem (w.tlist.lists.list id) (w.on id)
  unique : ∀ p, p ∈ w.threads ↔ ∃! id, p ∈ w.on id
  own : ∀ id, ∀ p ∈ w.on id, id.free = false →
    ∃ prid, id = w.tlist.select prid (w.tlist.thread p).state
  running : ∀ prid < w.tlist.cpus, ∃ p, w.on (.running prid) = [p]

/-! ### Steps -/

/-- The lists hold some sequences, and every processor runs a thread. -/
def Good (gone : Tuid → Prop) : Prop := ∃ seqs, Inv gone w.tlist seqs [] w.threads

/-- `schedule` finds a thread to switch to. -/
def hasNext (prid : ℕ) : Bool :=
  (w.on .ready).any (fun p => w.tlist.alive (w.tlist.thread p).tuid.pid) ||
    !(w.on (.idle prid)).isEmpty

/-- A step puts threads of a state on the list of that state. -/
def Enters : Op → ThreadState → Prop
  | .schedule prid, st => w.hasNext prid = true ∧
      ∃ p, w.tlist.current prid = some p ∧ st = (w.tlist.thread p).state
  | .stateMove _ _ newState _, st => st = newState
  | _, _ => False

variable {w} {gone : Tuid → Prop} {seqs : ListId → List Ptr} {n : ℕ}

theorem on_eq (h : Inv gone w.tlist seqs [] w.threads) (id : ListId) : w.on id = seqs id :=
  (h.core.lists.repr id).nodes_eq

theorem hasNext_iff (h : Inv gone w.tlist seqs [] w.threads) (prid : ℕ) :
    w.hasNext prid = true ↔ HasNext w.tlist seqs prid := by
  simp [hasNext, HasNext, on_eq h]

theorem placed_of_good (h : w.Good gone) : w.Placed := by
  obtain ⟨seqs, h⟩ := h
  have hon := on_eq h
  refine ⟨fun id => ?_, fun p => ?_, fun id p hp hfree => ?_, fun prid hc => ?_⟩
  · rw [hon]
    exact (h.core.lists.repr id).represents
  · rw [h.core.mem p]
    constructor
    · rintro (hp | ⟨id, hp⟩)
      · simp at hp
      · refine ⟨id, by simpa only [hon] using hp, fun j hj => ?_⟩
        by_contra hne
        replace hj : p ∈ seqs j := hon j ▸ hj
        exact h.core.lists.disj id j (Ne.symm hne) p hp hj
    · rintro ⟨id, hp, -⟩
      exact .inr ⟨id, by simpa only [hon] using hp⟩
  · rw [hon] at hp
    exact h.core.state id p hp hfree
  · obtain ⟨p, hp, -⟩ := h.busy prid hc
    exact ⟨p, (hon _).trans hp⟩

theorem has_ensure {s : ThreadList} {id j : ListId} (h : s.has j = true) :
    has { s with cpus := s.cpus, nodes := Function.update s.nodes id true } j = true := by
  have hkey : s.nodes j = true → Function.update s.nodes id true j = true := by
    intro hj
    by_cases hid : j = id
    · rw [hid, Function.update_self]
    · rwa [Function.update_of_ne hid]
  cases j <;> first | exact h | exact hkey h

/-- **A new thread** is ready. -/
theorem spawn_spec (h : w.Good gone) {ptr : Ptr} (tuid : Tuid) (hp : ptr ≠ null)
    (hnew : ptr ∉ w.threads) :
    ∃ s, w.step (.spawn ptr tuid) = some ⟨s, ptr :: w.threads⟩ ∧ Good ⟨s, ptr :: w.threads⟩ gone ∧
      s.nodes = w.tlist.nodes ∧ s.cpus = w.tlist.cpus ∧ (s.thread ptr).tuid = tuid ∧
      ∀ q ≠ ptr, s.thread q = w.tlist.thread q := by
  obtain ⟨seqs, h⟩ := h
  have h₁ := h.core.add hp hnew ⟨.ready, false, tuid⟩
  have hself : Function.update w.tlist.thread ptr ⟨.ready, false, tuid⟩ ptr = ⟨.ready, false, tuid⟩ :=
    Function.update_self _ _ _
  obtain ⟨L, he, h₂⟩ := h₁.insertInto 0 (congrArg Thread.state hself) rfl
  refine ⟨_, by simp only [step, he, Option.bind_eq_bind, Option.bind_some], ⟨_, h₂, ?_, fun t ht => ?_⟩,
    rfl, rfl, congrArg Thread.tuid hself, fun q hq => Function.update_of_ne hq _ _⟩
  · refine h.busy.congr (fun c => ?_) fun c q hq => Function.update_of_ne ?_ _ _
    · rw [Function.update_of_ne (by simp [select])]
    · rintro rfl
      exact hnew ((h.core.mem q).2 (.inr ⟨_, hq⟩))
  · rw [Function.update_of_ne (by simp [select])]
    exact h.shut t ht

/-- **The cleaner frees a thread**, if it has one. -/
theorem reap_spec (h : w.Good gone) :
    ∃ s ptr threads, w.step .reap = some ⟨s, threads⟩ ∧ w.tlist.onList (.popFront .cleaner) = some (s, ptr) ∧
      Good ⟨s, threads⟩ gone ∧ s.nodes = w.tlist.nodes ∧ s.cpus = w.tlist.cpus ∧
      s.thread = w.tlist.thread ∧ (∀ p ∈ ptr, p ∈ w.threads) ∧
      ∀ q, q ∈ threads ↔ q ∈ w.threads ∧ q ∉ ptr := by
  obtain ⟨seqs, h⟩ := h
  cases hs : seqs .cleaner with
  | nil =>
    obtain ⟨L, he, h₁⟩ := h.core.takeNone (.popFront .cleaner) trivial (specStep_popFront_nil hs)
    exact ⟨{ w.tlist with lists := L }, none, w.threads,
      by simp only [step, he, Option.bind_eq_bind, Option.bind_some], he, ⟨seqs, h₁, h.busy, h.shut⟩,
      rfl, rfl, rfl, by simp, by simp⟩
  | cons p ps =>
    have hp : p ∈ seqs .cleaner := by simp [hs]
    obtain ⟨L, he, h₁⟩ := h.core.take (.popFront .cleaner) trivial (specStep_popFront_cons hs)
      (by rw [hs])
    refine ⟨{ w.tlist with lists := L }, some p, w.threads.filter (· ≠ p),
      by simp only [step, he, Option.bind_eq_bind, Option.bind_some], he,
      ⟨_, h₁.drop, ?_, fun t ht => h.shut_take hp ht⟩, rfl, rfl, rfl, ?_,
      fun q => by simp [eq_comm (a := p)]⟩
    · refine h.busy.congr (fun c => ?_) fun _ _ _ => rfl
      rw [Function.update_of_ne (by simp)]
    · intro q hq
      obtain rfl := Option.some.inj hq
      exact (h.core.mem p).2 (.inr ⟨.cleaner, hp⟩)

/-- **A step** that neither starts nor frees a thread goes through and keeps the invariant, when
nobody goes to a thread that is gone. -/
theorem keeps_spec (op : Op) (hop : op.keeps = true) (h : w.Good gone) (hL : w.Legal op)
    (hlate : ∀ st, w.Enters op st → ¬ Late gone st) :
    ∃ s, w.step op = some { w with tlist := s } ∧ Good { w with tlist := s } gone ∧
      s.cpus = w.tlist.cpus ∧ (∀ p, (s.thread p).tuid = (w.tlist.thread p).tuid) ∧
      ∀ id, w.tlist.nodes id = true → s.nodes id = true := by
  obtain ⟨seqs, h⟩ := h
  have hsame : ∀ {s : ThreadList}, Same w.tlist s → s.cpus = w.tlist.cpus ∧
      (∀ p, (s.thread p).tuid = (w.tlist.thread p).tuid) ∧
      ∀ id, w.tlist.nodes id = true → s.nodes id = true :=
    fun hs => ⟨hs.cpus, hs.tuid, fun id hid => by rwa [hs.nodes]⟩
  cases op with
  | schedule prid =>
    obtain ⟨p, hp, hcur⟩ := h.current hL
    obtain ⟨s', seqs', b, he, h', hs⟩ := schedule_spec h hL fun hnext old hold => by
      obtain rfl : p = old := by simpa [hp] using hold
      exact hlate _ ⟨(hasNext_iff h prid).2 hnext, p, hcur, rfl⟩
    exact ⟨s', by simp only [step, he, Option.map_some], ⟨seqs', h'⟩, hsame hs⟩
  | wakeSleeping nsec =>
    obtain ⟨s', seqs', he, h', hs⟩ := wakeSleeping_spec h nsec
    exact ⟨s', by simp only [step, he, Option.map_some], ⟨seqs', h'⟩, hsame hs⟩
  | wakeWaiting prid =>
    obtain ⟨s', seqs', he, h', hs⟩ := wakeWaiting_spec h hL
    exact ⟨s', by simp only [step, he, Option.map_some], ⟨seqs', h'⟩, hsame hs⟩
  | stateMove prid oldState newState count =>
    obtain ⟨s', seqs', n, he, h', hs⟩ :=
      innerStateMove_spec h prid count hL.2.1 hL.2.2 (hlate newState rfl)
    exact ⟨s', by simp only [step, he, Option.map_some], ⟨seqs', h'⟩, hsame hs⟩
  | wakeJoining prid tuid =>
    obtain ⟨s', seqs', he, h', hs, -⟩ := wakeAll_spec h prid (.join tuid) rfl (by simp [select])
      (by simp [select])
    exact ⟨s', by simp only [step, he, Option.map_some], ⟨seqs', h'⟩, hsame hs⟩
  | sweep refCount =>
    obtain ⟨s', seqs', he, h', hs⟩ := sweep_spec h refCount
    exact ⟨s', by simp only [step, he, Option.map_some], ⟨seqs', h'⟩, hsame hs⟩
  | setOwn prid state =>
    obtain ⟨p, hp, hcur⟩ := h.current hL.1
    exact ⟨w.tlist.setState p state, by simp only [step, hcur, Option.bind_eq_bind, Option.bind_some],
      ⟨seqs, h.setOwn hp (.inr hL.2)⟩, rfl, fun q => setState_tuid, fun _ h => h⟩
  | ensure id =>
    refine ⟨_, rfl, ⟨seqs, h.grow fun j => has_ensure⟩, rfl, fun _ => rfl, fun j hj => ?_⟩
    show Function.update w.tlist.nodes id true j = true
    by_cases hid : j = id
    · rw [hid, Function.update_self]
    · rwa [Function.update_of_ne hid]
  | terminate pid =>
    obtain ⟨⟨h1, h2, h3, h4, h5, h6⟩, hbusy, hshut⟩ := h
    exact ⟨_, rfl, ⟨seqs, ⟨h1, h2, h3, h4, h5, h6⟩, hbusy, hshut⟩, rfl, fun _ => rfl, fun _ h => h⟩
  | spawn ptr tuid => cases hop
  | reap => cases hop

theorem not_late (st : ThreadState) : ¬ Late (fun _ => False) st := by
  simp [Late]

/-- **A step** of the scheduler goes through and keeps the invariant. -/
theorem step_spec (op : Op) (h : w.Good fun _ => False) (hL : w.Legal op) :
    ∃ w', w.step op = some w' ∧ w'.Good fun _ => False := by
  by_cases hop : op.keeps = true
  · obtain ⟨s, he, h', -⟩ := keeps_spec op hop h hL fun st _ => not_late st
    exact ⟨_, he, h'⟩
  cases op with
  | spawn ptr tuid =>
    obtain ⟨s, he, h', -⟩ := spawn_spec h tuid hL.1 hL.2
    exact ⟨_, he, h'⟩
  | reap =>
    obtain ⟨s, ptr, threads, he, -, h', -⟩ := reap_spec h
    exact ⟨_, he, h'⟩
  | _ => exact absurd rfl hop

theorem good_new (mem : NodeMem) (fuid : Ptr → ℕ) : (new mem fuid).Good gone :=
  ⟨fun _ => [], ⟨⟨fun _ => repr_new mem, fun _ _ _ _ hx => absurd hx (by simp)⟩, by simp, by simp,
    by simp [new], by simp, by simp⟩, fun c hc => absurd hc (by simp [new]), fun _ _ => rfl⟩

/-- **A processor comes up.** -/
theorem apInit_spec (h : w.Good gone) {ptr : Ptr} (tuid : Tuid) (hp : ptr ≠ null)
    (hnew : ptr ∉ w.threads) :
    ∃ s, w.apInit ptr tuid = some ⟨s, ptr :: w.threads⟩ ∧ Good ⟨s, ptr :: w.threads⟩ gone ∧
      (s.thread ptr).tuid = tuid ∧ ∀ q ≠ ptr, s.thread q = w.tlist.thread q := by
  obtain ⟨seqs, h⟩ := h
  have hhas : ∀ id, w.tlist.has id = true →
      has { w.tlist with cpus := w.tlist.cpus + 1, nodes := w.tlist.nodes } id = true := by
    intro id hid
    cases id <;> simp_all [has] <;> omega
  have h₁ := (h.core.grow hhas).add hp hnew ⟨.running, true, tuid⟩
  have hself : Function.update w.tlist.thread ptr ⟨.running, true, tuid⟩ ptr = ⟨.running, true, tuid⟩ :=
    Function.update_self _ _ _
  obtain ⟨L, he, h₂⟩ := h₁.insertInto w.tlist.cpus (congrArg Thread.state hself)
    (decide_eq_true (Nat.lt_succ_self _))
  -- nobody was on the new list
  have hnil : seqs (.running w.tlist.cpus) = [] := by
    by_contra hne
    obtain ⟨q, hq⟩ := List.exists_mem_of_ne_nil _ hne
    have hup : w.tlist.has (.running w.tlist.cpus) = true := h.core.there _ q hq
    simp [has] at hup
  refine ⟨_, by simp only [apInit, he, Option.bind_eq_bind, Option.bind_some],
    ⟨_, h₂, fun c hc => ?_, fun t ht => ?_⟩, congrArg Thread.tuid hself,
    fun q hq => Function.update_of_ne hq _ _⟩
  · rw [select_running]
    rcases eq_or_ne c w.tlist.cpus with rfl | hne
    · refine ⟨ptr, by rw [Function.update_self, hnil, List.nil_append], .inr ?_⟩
      simp only [hself]
      exact decide_eq_true (Nat.lt_succ_self _)
    · obtain ⟨q, hq, hs⟩ := h.busy c (by simp only at hc; omega)
      have hqp : q ≠ ptr := by
        rintro rfl
        exact hnew ((h.core.mem q).2 (.inr ⟨.running c, by simp [hq]⟩))
      refine ⟨q, by rw [Function.update_of_ne (by simpa using hne), hq], ?_⟩
      simp only [Function.update_of_ne hqp]
      exact hs.imp_right (hhas _)
  · rw [Function.update_of_ne (by simp [select])]
    exact h.shut t ht

/-- The threads are numbered below `n`, all of the kernel. -/
def Numbered (w : World) (n : ℕ) : Prop :=
  (∀ p ∈ w.threads, (w.tlist.thread p).tuid.pid = 0 ∧ (w.tlist.thread p).tuid.tid < n) ∧
    ∀ p ∈ w.threads, ∀ q ∈ w.threads, (w.tlist.thread p).tuid = (w.tlist.thread q).tuid → p = q

theorem Numbered.cons (h : w.Numbered n) {s : ThreadList} {p : Ptr}
    (hp : (s.thread p).tuid = ⟨0, n⟩) (hother : ∀ q ≠ p, s.thread q = w.tlist.thread q) :
    Numbered ⟨s, p :: w.threads⟩ (n + 1) := by
  refine ⟨fun q hq => ?_, fun q hq r hr hqr => ?_⟩
  · by_cases hqp : q = p
    · simp only [hqp, hp]
      exact ⟨trivial, Nat.lt_succ_self n⟩
    · obtain ⟨h1, h2⟩ := h.1 q ((List.mem_cons.1 hq).resolve_left hqp)
      simp only [hother q hqp]
      exact ⟨h1, by omega⟩
  · have hne : ∀ q ∈ p :: w.threads, q ≠ p → (s.thread q).tuid ≠ ⟨0, n⟩ := by
      intro q hq hqp heq
      have hlt := (h.1 q ((List.mem_cons.1 hq).resolve_left hqp)).2
      rw [← hother q hqp, heq] at hlt
      exact lt_irrefl _ hlt
    by_cases hqp : q = p <;> by_cases hrp : r = p
    · rw [hqp, hrp]
    · exact absurd (hqr.symm.trans (by simp only [hqp, hp])) (hne r hr hrp)
    · exact absurd (hqr.trans (by simp only [hrp, hp])) (hne q hq hqp)
    · refine h.2 q ((List.mem_cons.1 hq).resolve_left hqp) r ((List.mem_cons.1 hr).resolve_left hrp) ?_
      rwa [← hother q hqp, ← hother r hrp]

/-- **All the processors come up.** -/
theorem apInits_spec (h : w.Good gone) (tid : ℕ) (idle : List Ptr) (hnum : w.Numbered tid) (hnd : idle.Nodup)
    (hidle : ∀ p ∈ idle, p ≠ null ∧ p ∉ w.threads) :
    ∃ w', w.apInits tid idle = some w' ∧ w'.Good gone ∧ w'.Numbered (tid + idle.length) := by
  induction idle generalizing w tid with
  | nil => exact ⟨w, rfl, h, hnum⟩
  | cons p ps ih =>
    obtain ⟨hp, hps⟩ := List.nodup_cons.1 hnd
    obtain ⟨hnull, hnew⟩ := hidle p List.mem_cons_self
    obtain ⟨s, he, h₁, hself, hother⟩ := apInit_spec h ⟨0, tid⟩ hnull hnew
    obtain ⟨w', he', h', hnum'⟩ := ih h₁ (tid + 1) (hnum.cons hself hother) hps fun q hq => by
      obtain ⟨hq0, hqw⟩ := hidle q (List.mem_cons_of_mem p hq)
      refine ⟨hq0, fun hm => ?_⟩
      rcases List.mem_cons.1 hm with rfl | hm
      · exact hp hq
      · exact hqw hm
    refine ⟨w', by simp only [apInits, he, Option.bind_eq_bind, Option.bind_some, he'], h', ?_⟩
    rwa [List.length_cons, Nat.add_comm ps.length, ← Nat.add_assoc]

theorem init_spec (mem : NodeMem) (fuid : Ptr → ℕ) {cleaner : Ptr} {idle : List Ptr}
    (hnd : (cleaner :: idle).Nodup) (hnull : null ∉ cleaner :: idle) :
    ∃ w, init mem fuid cleaner idle = some w ∧ w.Good gone ∧ w.Numbered (idle.length + 1) := by
  obtain ⟨hc, hidle⟩ := List.nodup_cons.1 hnd
  have hnn : ∀ p ∈ cleaner :: idle, p ≠ null := fun p hp hp0 => hnull (hp0 ▸ hp)
  obtain ⟨s, he, h₁, -, -, hself, hother⟩ := spawn_spec (good_new mem fuid) ⟨0, 0⟩
    (hnn cleaner List.mem_cons_self) (show cleaner ∉ [] by simp)
  have hnew : (new mem fuid).Numbered 0 := ⟨by simp [new], by simp [new]⟩
  obtain ⟨w, he', h, hnum⟩ := apInits_spec h₁ 1 idle (hnew.cons hself hother) hidle fun p hp => by
    refine ⟨hnn p (List.mem_cons_of_mem _ hp), fun hm => ?_⟩
    rcases List.mem_cons.1 hm with rfl | hm
    · exact hc hp
    · simp [new] at hm
  rw [Nat.add_comm] at hnum
  exact ⟨w, by simp only [init, he, Option.bind_eq_bind, Option.bind_some, he'], h, hnum⟩

/-- **Every thread is where its state says**, in every run of the steps under the lock from the
state after `init` on any number of processors: no step panics, and after each of them the lists
are sound, a thread that is not freed is on exactly one of them, one that is neither running nor
with the cleaner is on the list that its state names, and every processor runs one thread. -/
theorem run_placed (mem : NodeMem) (fuid : Ptr → ℕ) (cleaner : Ptr) (idle : List Ptr)
    (hnd : (cleaner :: idle).Nodup) (hnull : null ∉ cleaner :: idle) :
    ∃ w₀, init mem fuid cleaner idle = some w₀ ∧
      ∀ ops, Along step Legal w₀ ops → ∃ w, run step w₀ ops = some w ∧ w.Placed := by
  obtain ⟨w₀, he₀, h₀, -⟩ := init_spec mem fuid hnd hnull
  refine ⟨w₀, he₀, fun ops hops => ?_⟩
  obtain ⟨w, he, h⟩ := run_inv (Good · fun _ => False)
    (fun w op h hL => step_spec op h hL) h₀ hops
  exact ⟨w, he, placed_of_good h⟩

/-- Two processors: the cleaner runs and sleeps, a thread joins another one, which is freed. -/
theorem run_placed_sample :
    ∃ w₀, init (fun _ => ⟨0, 0⟩) (fun _ => 0) 1 [2, 3] = some w₀ ∧
      ∃ w, run step w₀ [.schedule 0, .setOwn 0 (.sleep 5), .schedule 0, .spawn 4 ⟨1, 0⟩,
        .spawn 5 ⟨1, 1⟩, .schedule 1, .ensure (.join ⟨1, 1⟩), .setOwn 1 (.join ⟨1, 1⟩), .schedule 1,
        .setOwn 1 .destroy, .wakeSleeping 7, .schedule 1, .sweep fun _ => 0, .reap,
        .wakeJoining 1 ⟨1, 1⟩, .stateMove 0 .ready .destroy 3] = some w ∧ w.Placed := by
  obtain ⟨w₀, he, h⟩ := run_placed (fun _ => ⟨0, 0⟩) (fun _ => 0) 1 [2, 3] (by decide) (by decide)
  refine ⟨w₀, he, h _ ?_⟩
  obtain rfl := Option.some.inj he
  decide +kernel

end World
end ThreadList
end AuroraOs
