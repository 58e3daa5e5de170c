import AuroraOs.Arch.IntEntry
import AuroraOs.Sched.Running

/-!
# Switching threads

`rust_int_handler` saves the registers of the thread that an interrupt stops, `schedule` gives it those of the next
thread, and the handler in assembly goes on with them.  `run_resumes`: every thread has the registers that it left
itself, wherever and in between which threads it ran.
-/

namespace AuroraOs.Contexts

open LinkedList Machine Interrupts IntEntry
open ThreadList (World)

/-- `Registers`. -/
abbrev Regs := Interrupts.Registers Context

/-- A processor: what it works with, and the data that switches change. -/
structure Cpu where
  context : Context
  callRsp : ℕ
  callSaveRsp : ℕ
  rsp0 : ℕ

/-- The registers as an interrupt saves them. -/
def Cpu.regs (c : Cpu) : Regs := ⟨c.callRsp, c.callSaveRsp, c.context⟩

/-- A processor that goes on with saved registers. -/
def Cpu.load (regs : Regs) : Cpu := ⟨regs.rest, regs.callRsp, regs.callSaveRsp, regs.callRsp⟩

structure State where
  world : World
  /-- `Thread.regs` -/
  saved : Ptr → Regs
  cpu : ℕ → Cpu

inductive Op
  /-- what runs on a processor goes on, up to some registers -/
  | go (prid : ℕ) (regs : Regs)
  /-- `rust_int_handler` saves the registers, and its handlers go on as part of the thread -/
  | save (prid : ℕ)
  /-- the timer; `due` says that the time of the thread is over -/
  | time (prid nsec : ℕ) (due : Bool)
  /-- `int_sched` -/
  | yield (prid : ℕ)
  /-- a new thread, with its registers -/
  | spawn (ptr : Ptr) (tuid : Tuid) (regs : Regs)
  /-- other steps under the lock -/
  | other (op : ThreadList.Op)

/-! ### Interrupts -/

def IRQ_TIMER : Fin IDT_SIZE := 32

def INT_SCHED : Fin IDT_SIZE := 128

/-- `schedule`, with the thread whose registers it answers with. -/
def schedule (prid : ℕ) (w : World) : Option (World × Option Ptr) := do
  let (tlist, switched) ← w.tlist.schedule prid
  some ({ w with tlist := tlist }, if switched then tlist.current prid else none)

/-- The first processor wakes the sleeping threads. -/
def wakeSleeping (prid nsec : ℕ) (w : World) : Option World := if prid = 0 then w.step (.wakeSleeping nsec) else some w

/-- `time_handler`. -/
def timeHandler (prid nsec : ℕ) (due : Bool) (w : World) : Option (World × Option Ptr) := do
  let w ← wakeSleeping prid nsec w
  if due then schedule prid w else some (w, none)

/-- `int_handler`. -/
def intHandler (prid : ℕ) (w : World) : Option (World × Option Ptr) := do
  let w ← w.step (.wakeWaiting prid)
  schedule prid w

/-- What the scheduler does to the registers, and its answer. -/
def answer (saved : Ptr → Regs) (next : Option Ptr) : IntHandlerFunc Context := fun regs _ =>
  match next with
  | none => (regs, false)
  | some p => (saved p, true)

/-- The handlers after `init`: the timer ticks first, and the scheduler comes last. -/
def idt (vec : Fin IDT_SIZE) (handler : IntHandlerFunc Context) : Idt Context :=
  let ticks := (Handler.first fun regs _ => (regs, false)).register IRQ_TIMER Idt.new
  ((Handler.last handler).register vec ticks.2).2

/-- What `rust_int_handler` does on a processor; the handler in assembly does not set `call_rsp` and
`call_save_rsp`. -/
def handled (c : Cpu) (saved : Ptr → Regs) (vec : Fin IDT_SIZE) (next : Option Ptr) : Handled Context :=
  rustIntHandler vec ⟨0, 0, c.context⟩ 0 ⟨c.callRsp, c.callSaveRsp, c.rsp0, idt vec (answer saved next)⟩

/-- An interrupt on a processor. -/
def interrupt (s : State) (prid : ℕ) (vec : Fin IDT_SIZE) (handler : World → Option (World × Option Ptr)) :
    Option State := do
  let thread ← s.world.tlist.current prid
  let (world, next) ← handler s.world
  let cpu := s.cpu prid
  -- the registers are saved before `schedule` reads those of another thread
  let h := handled cpu (Function.update s.saved thread cpu.regs) vec next
  let cpu := ⟨goOn cpu.context h.regs.rest (if h.changeRegs then 1 else 0), h.data.callRsp, h.data.callSaveRsp, h.data.rsp0⟩
  some ⟨world, Function.update s.saved thread h.threadRegs, Function.update s.cpu prid cpu⟩

/-- A step; `none` is a panic. -/
def step (s : State) : Op → Option State
  | .go prid regs => do
      let _ ← s.world.tlist.current prid
      let cpu := { s.cpu prid with context := regs.rest, callRsp := regs.callRsp, callSaveRsp := regs.callSaveRsp }
      some { s with cpu := Function.update s.cpu prid cpu }
  | .save prid => do
      let thread ← s.world.tlist.current prid
      some { s with saved := Function.update s.saved thread (s.cpu prid).regs }
  | .time prid nsec due => interrupt s prid IRQ_TIMER (timeHandler prid nsec due)
  | .yield prid => interrupt s prid INT_SCHED (intHandler prid)
  | .spawn ptr tuid regs => do
      let world ← s.world.step (.spawn ptr tuid)
      some { s with world := world, saved := Function.update s.saved ptr regs }
  | .other op => do
      let world ← s.world.step op
      some { s with world := world }

/-- A step under the lock that neither switches threads nor starts one. -/
def quiet : ThreadList.Op → Bool
  | .schedule _ | .spawn _ _ => false
  | _ => true

/-- What the code does: a processor that is up, a thread that is new. -/
def Legal (s : State) : Op → Prop
  | .go prid _ | .save prid | .time prid _ _ | .yield prid => prid < s.world.tlist.cpus
  | .spawn ptr tuid _ => s.world.Legal (.spawn ptr tuid)
  | .other op => s.world.Legal op ∧ quiet op = true

instance (s : State) (op : Op) : Decidable (Legal s op) := by
  cases op <;> unfold Legal <;> infer_instance

variable {s s' : State} {prid : ℕ} {vec : Fin IDT_SIZE} {handler : World → Option (World × Option Ptr)} {c : Cpu}
  {saved : Ptr → Regs} {p q : Ptr}

/-! ### What an interrupt does -/

/-- Nothing has changed, whatever the answer is. -/
theorem goOn_regs (c : Cpu) (answer : X64.Word) : goOn c.context c.regs.rest answer = c.context := by
  unfold goOn
  exact (congrArg (ite _ · c.context) (Context.partly_self c.context)).trans (ite_self c.context)

/-- The vectors that the scheduler answers. -/
def Scheduled (vec : Fin IDT_SIZE) : Prop := vec = IRQ_TIMER ∨ vec = INT_SCHED

theorem handled_none (hvec : Scheduled vec) :
    handled c saved vec none = ⟨false, c.regs, c.regs, ⟨c.callRsp, c.callSaveRsp, c.rsp0, idt vec (answer saved none)⟩⟩ := by
  rcases hvec with rfl | rfl <;> rfl

theorem handled_some (hvec : Scheduled vec) :
    handled c saved vec (some p) = ⟨true, saved p, c.regs, ⟨(saved p).callRsp, (saved p).callSaveRsp, (saved p).callRsp,
      idt vec (answer saved (some p))⟩⟩ := by
  rcases hvec with rfl | rfl <;> rfl

/-- The processor after an interrupt. -/
def Cpu.after (c : Cpu) (saved : Ptr → Regs) : Option Ptr → Cpu
  | none => c
  | some p => .load (saved p)

/-- **An interrupt** saves the registers of the thread that runs, and the processor goes on with those of the thread
that the scheduler has chosen. -/
theorem interrupt_spec (hvec : Scheduled vec) (he : interrupt s prid vec handler = some s') :
    ∃ p world next, s.world.tlist.current prid = some p ∧ handler s.world = some (world, next) ∧
      s' = ⟨world, Function.update s.saved p (s.cpu prid).regs,
        Function.update s.cpu prid ((s.cpu prid).after (Function.update s.saved p (s.cpu prid).regs) next)⟩ := by
  obtain ⟨p, hp, he⟩ := Option.bind_eq_some_iff.1 he
  obtain ⟨⟨world, next⟩, hnext, he⟩ := Option.bind_eq_some_iff.1 he
  refine ⟨p, world, next, hp, hnext, (Option.some.inj he).symm.trans ?_⟩
  cases next with
  | none =>
    simp only [handled_none hvec, goOn_regs]
    rfl
  | some q =>
    simp only [handled_some hvec]
    rfl

/-- **The handlers in assembly carry out an interrupt**: the call of `rust_int_handler` finds the registers of the
processor, and with its answer the machine goes on as the processor does. -/
theorem interrupt_runs (K : X64.Setup) (irq : Bool) (entry eoi : ℕ) (m : X64.State) (b : X64.Word) (cs ss : BitVec 16)
    (hvec : Scheduled vec) (he : interrupt s prid vec handler = some s') (hm : contextOf m = (s.cpu prid).context) :
    ∃ p world next t, s.world.tlist.current prid = some p ∧ handler s.world = some (world, next) ∧
      readContext t.mem b = (s.cpu prid).context ∧
      let h := handled (s.cpu prid) (Function.update s.saved p (s.cpu prid).regs) vec next
      ∀ t', K.callee (BitVec.ofNat 64 entry) t = some t' → Calls K irq eoi b t t' →
        readContext t'.mem b = h.regs.rest → (t'.reg .rax).setWidth 8 = (if h.changeRegs then 1 else 0) →
        ∃ u, X64.run K none (asmHandler false irq vec entry eoi)
            (m.interrupt (b + BitVec.ofNat 64 (frameOffset none + 40)) cs ss none) = some u ∧
          contextOf u = (s'.cpu prid).context := by
  obtain ⟨p, world, next, hp, hnext, rfl⟩ := interrupt_spec hvec he
  obtain ⟨t, -, -, -, -, hread, hrun⟩ := asmHandler_resumes K irq vec entry eoi none m b cs ss
  refine ⟨p, world, next, t, hp, hnext, hread.trans hm, fun t' hcall hcalls hregs hanswer => ?_⟩
  obtain ⟨u, hu, hcontext, -⟩ := hrun t' hcall hcalls
  refine ⟨u, hu, ?_⟩
  have hcpu : Function.update s.cpu prid ((s.cpu prid).after (Function.update s.saved p (s.cpu prid).regs) next) prid =
      (s.cpu prid).after (Function.update s.saved p (s.cpu prid).regs) next := Function.update_self _ _ _
  rw [hcontext, hregs, hm]
  refine Eq.trans ?_ (congrArg Cpu.context hcpu).symm
  cases next with
  | none =>
    rw [handled_none hvec]
    exact goOn_regs (s.cpu prid) _
  | some q =>
    rw [handled_some hvec] at hanswer ⊢
    have hchanged : t'.reg .rax ≠ 0 := by
      intro hzero
      rw [hzero] at hanswer
      exact absurd hanswer (by decide : (0 : X64.Word).setWidth 8 ≠ 1)
    exact if_neg hchanged

/-! ### The threads -/

/-- What the threads do: a thread gets registers, as it starts or goes on. -/
def event (s : State) : Op → List (Ptr × Regs)
  | .go prid regs => (s.world.tlist.current prid).toList.map fun p => (p, regs)
  | .spawn ptr _ regs => [(ptr, regs)]
  | _ => []

def events (s : State) : List Op → List (Ptr × Regs)
  | [] => []
  | op :: ops =>
      event s op ++ match step s op with
        | some s => events s ops
        | none => []

/-- Every thread has registers of its own. -/
def play (own : Ptr → Regs) (es : List (Ptr × Regs)) : Ptr → Regs :=
  es.foldl (fun own e => Function.update own e.1 e.2) own

theorem play_append {own : Ptr → Regs} {es es' : List (Ptr × Regs)} : play own (es ++ es') = play (play own es) es' :=
  List.foldl_append

/-- The processors and the saved registers hold the registers of the threads. -/
structure Holds (s : State) (own : Ptr → Regs) : Prop where
  running : ∀ c p, s.world.tlist.current c = some p → (s.cpu c).regs = own p
  waiting : ∀ p ∈ s.world.threads, (∀ c, s.world.tlist.current c ≠ some p) → s.saved p = own p

/-- No thread runs twice. -/
structure Apart (w : World) : Prop where
  once : ∀ c c' p, w.tlist.current c = some p → w.tlist.current c' = some p → c = c'
  mem : ∀ c p, w.tlist.current c = some p → p ∈ w.threads
  busy : ∀ c < w.tlist.cpus, ∃ p, w.tlist.current c = some p

theorem apart_of_good {w : World} (h : w.Good fun _ => False) : Apart w := by
  obtain ⟨seqs, h⟩ := h
  have hlist : ∀ {c p}, w.tlist.current c = some p → p ∈ seqs (.running c) := by
    intro c p hp
    by_cases hc : c < w.tlist.cpus
    · obtain ⟨q, hq, hcur⟩ := h.current hc
      obtain rfl := Option.some.inj (hp.symm.trans hcur)
      simp [hq]
    · rw [ThreadList.current_of_ge (by omega)] at hp
      cases hp
  refine ⟨fun c c' p hp hp' => ?_, fun c p hp => (h.core.mem p).2 (.inr ⟨_, hlist hp⟩), fun c hc => ?_⟩
  · by_contra hne
    exact h.core.lists.disj (.running c) (.running c') (by simpa using hne) p (hlist hp) (hlist hp')
  · obtain ⟨q, -, hcur⟩ := h.current hc
    exact ⟨q, hcur⟩

/-- The registers of a thread: those of the processor that runs it, and the saved ones otherwise. -/
def State.view (s : State) (p : Ptr) : Regs :=
  match (List.range s.world.tlist.cpus).find? fun c => s.world.tlist.current c = some p with
  | some c => (s.cpu c).regs
  | none => s.saved p

theorem holds_view (h : Apart s.world) : Holds s s.view := by
  constructor
  · intro c p hp
    have hc : c < s.world.tlist.cpus := by
      by_contra hge
      rw [ThreadList.current_of_ge (by omega)] at hp
      cases hp
    unfold State.view
    cases hfind : (List.range s.world.tlist.cpus).find? fun c => s.world.tlist.current c = some p with
    | none =>
      have hno := List.find?_eq_none.1 hfind c (List.mem_range.2 hc)
      simp [hp] at hno
    | some c' =>
      have hc' : s.world.tlist.current c' = some p := by simpa using List.find?_some hfind
      rw [h.once c c' p hp hc']
  · intro p _ hno
    unfold State.view
    have hfind : ((List.range s.world.tlist.cpus).find? fun c => s.world.tlist.current c = some p) = none := by
      simp [hno]
    rw [hfind]

/-! ### What a step does to the running threads -/

section World

variable {w w' w₁ : World} {op : ThreadList.Op} {next : Option Ptr}

/-- A step that leaves the running threads, and may free others. -/
structure Leaves (w w' : World) : Prop where
  good : w'.Good fun _ => False
  current : ∀ c, w'.tlist.current c = w.tlist.current c
  threads : w'.threads ⊆ w.threads
  cpus : w'.tlist.cpus = w.tlist.cpus

theorem leaves_quiet (h : w.Good fun _ => False) (hL : w.Legal op) (hop : quiet op = true) (he : w.step op = some w') :
    Leaves w w' := by
  obtain ⟨w₂, he₂, hgood⟩ := ThreadList.World.step_spec op h hL
  obtain rfl := Option.some.inj (he.symm.trans he₂)
  obtain ⟨seqs, hinv⟩ := h
  have hsuff : ThreadList.StillRuns w.tlist w'.tlist → w'.threads ⊆ w.threads → Leaves w w' := fun hs hsub =>
    ⟨hgood, hs.current, hsub, hs.cpus⟩
  cases op with
  | schedule prid | spawn ptr tuid => cases hop
  | wakeSleeping nsec =>
    obtain ⟨s, hs, rfl⟩ := Option.map_eq_some_iff.1 he
    exact hsuff (ThreadList.wakeSleeping_stillRuns hs) (List.Subset.refl _)
  | wakeWaiting prid =>
    obtain ⟨s, hs, rfl⟩ := Option.map_eq_some_iff.1 he
    obtain ⟨p, -, hs⟩ := Option.bind_eq_some_iff.1 hs
    exact hsuff (ThreadList.wakeAll_stillRuns hinv rfl (by simp [ThreadList.select]) (by simp [ThreadList.select]) hs)
      (List.Subset.refl _)
  | stateMove prid oldState newState count =>
    obtain ⟨r, hr, rfl⟩ := Option.map_eq_some_iff.1 he
    exact hsuff (ThreadList.innerStateMove_stillRuns hr) (List.Subset.refl _)
  | wakeJoining prid tuid =>
    obtain ⟨s, hs, rfl⟩ := Option.map_eq_some_iff.1 he
    exact hsuff (ThreadList.wakeAll_stillRuns hinv rfl (by simp [ThreadList.select]) (by simp [ThreadList.select]) hs)
      (List.Subset.refl _)
  | sweep refCount =>
    obtain ⟨s, hs, rfl⟩ := Option.map_eq_some_iff.1 he
    exact hsuff (ThreadList.sweep_stillRuns hs) (List.Subset.refl _)
  | reap =>
    obtain ⟨⟨s, ptr⟩, hs, he⟩ := Option.bind_eq_some_iff.1 he
    have hpop : ThreadList.StillRuns w.tlist s := ThreadList.onList_stillRuns hs (by simp [ListOp.list])
    cases ptr with
    | none =>
      obtain rfl := Option.some.inj he
      exact hsuff hpop (List.Subset.refl _)
    | some p =>
      obtain rfl := Option.some.inj he
      exact hsuff hpop fun q hq => List.mem_of_mem_filter hq
  | setOwn prid state =>
    obtain ⟨p, -, he⟩ := Option.bind_eq_some_iff.1 he
    obtain rfl := Option.some.inj he
    exact hsuff ⟨rfl, fun _ => rfl⟩ (List.Subset.refl _)
  | ensure id | terminate pid =>
    obtain rfl := Option.some.inj he
    exact hsuff ⟨rfl, fun _ => rfl⟩ (List.Subset.refl _)

theorem spawn_leaves {ptr : Ptr} {tuid : Tuid} (h : w.Good fun _ => False) (hL : w.Legal (.spawn ptr tuid))
    (he : w.step (.spawn ptr tuid) = some w') :
    (w'.Good fun _ => False) ∧ (∀ c, w'.tlist.current c = w.tlist.current c) ∧ w'.threads = ptr :: w.threads ∧
      w'.tlist.cpus = w.tlist.cpus := by
  obtain ⟨w₂, he₂, hgood⟩ := ThreadList.World.step_spec _ h hL
  obtain rfl := Option.some.inj (he.symm.trans he₂)
  obtain ⟨s, hs, he⟩ := Option.bind_eq_some_iff.1 he
  obtain rfl := Option.some.inj he
  have hinsert := ThreadList.insertInto_stillRuns hs (by simp)
  have hstill : ThreadList.StillRuns w.tlist s := ⟨hinsert.cpus, hinsert.list⟩
  exact ⟨hgood, hstill.current, rfl, hstill.cpus⟩

/-- What the scheduler chooses: to go on, or a thread that does not run. -/
structure Chooses (w w' : World) (prid : ℕ) (next : Option Ptr) : Prop where
  good : w'.Good fun _ => False
  threads : w'.threads ⊆ w.threads
  cpus : w'.tlist.cpus = w.tlist.cpus
  none : next = none → ∀ c, w'.tlist.current c = w.tlist.current c
  some : ∀ p, next = some p → ThreadList.SwitchesTo w.tlist w'.tlist w.threads prid p

theorem chooses_schedule (h : w.Good fun _ => False) (hc : prid < w.tlist.cpus)
    (he : schedule prid w = some (w', next)) : Chooses w w' prid next := by
  obtain ⟨⟨s, switched⟩, hs, he⟩ := Option.bind_eq_some_iff.1 he
  obtain ⟨rfl, rfl⟩ := Prod.mk.inj (Option.some.inj he)
  have hstep : w.step (.schedule prid) = Option.some { w with tlist := s } := by
    rw [ThreadList.World.step, hs]
    rfl
  obtain ⟨w₂, he₂, hgood⟩ := ThreadList.World.step_spec (.schedule prid) h hc
  rw [hstep] at he₂
  obtain rfl := Option.some.inj he₂
  obtain ⟨seqs, hinv⟩ := h
  have hrun := ThreadList.schedule_running hinv hc hs
  obtain ⟨s₃, seqs₃, sw, hs₃, -, hsame⟩ := ThreadList.schedule_spec hinv hc (by simp [ThreadList.Late])
  rw [hs] at hs₃
  obtain ⟨rfl, rfl⟩ := Prod.mk.inj (Option.some.inj hs₃)
  cases switched with
  | false => exact ⟨hgood, List.Subset.refl _, hsame.cpus, fun _ => hrun, fun p hp => by cases hp⟩
  | true =>
    obtain ⟨q, hq⟩ := hrun
    refine ⟨hgood, List.Subset.refl _, hsame.cpus, fun hnone => ?_, fun p hp => ?_⟩
    · have hcur : s.current prid = Option.none := hnone
      rw [hq.next] at hcur
      cases hcur
    · have hcur : s.current prid = Option.some p := hp
      obtain rfl := Option.some.inj (hq.next.symm.trans hcur)
      exact hq

/-- A choice after a step that leaves the running threads. -/
theorem Chooses.after (h : Leaves w w₁) (h' : Chooses w₁ w' prid next) : Chooses w w' prid next where
  good := h'.good
  threads := fun p hp => h.threads (h'.threads hp)
  cpus := h'.cpus.trans h.cpus
  none hnext c := (h'.none hnext c).trans (h.current c)
  some p hp := by
    have hsw := h'.some p hp
    exact ⟨hsw.next, fun c hne => (hsw.other c hne).trans (h.current c), fun c => by
      rw [← h.current c]
      exact hsw.idle c, h.threads hsw.thread⟩

theorem chooses_intHandler (h : w.Good fun _ => False) (hc : prid < w.tlist.cpus)
    (he : intHandler prid w = some (w', next)) : Chooses w w' prid next := by
  obtain ⟨w₁, he₁, he⟩ := Option.bind_eq_some_iff.1 he
  have hleaves : Leaves w w₁ := @leaves_quiet w w₁ (.wakeWaiting prid) h hc rfl he₁
  exact .after hleaves (chooses_schedule hleaves.good (by rwa [hleaves.cpus]) he)

theorem chooses_timeHandler {nsec : ℕ} {due : Bool} (h : w.Good fun _ => False) (hc : prid < w.tlist.cpus)
    (he : timeHandler prid nsec due w = some (w', next)) : Chooses w w' prid next := by
  obtain ⟨w₁, he₁, he⟩ := Option.bind_eq_some_iff.1 he
  have hleaves : Leaves w w₁ := by
    unfold wakeSleeping at he₁
    split at he₁
    · exact @leaves_quiet w w₁ (.wakeSleeping nsec) h trivial rfl he₁
    · obtain rfl := Option.some.inj he₁
      exact ⟨h, fun _ => rfl, List.Subset.refl _, rfl⟩
  cases due with
  | true => exact .after hleaves (chooses_schedule hleaves.good (by rwa [hleaves.cpus]) he)
  | false =>
    obtain ⟨rfl, rfl⟩ := Prod.mk.inj (Option.some.inj he)
    exact ⟨hleaves.good, hleaves.threads, hleaves.cpus, fun _ => hleaves.current, fun p hp => by cases hp⟩

theorem schedule_some (h : w.Good fun _ => False) (hc : prid < w.tlist.cpus) :
    ∃ w' next, schedule prid w = some (w', next) := by
  obtain ⟨w₁, he, -⟩ := ThreadList.World.step_spec (.schedule prid) h hc
  obtain ⟨r, hr, -⟩ := Option.map_eq_some_iff.1 he
  rw [schedule, hr]
  exact ⟨_, _, rfl⟩

theorem intHandler_some (h : w.Good fun _ => False) (hc : prid < w.tlist.cpus) :
    ∃ w' next, intHandler prid w = some (w', next) := by
  obtain ⟨w₁, he, -⟩ := ThreadList.World.step_spec (.wakeWaiting prid) h hc
  have hleaves : Leaves w w₁ := @leaves_quiet w w₁ (.wakeWaiting prid) h hc rfl he
  rw [intHandler, he]
  exact schedule_some hleaves.good (by rwa [hleaves.cpus])

theorem timeHandler_some {nsec : ℕ} {due : Bool} (h : w.Good fun _ => False) (hc : prid < w.tlist.cpus) :
    ∃ w' next, timeHandler prid nsec due w = some (w', next) := by
  obtain ⟨w₁, he, hleaves⟩ : ∃ w₁, wakeSleeping prid nsec w = some w₁ ∧ Leaves w w₁ := by
    unfold wakeSleeping
    split
    · obtain ⟨w₁, he, -⟩ := ThreadList.World.step_spec (.wakeSleeping nsec) h trivial
      exact ⟨w₁, he, @leaves_quiet w w₁ (.wakeSleeping nsec) h trivial rfl he⟩
    · exact ⟨w, rfl, h, fun _ => rfl, List.Subset.refl _, rfl⟩
  rw [timeHandler, he]
  cases due with
  | true => exact schedule_some hleaves.good (by rwa [hleaves.cpus])
  | false => exact ⟨_, _, rfl⟩

end World

/-! ### Steps and runs -/

section Run

variable {own : Ptr → Regs} {op : Op} {ops : List Op}

/-- The invariant. -/
structure Good (s : State) (own : Ptr → Regs) : Prop where
  world : s.world.Good fun _ => False
  holds : Holds s own

/-- **An interrupt leaves the registers of every thread**, whichever thread is chosen. -/
theorem Good.interrupt (h : Good s own) (hvec : Scheduled vec) (he : interrupt s prid vec handler = some s')
    (hchooses : ∀ world next, handler s.world = some (world, next) → Chooses s.world world prid next) : Good s' own := by
  obtain ⟨old, world, next, hold, hnext, rfl⟩ := interrupt_spec hvec he
  have hworld := hchooses world next hnext
  have hregs : (s.cpu prid).regs = own old := h.holds.running prid old hold
  refine ⟨hworld.good, ?_⟩
  cases next with
  | none =>
    have hcur := hworld.none rfl
    refine ⟨fun c p hp => ?_, fun p hp hno => ?_⟩
    · rw [hcur] at hp
      by_cases hc : c = prid
      · rw [hc] at hp ⊢
        simpa [Cpu.after] using h.holds.running prid p hp
      · simpa [hc] using h.holds.running c p hp
    · have hne : p ≠ old := by
        rintro rfl
        exact hno prid ((hcur prid).trans hold)
      have hwait := h.holds.waiting p (hworld.threads hp) fun c => by
        rw [← hcur c]
        exact hno c
      simpa [hne] using hwait
  | some q =>
    have hsw := hworld.some q rfl
    have hne : q ≠ old := by
      rintro rfl
      exact hsw.idle prid hold
    have hsaved : Function.update s.saved old (s.cpu prid).regs q = own q := by
      rw [Function.update_of_ne hne]
      exact h.holds.waiting q hsw.thread hsw.idle
    refine ⟨fun c p hp => ?_, fun p hp hno => ?_⟩
    · by_cases hc : c = prid
      · rw [hc] at hp ⊢
        obtain rfl := Option.some.inj (hsw.next.symm.trans hp)
        simpa [Cpu.after, Cpu.load, Cpu.regs] using hsaved
      · rw [hsw.other c hc] at hp
        simpa [hc] using h.holds.running c p hp
    · by_cases heq : p = old
      · simpa [heq] using hregs
      · have hwait := h.holds.waiting p (hworld.threads hp) fun c hcur => by
          by_cases hc : c = prid
          · rw [hc, hold] at hcur
            exact heq (Option.some.inj hcur).symm
          · exact hno c ((hsw.other c hc).trans hcur)
        simpa [heq] using hwait

/-- **A step** goes through the registers of the threads as the threads do. -/
theorem Good.step (h : Good s own) (hL : Legal s op) (he : step s op = some s') : Good s' (play own (event s op)) := by
  have hapart := apart_of_good h.world
  cases op with
  | go prid regs =>
    obtain ⟨p, hp, he⟩ := Option.bind_eq_some_iff.1 he
    obtain rfl := Option.some.inj he
    have hevent : play own (event s (.go prid regs)) = Function.update own p regs := by simp [event, hp, play]
    rw [hevent]
    refine ⟨h.world, fun c q hq => ?_, fun q hq hno => ?_⟩
    · by_cases hc : c = prid
      · rw [hc] at hq ⊢
        obtain rfl := Option.some.inj (hp.symm.trans hq)
        simp [Cpu.regs]
      · have hne : q ≠ p := by
          rintro rfl
          exact hc (hapart.once c prid q hq hp)
        simpa [hc, hne] using h.holds.running c q hq
    · have hne : q ≠ p := by
        rintro rfl
        exact hno prid hp
      simpa [hne] using h.holds.waiting q hq hno
  | save prid =>
    obtain ⟨p, hp, he⟩ := Option.bind_eq_some_iff.1 he
    obtain rfl := Option.some.inj he
    refine ⟨h.world, h.holds.running, fun q hq hno => ?_⟩
    have hne : q ≠ p := by
      rintro rfl
      exact hno prid hp
    show Function.update s.saved p (s.cpu prid).regs q = own q
    rw [Function.update_of_ne hne]
    exact h.holds.waiting q hq hno
  | time prid nsec due => exact h.interrupt (.inl rfl) he fun _ _ => chooses_timeHandler h.world hL
  | yield prid => exact h.interrupt (.inr rfl) he fun _ _ => chooses_intHandler h.world hL
  | spawn ptr tuid regs =>
    obtain ⟨w, hw, he⟩ := Option.bind_eq_some_iff.1 he
    obtain rfl := Option.some.inj he
    obtain ⟨hgood, hcur, hthreads, -⟩ := spawn_leaves h.world hL hw
    refine ⟨hgood, fun c q hq => ?_, fun q hq hno => ?_⟩
    · rw [hcur] at hq
      have hne : q ≠ ptr := by
        rintro rfl
        exact hL.2 (hapart.mem c q hq)
      simpa [play, event, hne] using h.holds.running c q hq
    · by_cases heq : q = ptr
      · simp [play, event, heq]
      · have hq' : q ∈ s.world.threads := by
          rw [hthreads] at hq
          exact (List.mem_cons.1 hq).resolve_left heq
        simpa [play, event, heq] using h.holds.waiting q hq' fun c => by
          rw [← hcur c]
          exact hno c
  | other op =>
    obtain ⟨w, hw, he⟩ := Option.bind_eq_some_iff.1 he
    obtain rfl := Option.some.inj he
    have hleaves := leaves_quiet h.world hL.1 hL.2 hw
    refine ⟨hleaves.good, fun c q hq => ?_, fun q hq hno => ?_⟩
    · rw [hleaves.current] at hq
      exact h.holds.running c q hq
    · exact h.holds.waiting q (hleaves.threads hq) fun c => by
        rw [← hleaves.current c]
        exact hno c

theorem interrupt_some (h : Apart s.world) (hc : prid < s.world.tlist.cpus)
    (hh : ∃ w next, handler s.world = some (w, next)) : ∃ s', interrupt s prid vec handler = some s' := by
  obtain ⟨p, hp⟩ := h.busy prid hc
  obtain ⟨w, next, hh⟩ := hh
  rw [interrupt, hp, Option.bind_eq_bind, Option.bind_some, hh]
  exact ⟨_, rfl⟩

/-- No step panics. -/
theorem step_some (h : s.world.Good fun _ => False) (hL : Legal s op) : ∃ s', step s op = some s' := by
  have hapart := apart_of_good h
  cases op with
  | go prid regs | save prid =>
    obtain ⟨p, hp⟩ := hapart.busy prid hL
    rw [step, hp]
    exact ⟨_, rfl⟩
  | time prid nsec due => exact interrupt_some hapart hL (timeHandler_some h hL)
  | yield prid => exact interrupt_some hapart hL (intHandler_some h hL)
  | spawn ptr tuid regs =>
    obtain ⟨w, hw, -⟩ := ThreadList.World.step_spec (.spawn ptr tuid) h hL
    rw [step, hw]
    exact ⟨_, rfl⟩
  | other op =>
    obtain ⟨w, hw, -⟩ := ThreadList.World.step_spec op h hL.1
    rw [step, hw]
    exact ⟨_, rfl⟩

theorem run_good (h : Good s own) (hL : Along step Legal s ops) :
    ∃ s', run step s ops = some s' ∧ Good s' (play own (events s ops)) := by
  induction ops generalizing s own with
  | nil => exact ⟨s, rfl, h⟩
  | cons op ops ih =>
    obtain ⟨s₁, he₁⟩ := step_some h.world hL.1
    obtain ⟨s₂, he₂, h₂⟩ := ih (h.step hL.1 he₁) (hL.2 s₁ he₁)
    have hrun : run step s (op :: ops) = (step s op).bind fun s' => run step s' ops := rfl
    refine ⟨s₂, by rw [hrun, he₁, Option.bind_some, he₂], ?_⟩
    rw [events, he₁, play_append]
    exact h₂

/-- **Threads do not notice that others run**: after any run on any number of processors, a processor works with the
registers of the thread that it runs, the other threads have theirs saved, and these are the registers that each thread
left itself. -/
theorem run_resumes (mem : NodeMem) (fuid : Ptr → ℕ) (cleaner : Ptr) (idle : List Ptr) (hnd : (cleaner :: idle).Nodup)
    (hnull : null ∉ cleaner :: idle) (saved : Ptr → Regs) (cpu : ℕ → Cpu) :
    ∃ w₀, World.init mem fuid cleaner idle = some w₀ ∧
      ∀ ops, Along step Legal ⟨w₀, saved, cpu⟩ ops → ∃ s, run step ⟨w₀, saved, cpu⟩ ops = some s ∧
        (∀ c < s.world.tlist.cpus, ∃ p, s.world.tlist.current c = some p ∧
          (s.cpu c).regs = play (State.view ⟨w₀, saved, cpu⟩) (events ⟨w₀, saved, cpu⟩ ops) p) ∧
        ∀ p ∈ s.world.threads, (∀ c, s.world.tlist.current c ≠ some p) →
          s.saved p = play (State.view ⟨w₀, saved, cpu⟩) (events ⟨w₀, saved, cpu⟩ ops) p := by
  obtain ⟨w₀, he₀, h₀, -⟩ := @ThreadList.World.init_spec (fun _ => False) mem fuid cleaner idle hnd hnull
  refine ⟨w₀, he₀, fun ops hops => ?_⟩
  obtain ⟨s, he, h⟩ := run_good ⟨h₀, holds_view (apart_of_good h₀)⟩ hops
  refine ⟨s, he, fun c hc => ?_, h.holds.waiting⟩
  obtain ⟨p, hp⟩ := (apart_of_good h.world).busy c hc
  exact ⟨p, hp, h.holds.running c p hp⟩

/-- A context in which every register has one value. -/
def fullOf (v : X64.Word) : Context := ⟨fun _ => v, v, v, 8, 16⟩

/-- The cleaner runs on the first processor, and goes on on the second one. -/
def migration : List Op := [.time 0 10 true, .go 0 ⟨5, 6, fullOf 7⟩, .time 0 20 true, .time 1 20 true]

theorem run_resumes_migration :
    ∃ w₀, World.init (fun _ => ⟨0, 0⟩) (fun _ => 0) 1 [2, 3] = some w₀ ∧
      ∃ s, run step ⟨w₀, fun _ => ⟨0, 0, fullOf 0⟩, fun _ => ⟨fullOf 0, 0, 0, 0⟩⟩ migration = some s ∧
        ∀ c < s.world.tlist.cpus, ∃ p, s.world.tlist.current c = some p ∧
          (s.cpu c).regs = play (State.view ⟨w₀, fun _ => ⟨0, 0, fullOf 0⟩, fun _ => ⟨fullOf 0, 0, 0, 0⟩⟩)
            (events ⟨w₀, fun _ => ⟨0, 0, fullOf 0⟩, fun _ => ⟨fullOf 0, 0, 0, 0⟩⟩ migration) p := by
  obtain ⟨w₀, he, h⟩ := run_resumes (fun _ => ⟨0, 0⟩) (fun _ => 0) 1 [2, 3] (by decide) (by decide)
    (fun _ => ⟨0, 0, fullOf 0⟩) (fun _ => ⟨fullOf 0, 0, 0, 0⟩)
  have hlegal : Along step Legal ⟨w₀, fun _ => ⟨0, 0, fullOf 0⟩, fun _ => ⟨fullOf 0, 0, 0, 0⟩⟩ migration := by
    obtain rfl := Option.some.inj he
    decide +kernel
  obtain ⟨s, hs, hcpu, -⟩ := h migration hlegal
  exact ⟨w₀, he, s, hs, hcpu⟩

end Run

end AuroraOs.Contexts
