import AuroraOs.Sched.ThreadListRun

/-!
# Joining a thread

`block(ThreadState::Join(tuid))` of `kernel/src/sched/mod.rs` with the removal of its target by
`thread_cleaner`: `Thread::dealloc`, `Process::remove_thread` and `dealloc_state`.  A step is one
critical section: of the lock of the thread lists, of the lock of a thread table, or of the state of
a thread.  Between two of them any processor may take any step.
-/

namespace AuroraOs
namespace ThreadList

/-- Where a thread is in `block`. -/
inductive BlockPc
  | out
  /-- `ensure` has found no list -/
  | inserting (tuid : Tuid)
  /-- before `set_state` -/
  | setting (tuid : Tuid)
  /-- before `int_sched` -/
  | switching
  deriving DecidableEq

/-- Where `thread_cleaner` is. -/
inductive CleanerPc
  | popping
  /-- in `remove_thread`, before the thread is taken out of the table -/
  | removing (tuid : Tuid)
  /-- in `remove_thread`, before the joining threads are woken -/
  | waking (tuid : Tuid)
  /-- before `dealloc_state` -/
  | deallocing (tuid : Tuid)
  deriving DecidableEq

/-- The scheduler with the thread tables of the processes and their next thread ids. -/
structure Joins where
  world : World
  table : Tuid → Bool
  nextTid : ℕ → ℕ
  pc : Ptr → BlockPc
  cleaner : CleanerPc

/-- A step. -/
inductive JoinOp
  /-- a step that is not about joining -/
  | sched (op : Op)
  /-- `new_thread_regs` -/
  | spawn (ptr : Ptr) (pid : ℕ)
  /-- the running thread enters `block` -/
  | block (prid : ℕ) (tuid : Tuid)
  /-- the running thread goes on in `block` -/
  | run (prid : ℕ)
  /-- `thread_cleaner` goes on; `upgrade` says whether the process of a thread is still there -/
  | clean (upgrade : Bool)

/-- The step is not about joining. -/
def Op.plain : Op → Bool
  | .spawn _ _ | .reap | .wakeJoining _ _ => false
  | .ensure (.join _) | .setOwn _ (.join _) | .stateMove _ _ (.join _) _ => false
  | _ => true

namespace Joins

variable (j : Joins)

/-- `block` for the thread `ptr`, which runs on processor `prid`. -/
def goOn (prid : ℕ) (ptr : Ptr) : Option Joins :=
  match j.pc ptr with
  | .out => some j
  | .inserting tuid => do
      -- `insert` does not replace a list that somebody else has put there
      let world ← j.world.step (.ensure (.join tuid))
      some { j with world := world, pc := Function.update j.pc ptr (.setting tuid) }
  | .setting tuid =>
      some { j with
        world := { j.world with tlist := j.world.tlist.setState ptr (.join tuid) }
        pc := Function.update j.pc ptr .switching }
  | .switching => do
      let world ← j.world.step (.schedule prid)
      some { j with world := world, pc := Function.update j.pc ptr .out }

/-- A step of `thread_cleaner`. -/
def clean (upgrade : Bool) : Option Joins :=
  match j.cleaner with
  | .popping => do
      let (_, ptr) ← j.world.tlist.onList (.popFront .cleaner)
      let world ← j.world.step .reap
      match ptr with
      | some ptr =>
          let tuid := (j.world.tlist.thread ptr).tuid
          some { j with world := world, cleaner := if upgrade then .removing tuid else .popping }
      | none => some { j with world := world }
  | .removing tuid =>
      if j.table tuid then
        some { j with table := Function.update j.table tuid false, cleaner := .waking tuid }
      else none
  | .waking tuid => do
      let tlist ← j.world.tlist.wakeAll 0 (.join tuid)
      some { j with
        world := { j.world with tlist := tlist }
        cleaner := if j.world.tlist.has (.join tuid) then .deallocing tuid else .popping }
  | .deallocing tuid =>
      if j.world.tlist.has (.join tuid) then
        if (j.world.tlist.lists.list (.join tuid)).len = 0 then
          let nodes := Function.update j.world.tlist.nodes (.join tuid) false
          some { j with
            world := { j.world with tlist := { j.world.tlist with nodes := nodes } }
            cleaner := .popping }
        else none
      else some { j with cleaner := .popping }

/-- A step; `none` is a panic. -/
def step : JoinOp → Option Joins
  | .sched op => (j.world.step op).map fun world => { j with world := world }
  | .spawn ptr pid => do
      let tuid : Tuid := ⟨pid, j.nextTid pid⟩
      let world ← j.world.step (.spawn ptr tuid)
      some { j with
        world := world
        table := Function.update j.table tuid true
        nextTid := Function.update j.nextTid pid (j.nextTid pid + 1)
        pc := Function.update j.pc ptr .out }
  | .block prid tuid => do
      let ptr ← j.world.tlist.current prid
      let pc := if j.world.tlist.has (.join tuid) then .setting tuid else .inserting tuid
      some { j with pc := Function.update j.pc ptr pc }
  | .run prid => do
      let ptr ← j.world.tlist.current prid
      j.goOn prid ptr
  | .clean upgrade => j.clean upgrade

/-- What the code takes a step with: a processor that is up, a thread that is in no call, a new
thread. -/
def Legal : JoinOp → Prop
  | .sched op => op.plain = true ∧ j.world.Legal op
  | .spawn ptr _ => ptr ≠ null ∧ ptr ∉ j.world.threads
  | .block prid _ => prid < j.world.tlist.cpus ∧ ∀ ptr ∈ j.world.tlist.current prid, j.pc ptr = .out
  | .run prid => prid < j.world.tlist.cpus
  | .clean _ => True

instance (op : JoinOp) : Decidable (j.Legal op) := by
  cases op <;> unfold Legal <;> infer_instance

/-- The state after `sched::init`. -/
def init (mem : NodeMem) (fuid : Ptr → ℕ) (cleaner : Ptr) (idle : List Ptr) : Option Joins := do
  let world ← World.init mem fuid cleaner idle
  some
    { world := world
      table := fun tuid => tuid.pid = 0 && tuid.tid < idle.length + 1
      nextTid := fun pid => if pid = 0 then idle.length + 1 else 0
      pc := fun _ => .out
      cleaner := .popping }

/-- The thread is no longer in the thread table of its process, and those that joined it have been
woken. -/
def Gone (tuid : Tuid) : Prop :=
  tuid.tid < j.nextTid tuid.pid ∧ j.table tuid = false ∧ j.cleaner ≠ .waking tuid

instance (tuid : Tuid) : Decidable (j.Gone tuid) := by
  unfold Gone
  infer_instance

/-- The step goes through, and leaves nobody on the join list of a thread that is gone. -/
def Sound (op : JoinOp) : Prop :=
  ∃ j', j.step op = some j' ∧ ∀ tuid, j'.Gone tuid → j'.world.on (.join tuid) = []

/-- The processor that `schedule` is called on. -/
def scheduler : JoinOp → Option ℕ
  | .sched (.schedule prid) => some prid
  | .run prid => (j.world.tlist.current prid).bind fun ptr =>
      if j.pc ptr = .switching then some prid else none
  | _ => none

/-- The thread that runs on a processor is about to join a thread that is gone. -/
def late (prid : ℕ) : Bool :=
  (j.world.tlist.current prid).any fun ptr =>
    match (j.world.tlist.thread ptr).state with
    | .join tuid => decide (j.Gone tuid)
    | _ => false

/-- `schedule` does not switch away from a thread that is about to join one that is gone. -/
def InTime (op : JoinOp) : Prop :=
  ∀ prid ∈ j.scheduler op, j.world.hasNext prid = true → j.late prid = false

instance (op : JoinOp) : Decidable (j.InTime op) := by
  unfold InTime
  infer_instance

end Joins
end ThreadList
end AuroraOs
