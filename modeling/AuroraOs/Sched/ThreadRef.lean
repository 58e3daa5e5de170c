import AuroraOs.Sched.ThreadList

/-!
# References to threads

`ThreadRef` of `kernel/src/sched/thread.rs` and `Process::get_thread`, with `thread_cleaner` and
`Thread::dealloc`.  Any processor may look up a thread, clone a reference or drop one between two
steps of the cleaner.
-/

namespace AuroraOs

namespace ThreadRef

/-- Where `thread_cleaner` is. -/
inductive CleanerPc
  /-- before it takes the lock of the thread lists -/
  | asleep
  /-- in the loop over the threads to destroy -/
  | scanning (rest : List Tuid)
  /-- in that loop, after it has read that a `ref_count` is 0 -/
  | unlinking (tuid : Tuid) (rest : List Tuid)
  /-- in the loop over its own list -/
  | popping
  /-- in `dealloc`, before `remove_thread` -/
  | removing (tuid : Tuid)
  /-- in `dealloc`, before the memory is freed -/
  | freeing (tuid : Tuid)
  deriving DecidableEq

/-- The threads.  `process` says which processes are there, `table` which threads are in the table
of theirs, `live` which are not exited; `refs` has one entry for each `ThreadRef`. -/
structure State where
  process : ℕ → Bool
  nextTid : ℕ → ℕ
  table : Tuid → Bool
  live : Tuid → Bool
  refCount : Tuid → ℕ
  refs : List Tuid
  destroy : List Tuid
  list : List Tuid
  pc : CleanerPc
  freed : Tuid → Bool

/-- A step. -/
inductive Op
  | spawn (pid : ℕ)
  /-- a running thread is switched away with state `Destroy` -/
  | exit (tuid : Tuid)
  /-- the last `Arc` of a process goes away -/
  | drop (pid : ℕ)
  | getThread (tuid : Tuid)
  | clone (tuid : Tuid)
  | dropRef (tuid : Tuid)
  /-- `thread_cleaner` goes on -/
  | clean
  deriving DecidableEq

namespace State

variable (s : State) (tuid : Tuid)

/-- `ThreadRef::from`. -/
def from_ : State :=
  { s with
    refCount := Function.update s.refCount tuid (s.refCount tuid + 1)
    refs := tuid :: s.refs }

/-- A step of `thread_cleaner`. -/
def clean : Option State :=
  match s.pc with
  | .asleep => some { s with pc := .scanning s.destroy }
  | .scanning [] => some { s with pc := .popping }
  | .scanning (tuid :: rest) =>
      some { s with pc := if s.refCount tuid = 0 then .unlinking tuid rest else .scanning rest }
  | .unlinking tuid rest =>
      some { s with
        destroy := s.destroy.erase tuid, list := s.list ++ [tuid], pc := .scanning rest }
  | .popping =>
      match s.list with
      | [] => some { s with pc := .asleep }
      | tuid :: rest =>
          some { s with
            list := rest, pc := if s.process tuid.pid then .removing tuid else .freeing tuid }
  | .removing tuid =>
      if s.table tuid then
        some { s with table := Function.update s.table tuid false, pc := .freeing tuid }
      else none
  | .freeing tuid =>
      some { s with freed := Function.update s.freed tuid true, pc := .popping }

/-- A step; `none` is a panic. -/
def step : Op → Option State
  | .spawn pid =>
      let tuid : Tuid := ⟨pid, s.nextTid pid⟩
      some { s with
        nextTid := Function.update s.nextTid pid (s.nextTid pid + 1)
        table := Function.update s.table tuid true
        live := Function.update s.live tuid true }
  | .exit tuid =>
      some { s with live := Function.update s.live tuid false, destroy := s.destroy ++ [tuid] }
  | .drop pid => some { s with process := Function.update s.process pid false }
  | .getThread tuid => some (if s.table tuid then s.from_ tuid else s)
  | .clone tuid => some (s.from_ tuid)
  | .dropRef tuid =>
      some { s with
        refCount := Function.update s.refCount tuid (s.refCount tuid - 1)
        refs := s.refs.erase tuid }
  | .clean => s.clean

/-- The cleaner holds the lock of the thread lists. -/
def locked : Bool :=
  match s.pc with
  | .scanning _ | .unlinking _ _ => true
  | _ => false

/-- A thread is looked up in a process that is there, a reference is cloned or dropped by one who
has it, and a live thread gets on the list of the threads to destroy under the lock. -/
def Legal : Op → Prop
  | .exit tuid => s.live tuid = true ∧ s.locked = false
  | .getThread tuid => s.process tuid.pid = true
  | .clone tuid | .dropRef tuid => tuid ∈ s.refs
  | .spawn _ | .drop _ | .clean => True

instance (op : Op) : Decidable (s.Legal op) := by
  cases op <;> unfold Legal <;> infer_instance

/-- Before any thread. -/
def new : State where
  process := fun _ => true
  nextTid := fun _ => 0
  table := fun _ => false
  live := fun _ => false
  refCount := fun _ => 0
  refs := []
  destroy := []
  list := []
  pc := .asleep
  freed := fun _ => false

/-- The cleaner has seen that there is no reference to the thread, and has not yet taken it out of
its table. -/
def condemned : Bool :=
  s.list.contains tuid ||
    match s.pc with
    | .unlinking t _ | .removing t => t == tuid
    | _ => false

/-- Nobody looks up a thread that is condemned. -/
def InTime : Op → Prop
  | .getThread tuid => s.condemned tuid = false
  | _ => True

instance (op : Op) : Decidable (s.InTime op) := by
  cases op <;> unfold InTime <;> infer_instance

end State
end ThreadRef
end AuroraOs
