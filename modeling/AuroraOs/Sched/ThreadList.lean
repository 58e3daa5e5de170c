import AuroraOs.Collections.ListRun

/-!
# The thread lists of the scheduler

`ThreadList` of `kernel/src/sched/mod.rs` with the loops that work on it under its lock: `schedule`,
the wake-up loops of `time_handler`, `int_handler` and `Process::remove_thread`,
`inner_state_move` and the sweep of `thread_cleaner`.

The lists share the links of the threads (`LinkedList.Lists`), and a loop over a list reads the
link to the next thread before its body moves the current one.  `none` is a panic.  Registers, run
times and address spaces are left out, and so is the futex that `atomic_process` unlocks.
-/

namespace AuroraOs

open LinkedList

/-- `Tuid`. -/
structure Tuid where
  pid : ℕ
  tid : ℕ
  deriving DecidableEq

/-- `ThreadState`. -/
inductive ThreadState
  | running
  | ready
  | idle
  | destroy
  | waiting (tuid : Tuid)
  | sleep (nsec : ℕ)
  | join (tuid : Tuid)
  | futexBlock (id : Ptr)
  | listening (id : ℕ)
  deriving DecidableEq

/-- The lists: those of `ThreadList`, one of each kind for a processor or a key, and the list that
`thread_cleaner` keeps for itself. -/
inductive ListId
  | running (prid : ℕ)
  | ready
  | idle (prid : ℕ)
  | destroy
  | sleep
  | join (tuid : Tuid)
  | wait (tuid : Tuid)
  | connWait (id : ℕ)
  | futex (id : ℕ)
  | cleaner
  deriving DecidableEq

/-- `Thread`. -/
structure Thread where
  state : ThreadState
  idle : Bool
  tuid : Tuid

/-- `Thread::default_state`. -/
def Thread.defaultState (t : Thread) : ThreadState := if t.idle then .idle else .ready

/-- `ThreadList` with its threads.  `cpus` is the length of `running` and `idle`, `nodes` are the
keys of the trees, `alive` the processes that are alive, `fuid` the id of a futex. -/
structure ThreadList where
  lists : LinkedList.Lists ListId
  cpus : ℕ
  nodes : ListId → Bool
  thread : Ptr → Thread
  alive : ℕ → Bool
  fuid : Ptr → ℕ

namespace ThreadList

variable (s : ThreadList) (prid : ℕ)

/-- The list that a state names, on processor `prid`. -/
def select : ThreadState → ListId
  | .running => .running prid
  | .ready => .ready
  | .idle => .idle prid
  | .destroy => .destroy
  | .sleep _ => .sleep
  | .join tuid => .join tuid
  | .waiting tuid => .wait tuid
  | .listening id => .connWait id
  | .futexBlock id => .futex (s.fuid id)

/-- The list is there. -/
def has : ListId → Bool
  | .running prid | .idle prid => decide (prid < s.cpus)
  | .ready | .destroy | .sleep | .cleaner => true
  | id => s.nodes id

/-- `ThreadList::get` and `get_mut`. -/
def get (state : ThreadState) : Option ListId :=
  let id := s.select prid state
  if s.has id then some id else none

/-- An operation on a list. -/
def onList (op : ListOp ListId) : Option (ThreadList × Option Ptr) :=
  (step s.lists op).map fun r => ({ s with lists := r.1 }, r.2)

/-- `Thread::set_state`. -/
def setState (ptr : Ptr) (state : ThreadState) : ThreadList :=
  { s with thread := Function.update s.thread ptr { s.thread ptr with state := state } }

/-- `Thread::remove_from_current`. -/
def removeFromCurrent (ptr : Ptr) : Option ThreadList := do
  let id ← s.get prid (s.thread ptr).state
  let (s, _) ← s.onList (.removeNode id ptr)
  some s

/-- `Thread::insert_into`. -/
def insertInto (ptr : Ptr) : Option ThreadList := do
  let id ← s.get prid (s.thread ptr).state
  let (s, _) ← s.onList (.push id ptr)
  some s

/-- `Thread::move_to`. -/
def moveTo (ptr : Ptr) (state : ThreadState) : Option ThreadList := do
  let s ← s.removeFromCurrent prid ptr
  (s.setState ptr state).insertInto prid ptr

/-- `running[prid].g(0)`. -/
def current : Option Ptr :=
  if s.has (.running prid) then getNode s.lists.mem (s.lists.list (.running prid)) 0 else none

/-! ### Loops over a list -/

/-- A loop over the rest of an iterator: `len` threads from `start` on. -/
def forEachFrom (body : ThreadList → Ptr → Option ThreadList) :
    ℕ → Ptr → ThreadList → Option ThreadList
  | 0, _, s => some s
  | len + 1, start, s => do
      let ptr ← asRef start
      let next := (s.lists.mem ptr).next
      forEachFrom body len next (← body s ptr)

/-- A loop over a list. -/
def forEach (body : ThreadList → Ptr → Option ThreadList) (id : ListId) : Option ThreadList :=
  forEachFrom body (s.lists.list id).len (s.lists.list id).start s

/-- The body of the loop of `time_handler`. -/
def wakeIfDue (nsec : ℕ) (s : ThreadList) (ptr : Ptr) : Option ThreadList :=
  match (s.thread ptr).state with
  | .sleep sleepNsec => if nsec ≥ sleepNsec then s.moveTo 0 ptr .ready else some s
  | _ => none

/-- The sleeping threads that `time_handler` wakes, on processor 0. -/
def wakeSleeping (nsec : ℕ) : Option ThreadList := s.forEach (wakeIfDue nsec) .sleep

/-- The threads on a list get ready, if the list is there. -/
def wakeAll (state : ThreadState) : Option ThreadList :=
  match s.get prid state with
  | some id => s.forEach (fun s ptr => s.moveTo prid ptr .ready) id
  | none => some s

/-- The threads that `int_handler` wakes: those that wait for the running thread. -/
def wakeWaiting : Option ThreadList := do
  let ptr ← s.current prid
  s.wakeAll prid (.waiting (s.thread ptr).tuid)

/-- The body of the sweep. -/
def sweepOne (refCount : Ptr → ℕ) (s : ThreadList) (ptr : Ptr) : Option ThreadList :=
  if refCount ptr = 0 then do
    let (s, _) ← s.onList (.removeNode .destroy ptr)
    let (s, _) ← s.onList (.push .cleaner ptr)
    some s
  else some s

/-- The sweep of `thread_cleaner` over the threads to destroy. -/
def sweep (refCount : Ptr → ℕ) : Option ThreadList := s.forEach (sweepOne refCount) .destroy

/-! ### Moves between lists -/

/-- The loop of `inner_state_move`; `i` threads have been moved. -/
def moveFrom (oldState newState : ThreadState) (count : ℕ) : ℕ → ThreadList → Option (ThreadList × ℕ)
  | 0, s => some (s, count)
  | left + 1, s => do
      let id ← s.get prid oldState
      let (s, ptr) ← s.onList (.popFront id)
      match ptr with
      | some ptr => moveFrom oldState newState count left (← (s.setState ptr newState).insertInto prid ptr)
      | none => some (s, count - (left + 1))

/-- `ThreadList::inner_state_move`. -/
def innerStateMove (oldState newState : ThreadState) (count : ℕ) : Option (ThreadList × ℕ) :=
  if newState = .running ∨ oldState = .running then none
  else if (s.get prid oldState).isNone ∨ (s.get prid newState).isNone then some (s, 0)
  else moveFrom prid oldState newState count count s

/-! ### `schedule` -/

/-- The loop of `schedule`: the next thread, off its list; `fuel` exceeds the ready threads. -/
def pickFrom : ℕ → ThreadList → Option (ThreadList × Option Ptr)
  | 0, _ => none
  | fuel + 1, s => do
      let (s, ptr) ← s.onList (.popFront .ready)
      match ptr with
      | some ptr =>
          if s.alive (s.thread ptr).tuid.pid = false then
            pickFrom fuel (← (s.setState ptr .destroy).insertInto prid ptr)
          else some (s, some ptr)
      | none => s.onList (.pop (.idle prid))

/-- The rest of `schedule`, with the next thread in hand. -/
def switchTo (ptr : Ptr) : Option ThreadList := do
  let (s, old) ← s.onList (.pop (.running prid))
  let old ← old
  let s := if (s.thread old).state = .running then s.setState old (s.thread old).defaultState else s
  let s ← s.insertInto prid old
  (s.setState ptr .running).insertInto prid ptr

/-- `schedule`; the result says whether it switches. -/
def schedule : Option (ThreadList × Bool) := do
  let (s, ptr) ← pickFrom prid ((s.lists.list .ready).len + 1) s
  match ptr with
  | some ptr => some (← s.switchTo prid ptr, true)
  | none => some (s, false)

end ThreadList
end AuroraOs
