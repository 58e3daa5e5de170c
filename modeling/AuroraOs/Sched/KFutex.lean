import AuroraOs.Lib.Machine

/-!
# The kernel futex

`KFutex` of `kernel/src/sched/sync.rs`, with the steps of `schedule` that finish a `block` and
`ThreadList::inner_state_move`, which `unblock` ends with.  Threads interleave freely: a step of the
machine is one access to shared memory by one thread, and a thread that spins on a lock has no step.
The wait list is a sequence (`LinkedList.run_represents`), and a woken thread has returned from
`block`.
-/

namespace AuroraOs

open Machine

/-- Where a thread stands in a call of `block` or `unblock`. -/
inductive Pc
  /-- in no call -/
  | idle
  /-- `block`: in `KFutex::lock` -/
  | locking
  /-- `block`: with `block_lock`, entering `schedule` -/
  | scheduling
  /-- `schedule`: with the thread list, before `atomic_process` -/
  | switching
  /-- `schedule`: before `insert_into` -/
  | inserting
  /-- on the wait list -/
  | waiting
  /-- `unblock`: before `block_lock.lock()` -/
  | unlocking (n : ℕ)
  /-- `unblock`: before `tlist.lock()` -/
  | listing (n : ℕ)
  /-- `unblock`: before `fetch_sub` -/
  | counting (n : ℕ)
  /-- `unblock`: before `inner_state_move` -/
  | moving (n : ℕ)
  deriving DecidableEq

/-- `KFutex` with its wait list, the lock of the thread list and the threads.  `blocks` counts the
calls of `block`, and `wakeups` those of `unblock(n)`, each `n` times; the code has neither. -/
structure KFutex (Tid : Type*) where
  waitCount : ℤ
  alive : Bool
  blockLock : Bool
  listLock : Bool
  waiters : List Tid
  pc : Tid → Pc
  blocks : ℕ
  wakeups : ℕ

/-- The value of an `isize` after arithmetic. -/
def wrapIsize (x : ℤ) : ℤ := Int.bmod x (2 ^ 64)

/-- `n as isize`. -/
def asIsize (n : ℕ) : ℤ := wrapIsize n

theorem wrapIsize_eq {x : ℤ} (h : -2 ^ 63 ≤ x) (h' : x < 2 ^ 63) : wrapIsize x = x :=
  Int.bmod_eq_of_le (by omega) (by omega)

namespace KFutex

variable {Tid : Type*} [DecidableEq Tid]

/-- `KFutex::new`. -/
def new : KFutex Tid := ⟨0, true, false, false, [], fun _ => .idle, 0, 0⟩

/-- The thread goes on to a place. -/
def goto (s : KFutex Tid) (t : Tid) (p : Pc) : KFutex Tid :=
  { s with pc := Function.update s.pc t p }

@[simp] theorem goto_pc_self (s : KFutex Tid) (t : Tid) (p : Pc) : (s.goto t p).pc t = p :=
  Function.update_self _ _ _

theorem goto_pc_of_ne (s : KFutex Tid) {t u : Tid} (p : Pc) (h : u ≠ t) :
    (s.goto t p).pc u = s.pc u := Function.update_of_ne h _ _

/-- `ThreadList::inner_state_move` from the wait list to the ready list. -/
def innerStateMove : ℕ → KFutex Tid → KFutex Tid
  | 0, s => s
  | n + 1, s =>
      match s.waiters with
      | [] => s
      | t :: ts => innerStateMove n ({ s with waiters := ts }.goto t .idle)

/-- Entering `block`: the increment. -/
def enterBlock (s : KFutex Tid) (t : Tid) : KFutex Tid :=
  let old := s.waitCount
  let s := { s with waitCount := wrapIsize (s.waitCount + 1), blocks := s.blocks + 1 }
  if old ≥ 0 then s.goto t .locking else s

/-- The next step of a thread in a call; `none` where it spins on a lock. -/
def advance (s : KFutex Tid) (t : Tid) : Option (KFutex Tid) :=
  match s.pc t with
  | .idle => none
  | .waiting => none
  | .locking =>
      if s.alive = false then some (s.goto t .idle)
      else if s.blockLock then none
      else some ({ s with blockLock := true }.goto t .scheduling)
  | .scheduling =>
      if s.listLock then none else some ({ s with listLock := true }.goto t .switching)
  | .switching => some ({ s with blockLock := false }.goto t .inserting)
  | .inserting =>
      some ({ s with waiters := s.waiters ++ [t], listLock := false }.goto t .waiting)
  | .unlocking n =>
      if s.blockLock then none else some ({ s with blockLock := true }.goto t (.listing n))
  | .listing n =>
      if s.listLock then none else some ({ s with listLock := true }.goto t (.counting n))
  | .counting n =>
      some ({ s with waitCount := wrapIsize (s.waitCount - asIsize n) }.goto t (.moving n))
  | .moving n =>
      some ({ innerStateMove n s with listLock := false, blockLock := false }.goto t .idle)

/-- A step: a thread calls `block` or `unblock(n)`, or goes on in its call. -/
inductive Label (Tid : Type*)
  | block (t : Tid)
  | unblock (t : Tid) (n : ℕ)
  | run (t : Tid)

/-- The step relation, as a function of the label. -/
def step (s : KFutex Tid) : Label Tid → Option (KFutex Tid)
  | .block t => if s.pc t = .idle then some (s.enterBlock t) else none
  | .unblock t n =>
      if s.pc t = .idle then some ({ s with wakeups := s.wakeups + n }.goto t (.unlocking n))
      else none
  | .run t => s.advance t

end KFutex
end AuroraOs
