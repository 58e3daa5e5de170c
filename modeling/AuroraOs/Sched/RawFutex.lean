import AuroraOs.Util
import AuroraOs.Lib.Machine

/-!
# The raw futex

`RawFutex` of `libutil/src/futex.rs`, with any number of threads that call `lock`, `try_lock` and
`unlock`.  A step is one atomic instruction, or one call of the kernel.  `block` and `unblock` are
those of counting semaphores, one for each id, initially `0`; `futex_new` returns an id that it never
returned before.
-/

namespace AuroraOs

/-- The initial value of `RawFutex::id`: no semaphore. -/
def usizeMax : ℕ := usizeMod - 1

/-- `RawFutex`. -/
structure RawFutex where
  id : ℕ
  count : ℕ
  deriving DecidableEq

namespace RawFutex

/-- `RawFutex::new`. -/
def new : RawFutex := ⟨usizeMax, 0⟩

/-- What an id is wanted for. -/
inductive Use
  | block
  | unblock
  deriving DecidableEq

/-- Where a thread is. -/
inductive Pc
  | idle
  /-- `try_lock`: `fetch_update` has loaded the count -/
  | tryUpdate (n : ℕ)
  /-- `id`: before the load -/
  | loadId (use : Use)
  /-- `id`: before `futex_new` -/
  | newId (use : Use)
  /-- `id`: before the `compare_exchange` -/
  | exchange (use : Use) (new : ℕ)
  /-- `id`: before `futex_destroy(new_id)` -/
  | destroy (use : Use) (new id : ℕ)
  /-- before `block(id)` or `unblock(id)` -/
  | call (use : Use) (id : ℕ)
  /-- in `block(id)` -/
  | blocked (id : ℕ)
  deriving DecidableEq

/-- A thread: where it is, and whether it holds the lock. -/
structure Thread where
  pc : Pc
  holds : Bool
  deriving DecidableEq

/-- A futex, its threads and the semaphores.  `created` and `destroyed` are the ids that were, and
`used` those that `block` or `unblock` was called with; the code has none of the three. -/
structure World (Tid : Type*) where
  futex : RawFutex
  threads : Tid → Thread
  sem : ℕ → ℕ
  created : List ℕ
  destroyed : List ℕ
  used : List ℕ

namespace World

variable {Tid : Type*} [DecidableEq Tid]

/-- No thread has called anything. -/
def init : World Tid := ⟨.new, fun _ => ⟨.idle, false⟩, fun _ => 0, [], [], []⟩

/-- A thread goes on. -/
def set (w : World Tid) (t : Tid) (th : Thread) : World Tid :=
  { w with threads := Function.update w.threads t th }

/-- `lock`: the `fetch_add`. -/
def lock (w : World Tid) (t : Tid) : World Tid :=
  let old := w.futex.count
  let w := { w with futex.count := (w.futex.count + 1) % usizeMod }
  if old > 0 then w.set t ⟨.loadId .block, (w.threads t).holds⟩ else w.set t ⟨.idle, true⟩

/-- `unlock`: the `fetch_sub`. -/
def unlock (w : World Tid) (t : Tid) : World Tid :=
  let old := w.futex.count
  let w := { w with futex.count := (w.futex.count + (usizeMod - 1)) % usizeMod }
  if old > 1 then w.set t ⟨.loadId .unblock, false⟩ else w.set t ⟨.idle, false⟩

/-- `try_lock`: the load of `fetch_update`. -/
def tryLock (w : World Tid) (t : Tid) : World Tid :=
  w.set t ⟨.tryUpdate w.futex.count, (w.threads t).holds⟩

/-- The next step of a call.  `fresh` is the id that `futex_new` returns, and `spurious` says that a
weak `compare_exchange` fails though it need not; `none` where the step cannot be made. -/
def advance (w : World Tid) (t : Tid) (fresh : ℕ) (spurious : Bool) : Option (World Tid) :=
  let holds := (w.threads t).holds
  match (w.threads t).pc with
  | .idle => none
  | .tryUpdate n =>
    if n ≠ 0 then some (w.set t ⟨.idle, holds⟩)
    else if w.futex.count = n ∧ spurious = false then
      some ({ w with futex.count := n + 1 }.set t ⟨.idle, true⟩)
    else some (w.set t ⟨.tryUpdate w.futex.count, holds⟩)
  | .loadId use =>
    if w.futex.id ≠ usizeMax then some (w.set t ⟨.call use w.futex.id, holds⟩)
    else some (w.set t ⟨.newId use, holds⟩)
  | .newId use =>
    if fresh ∈ w.created ∨ fresh = usizeMax then none
    else some ({ w with created := fresh :: w.created }.set t ⟨.exchange use fresh, holds⟩)
  | .exchange use new =>
    if w.futex.id = usizeMax then
      some ({ w with futex.id := new }.set t ⟨.call use new, holds⟩)
    else some (w.set t ⟨.destroy use new w.futex.id, holds⟩)
  | .destroy use new id =>
    some ({ w with destroyed := new :: w.destroyed }.set t ⟨.call use id, holds⟩)
  | .call .block id => some ({ w with used := id :: w.used }.set t ⟨.blocked id, holds⟩)
  | .call .unblock id =>
    some ({ w with used := id :: w.used, sem := Function.update w.sem id (w.sem id + 1) }.set t
      ⟨.idle, holds⟩)
  | .blocked id =>
    if w.sem id = 0 then none
    else some ({ w with sem := Function.update w.sem id (w.sem id - 1) }.set t ⟨.idle, true⟩)

end World

/-- A thread calls a function, or goes on in its call. -/
inductive Label (Tid : Type*)
  | lock (t : Tid)
  | tryLock (t : Tid)
  | unlock (t : Tid)
  | run (t : Tid) (fresh : ℕ) (spurious : Bool)

/-- A step; only the holder unlocks. -/
def step {Tid : Type*} [DecidableEq Tid] (w : World Tid) : Label Tid → Option (World Tid)
  | .lock t => if (w.threads t).pc = .idle then some (w.lock t) else none
  | .tryLock t => if (w.threads t).pc = .idle then some (w.tryLock t) else none
  | .unlock t => if (w.threads t).pc = .idle ∧ (w.threads t).holds then some (w.unlock t) else none
  | .run t fresh spurious => w.advance t fresh spurious

end RawFutex
end AuroraOs
