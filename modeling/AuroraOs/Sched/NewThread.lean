import AuroraOs.Mem.VirtAllocOps
import AuroraOs.Mem.AllocSize
import AuroraOs.Mem.ZoneManagerRun
import AuroraOs.Boot.Mb2Run

/-!
# New threads

`Stack::user_new` and `kernel_new`, `Thread::new_stack_size`, `Process::insert_thread` and
`new_thread_regs` of `kernel/src/sched/thread.rs` and `process.rs`.  A `Stack` that goes out of scope
stays as it is; only `Thread::drop` gives stacks back.

The zone manager is the one of the kernel, with the allocations that are held; the page tables are of
any type, and `map_internal` may do anything.  Registers, names and the scheduler's list of ready
threads are left out, and so are the zones of the kernel's heap.  `none` is a panic.
-/

namespace AuroraOs

open Machine

/-- `PageMappingFlags::NONE`. -/
def PageMappingFlags.NONE : PageMappingFlags := 0

/-- `PrivLevel`. -/
inductive PrivLevel
  | kernel
  | superUser
  | ioPriv
  | user (uid : ℕ)
  deriving DecidableEq

namespace Spawn

/-- Physical memory and the page tables. -/
structure Memory (T : Type) where
  phys : PhysMem
  tables : T

/-- What an address space uses of them. -/
def memEnv {T : Type} (L : NodeLayout) (A : AddrApi) (V : VirtAddrApi)
    (mapInternal : Memory T → List Pmit → Option (Memory T)) : MemEnv (Memory T) where
  alloc s size := (s.phys.manager.alloc L size).map fun r => ({ s with phys := s.phys.allocated r }, r.2)
  dealloc s mem := (s.phys.step L (.dealloc mem)).map fun phys => { s with phys := phys }
  mapInternal := mapInternal
  phys := A
  virt := V

/-- `Stack`. -/
inductive Stack
  | user (vrange : VirtRange)
  | kernel (allocation : ZoneAllocation)
  | kernelNoAlloc (vrange : VirtRange)
  deriving DecidableEq

/-- `Thread`. -/
structure Thread where
  tid : ℕ
  stack : Stack
  kstack : Option Stack
  deriving DecidableEq

/-- `Process`. -/
structure Process where
  uid : PrivLevel
  nextTid : ℕ
  threads : SortedMap ℕ Thread
  addrSpace : VirtMapper

/-! ### The calls -/

namespace Stack

variable {σ : Type} (E : MemEnv σ) (s : σ) (mapper : VirtMapper) (size : ℕ)

/-- `Stack::DEFAULT_SIZE`. -/
def DEFAULT_SIZE : ℕ := PAGE_SIZE * 32

/-- `Stack::DEFAULT_KERNEL_SIZE`. -/
def DEFAULT_KERNEL_SIZE : ℕ := PAGE_SIZE * 16

/-- The flags of the part of a user stack that is used. -/
def userFlags : PageMappingFlags := .READ ||| .WRITE ||| .USER

/-- `Stack::user_new`. -/
def userNew : Option (σ × VirtMapper × Except String Stack) := do
  let (s, guard) ← VirtLayoutElement.new E.toMemApi s PAGE_SIZE .NONE
  match guard with
  | none => some (s, mapper, .error "out of memory")
  | some guard =>
      let (s, elem) ← VirtLayoutElement.new E.toMemApi s size userFlags
      match elem with
      | none => some (s, mapper, .error "Out of memory")
      | some elem =>
          let (s, mapper, result) ← mapper.map E s (.ofVec [guard, elem] .protected_)
          match result with
          | .ok vrange => some (s, mapper, .ok (.user vrange))
          | .error _ => some (s, mapper, .error "could not map stack in memory")

/-- `Stack::kernel_new`. -/
def kernelNew : Option (σ × Except String Stack) := do
  let (s, allocation) ← E.alloc s size
  match allocation with
  | none => some (s, .error "Out of mem")
  | some allocation => some (s, .ok (.kernel allocation))

end Stack

namespace Process

variable {σ : Type} (E : MemEnv σ) (s : σ) (proc : Process)

/-- The stack that `new_stack_size` makes first. -/
def firstStack (stackSize : ℕ) : Option (σ × VirtMapper × Except String Stack) :=
  match proc.uid with
  | .kernel => (Stack.kernelNew E s stackSize).map fun r => (r.1, proc.addrSpace, r.2)
  | _ => Stack.userNew E s proc.addrSpace stackSize

/-- The stack for system calls. -/
def secondStack (kstackSize : ℕ) : Option (σ × Except String (Option Stack)) :=
  match proc.uid with
  | .kernel => some (s, .ok none)
  | _ => (Stack.kernelNew E s kstackSize).map fun r => (r.1, r.2.map some)

/-- `Thread::new_stack_size`. -/
def newStackSize (tid stackSize kstackSize : ℕ) : Option (σ × VirtMapper × Except String Thread) := do
  let (s, mapper, stack) ← proc.firstStack E s stackSize
  match stack with
  | .error err => some (s, mapper, .error err)
  | .ok stack =>
      let (s, kstack) ← proc.secondStack E s kstackSize
      match kstack with
      | .error err => some (s, mapper, .error err)
      | .ok kstack => some (s, mapper, .ok ⟨tid, stack, kstack⟩)

/-- `next_tid`. -/
def takeTid : Process := { proc with nextTid := (proc.nextTid + 1) % usizeMod }

/-- `insert_thread`. -/
def insertThread (thread : Thread) : Process × Bool :=
  if thread.tid ≥ proc.nextTid then (proc, false)
  else
    match proc.threads.get? thread.tid with
    | some _ => (proc, false)
    | none => ({ proc with threads := proc.threads.insert thread.tid thread }, true)

/-- `new_thread_regs`. -/
def newThreadRegs : Option (σ × Process × Except String ℕ) := do
  let tid := proc.nextTid
  let proc := proc.takeTid
  let (s, mapper, thread) ← proc.newStackSize E s tid Stack.DEFAULT_SIZE Stack.DEFAULT_KERNEL_SIZE
  let proc := { proc with addrSpace := mapper }
  match thread with
  | .error err => some (s, proc, .error err)
  | .ok thread =>
      let (proc, inserted) := proc.insertThread thread
      if inserted then some (s, proc, .ok tid)
      else some (s, proc, .error "could not insert thread into process thread list")

end Process

/-! ### `map` with an error -/

section Map

variable {σ : Type} {E : MemEnv σ} {s s' : σ} {m m' : VirtMapper} {l : VirtLayout} {r : VirtRange}
  {result : Except MemErr VirtRange}

/-- There is nothing to map, or no gap. -/
def NoGap (m : VirtMapper) (size : ℕ) : Prop := size = 0 ∨ m.freeAddr size = none

theorem findRange_eq_none {V : VirtAddrApi} {size : ℕ} :
    m.findRange V size = some none ↔ m.freeAddr size = none := by
  unfold VirtMapper.findRange
  cases m.freeAddr size <;> simp

/-- A layout that is not mapped gives its memory back. -/
theorem map_cases (h : m.map E s l = some (s', m', result)) :
    (NoGap m l.size ∧ m' = m ∧ l.dealloc E.toMemApi s = some s' ∧ ∃ err, result = .error err) ∨
      (¬ NoGap m l.size ∧ ∃ r, result = .ok r) := by
  unfold VirtMapper.map at h
  simp only at h
  split_ifs at h with hsize
  · obtain ⟨s₁, hs₁, h⟩ := Option.bind_eq_some_iff.1 h
    obtain ⟨rfl, rfl, rfl⟩ := by simpa using h
    exact .inl ⟨.inl hsize, rfl, hs₁, _, rfl⟩
  · obtain ⟨range, hrange, h⟩ := Option.bind_eq_some_iff.1 h
    cases range with
    | none =>
      obtain ⟨s₁, hs₁, h⟩ := Option.bind_eq_some_iff.1 h
      obtain ⟨rfl, rfl, rfl⟩ := by simpa using h
      exact .inl ⟨.inr (findRange_eq_none.1 hrange), rfl, hs₁, _, rfl⟩
    | some r =>
      obtain ⟨x, -, h⟩ := Option.bind_eq_some_iff.1 h
      obtain ⟨-, -, rfl⟩ := by simpa using h
      refine .inr ⟨?_, r, rfl⟩
      rintro (hzero | hfree)
      · exact hsize hzero
      · rw [findRange_eq_none.2 hfree] at hrange
        cases hrange

/-- A region that is mapped is new. -/
theorem map_ne (hm : m.WellPlaced) (hV : E.virt.IsVirt) (hgap : m.GapCanonical l.size)
    (h : m.map E s l = some (s', m', .ok r)) : m' ≠ m := by
  obtain ⟨-, l', -, hchange⟩ := VirtMapper.map_spec hm hV hgap h
  rintro rfl
  exact hchange.not_mem (by simp) (hchange.mem_keys.2 (.inl ⟨l', rfl⟩))

end Map

/-! ### The user stack -/

section UserStack

variable {σ : Type} {E : MemEnv σ} {s s' : σ} {m m' : VirtMapper} {size : ℕ}
  {result : Except String Stack}

/-- The layout of a user stack: a page that is not mapped, and the block. -/
def stackLayout (mem : ZoneAllocation) : VirtLayout :=
  .ofVec [⟨.empty (alignUp PAGE_SIZE PAGE_SIZE), alignUp PAGE_SIZE PAGE_SIZE,
      .fromMappingFlags .NONE, .NONE⟩,
    ⟨.allocedMem mem, mem.mem.size, .fromMappingFlags Stack.userFlags, Stack.userFlags⟩] .protected_

/-- Its size. -/
def stackBytes (mem : ZoneAllocation) : ℕ := (PAGE_SIZE + mem.mem.size) % usizeMod

theorem size_stackLayout (mem : ZoneAllocation) : (stackLayout mem).size = stackBytes mem := by
  rw [VirtLayout.size, VirtLayout.sizeOf_eq]
  rfl

theorem dealloc_stackLayout {mem : ZoneAllocation} :
    (stackLayout mem).dealloc E.toMemApi s = E.dealloc s mem := by
  simp [stackLayout, VirtLayout.ofVec, VirtLayout.dealloc, VirtLayout.deallocAll,
    VirtLayoutElement.dealloc]

/-- `user_new` maps the layout of the block that it gets. -/
theorem userNew_eq : Stack.userNew E s m size =
    (E.alloc s (alignUp size PAGE_SIZE)).bind fun r =>
      match r.2 with
      | none => some (r.1, m, .error "Out of memory")
      | some mem => (m.map E r.1 (stackLayout mem)).map fun r => (r.1, r.2.1, match r.2.2 with
          | .ok vrange => .ok (.user vrange)
          | .error _ => .error "could not map stack in memory") := by
  have hguard : VirtLayoutElement.new E.toMemApi s PAGE_SIZE .NONE = some (s, some
      ⟨.empty (alignUp PAGE_SIZE PAGE_SIZE), alignUp PAGE_SIZE PAGE_SIZE,
        .fromMappingFlags .NONE, .NONE⟩) := by
    unfold VirtLayoutElement.new
    exact if_neg (by decide)
  have hexists : Stack.userFlags.exists_ = true := by decide
  have hexact : ¬ Stack.userFlags.contains .EXACT_SIZE = true := by decide
  unfold Stack.userNew
  rw [hguard]
  simp only [VirtLayoutElement.new, hexists, if_true, if_neg hexact, Option.bind_eq_bind,
    Option.bind_some]
  cases E.alloc s (alignUp size PAGE_SIZE) with
  | none => rfl
  | some r =>
    obtain ⟨s₁, _ | mem⟩ := r
    · rfl
    · simp only [Option.bind_some, Option.map_some]
      rw [Option.map_eq_bind]
      refine congrArg _ (funext fun r => ?_)
      obtain ⟨s₂, m₂, _ | _⟩ := r <;> rfl

/-- There is no block for a user stack, or no gap for its layout. -/
def NoUserStack (E : MemEnv σ) (s : σ) (m : VirtMapper) (size : ℕ) : Prop :=
  ∀ s₁ mem, E.alloc s (alignUp size PAGE_SIZE) = some (s₁, some mem) → NoGap m (stackBytes mem)

/-- How `user_new` ends: without a block, without a gap and with the block given back, or with a
region for the stack. -/
theorem userNew_cases (h : Stack.userNew E s m size = some (s', m', result)) :
    (NoUserStack E s m size ∧ m' = m ∧ (∃ err, result = .error err) ∧
      (E.alloc s (alignUp size PAGE_SIZE) = some (s', none) ∨
        ∃ s₁ mem, E.alloc s (alignUp size PAGE_SIZE) = some (s₁, some mem) ∧
          E.dealloc s₁ mem = some s')) ∨
      (¬ NoUserStack E s m size ∧ ∃ s₁ mem r, E.alloc s (alignUp size PAGE_SIZE) = some (s₁, some mem) ∧
        m.map E s₁ (stackLayout mem) = some (s', m', .ok r) ∧ result = .ok (.user r)) := by
  rw [userNew_eq] at h
  obtain ⟨⟨s₁, block⟩, halloc, h⟩ := Option.bind_eq_some_iff.1 h
  cases block with
  | none =>
    obtain ⟨rfl, rfl, rfl⟩ := by simpa using h
    refine .inl ⟨fun s₂ mem hmem => ?_, rfl, ⟨_, rfl⟩, .inl halloc⟩
    rw [halloc] at hmem
    cases hmem
  | some mem =>
    obtain ⟨⟨s₂, m₂, mapped⟩, hmap, h⟩ := Option.map_eq_some_iff.1 h
    obtain ⟨rfl, rfl, rfl⟩ := by simpa using h
    have hblock : NoUserStack E s m size ↔ NoGap m (stackLayout mem).size := by
      rw [size_stackLayout]
      refine ⟨fun h => h s₁ mem halloc, fun h s₃ mem' hmem => ?_⟩
      obtain ⟨-, rfl⟩ := by simpa using halloc.symm.trans hmem
      exact h
    rw [hblock]
    rcases map_cases hmap with ⟨hgap, rfl, hdealloc, err, rfl⟩ | ⟨hgap, r, rfl⟩
    · rw [dealloc_stackLayout] at hdealloc
      exact .inl ⟨hgap, rfl, ⟨_, rfl⟩, .inr ⟨s₁, mem, halloc, hdealloc⟩⟩
    · exact .inr ⟨hgap, s₁, mem, r, halloc, hmap, rfl⟩

end UserStack

/-! ### Calls that fail -/

section Fail

variable {T : Type} {L : NodeLayout} {A : AddrApi} {V : VirtAddrApi}
  {f : Memory T → List Pmit → Option (Memory T)} {s s' : Memory T} {m m' : VirtMapper}
  {proc proc' : Process} {tid stackSize kstackSize : ℕ} {err : String}

/-- The allocations that are held and the page tables are the same. -/
structure SameMemory (s s' : Memory T) : Prop where
  held : s'.phys.held.Perm s.phys.held
  tables : s'.tables = s.tables

/-- A call has changed neither the address space, nor the page tables, nor the thread table, nor the
set of live allocations. -/
structure Restored (proc proc' : Process) (s s' : Memory T) : Prop extends SameMemory s s' where
  virtMap : proc'.addrSpace = proc.addrSpace
  threads : proc'.threads = proc.threads

theorem alloc_none {size : ℕ} (h : (memEnv L A V f).alloc s size = some (s', none)) : SameMemory s s' := by
  obtain ⟨⟨m, out⟩, -, he⟩ := Option.map_eq_some_iff.1 h
  obtain ⟨rfl, rfl⟩ := by simpa using he
  exact ⟨.refl _, rfl⟩

/-- A block that is given back at once. -/
theorem alloc_dealloc {size : ℕ} {mem : ZoneAllocation} {s₁ : Memory T}
    (h : (memEnv L A V f).alloc s size = some (s₁, some mem))
    (h' : (memEnv L A V f).dealloc s₁ mem = some s') : SameMemory s s' := by
  obtain ⟨⟨m, out⟩, -, he⟩ := Option.map_eq_some_iff.1 h
  obtain ⟨rfl, rfl⟩ := by simpa using he
  obtain ⟨phys, hphys, rfl⟩ := Option.map_eq_some_iff.1 h'
  obtain ⟨m', -, rfl⟩ := Option.map_eq_some_iff.1 hphys
  refine ⟨?_, rfl⟩
  simp [PhysMem.allocated]

/-- A call maps nothing: the process is that of the kernel, or there is no user stack. -/
def NothingMapped (E : MemEnv (Memory T)) (s : Memory T) (proc : Process) (stackSize : ℕ) : Prop :=
  proc.uid = .kernel ∨ NoUserStack E s proc.addrSpace stackSize

/-- The regions do not overlap, and the gap for the user stack begins at a canonical address. -/
def Placed (E : MemEnv (Memory T)) (s : Memory T) (proc : Process) (stackSize : ℕ) : Prop :=
  proc.addrSpace.WellPlaced ∧ ∀ s₁ mem, E.alloc s (alignUp stackSize PAGE_SIZE) = some (s₁, some mem) →
    proc.addrSpace.GapCanonical (stackBytes mem)

namespace Process

theorem kernelNew_error {size : ℕ} (h : Stack.kernelNew (memEnv L A V f) s size = some (s', .error err)) :
    SameMemory s s' := by
  obtain ⟨⟨s₁, block⟩, halloc, h⟩ := Option.bind_eq_some_iff.1 h
  cases block with
  | none =>
    obtain ⟨rfl, -⟩ := by simpa using h
    exact alloc_none halloc
  | some mem => simp at h

/-- `new_stack_size` of the kernel fails without its one stack. -/
theorem newStackSize_kernel (hk : proc.uid = .kernel)
    (h : proc.newStackSize (memEnv L A V f) s tid stackSize kstackSize = some (s', m', .error err)) :
    SameMemory s s' ∧ m' = proc.addrSpace := by
  obtain ⟨⟨s₁, m₁, stack⟩, hfirst, h⟩ := Option.bind_eq_some_iff.1 h
  rw [firstStack, hk] at hfirst
  obtain ⟨⟨s₂, result⟩, hnew, he⟩ := Option.map_eq_some_iff.1 hfirst
  obtain ⟨rfl, rfl, rfl⟩ := by simpa using he
  cases result with
  | error err' =>
    obtain ⟨rfl, rfl, -⟩ := by simpa using h
    exact ⟨kernelNew_error hnew, rfl⟩
  | ok stack =>
    -- there is no second stack that could fail
    simp [secondStack, hk] at h

/-- `new_stack_size` of another process fails without its user stack, or with the user stack mapped. -/
theorem newStackSize_user (hk : proc.uid ≠ .kernel)
    (h : proc.newStackSize (memEnv L A V f) s tid stackSize kstackSize = some (s', m', .error err)) :
    (NoUserStack (memEnv L A V f) s proc.addrSpace stackSize ∧ SameMemory s s' ∧ m' = proc.addrSpace) ∨
      (¬ NoUserStack (memEnv L A V f) s proc.addrSpace stackSize ∧ ∃ s₁ s₂ mem r,
        (memEnv L A V f).alloc s (alignUp stackSize PAGE_SIZE) = some (s₁, some mem) ∧
          proc.addrSpace.map (memEnv L A V f) s₁ (stackLayout mem) = some (s₂, m', .ok r)) := by
  obtain ⟨⟨s₁, m₁, stack⟩, hfirst, h⟩ := Option.bind_eq_some_iff.1 h
  have hfirst : Stack.userNew (memEnv L A V f) s proc.addrSpace stackSize = some (s₁, m₁, stack) := by
    rw [firstStack] at hfirst
    split at hfirst
    · exact absurd ‹_› hk
    · exact hfirst
  rcases userNew_cases hfirst with ⟨hno, rfl, ⟨err', rfl⟩, hcases⟩ | ⟨hno, s₂, mem, r, halloc, hmap, rfl⟩
  · obtain ⟨rfl, rfl, -⟩ := by simpa using h
    refine .inl ⟨hno, ?_, rfl⟩
    rcases hcases with halloc | ⟨s₂, mem, halloc, hdealloc⟩
    · exact alloc_none halloc
    · exact alloc_dealloc halloc hdealloc
  · obtain ⟨⟨s₃, kstack⟩, -, h⟩ := Option.bind_eq_some_iff.1 h
    cases kstack with
    | error err' =>
      obtain ⟨-, rfl, -⟩ := by simpa using h
      exact .inr ⟨hno, s₂, s₁, mem, r, halloc, hmap⟩
    | ok kstack => simp at h

/-- **`new_stack_size`**: a call that fails has changed nothing if it has mapped nothing. -/
theorem newStackSize_restored
    (h : proc.newStackSize (memEnv L A V f) s tid stackSize kstackSize = some (s', m', .error err)) :
    (NothingMapped (memEnv L A V f) s proc stackSize →
        SameMemory s s' ∧ m' = proc.addrSpace) ∧
      (V.IsVirt → Placed (memEnv L A V f) s proc stackSize → m' = proc.addrSpace →
        NothingMapped (memEnv L A V f) s proc stackSize) := by
  by_cases hk : proc.uid = .kernel
  · exact ⟨fun _ => newStackSize_kernel hk h, fun _ _ _ => .inl hk⟩
  · rcases newStackSize_user hk h with ⟨hno, hsame⟩ | ⟨hno, s₁, s₂, mem, r, halloc, hmap⟩
    · exact ⟨fun _ => hsame, fun _ _ _ => .inr hno⟩
    · refine ⟨fun hn => absurd (hn.resolve_left hk) hno, fun hV hplaced hm => ?_⟩
      have hgap : proc.addrSpace.GapCanonical (stackLayout mem).size := by
        rw [size_stackLayout]
        exact hplaced.2 s₁ mem halloc
      exact absurd hm (map_ne hplaced.1 hV hgap hmap)

end Process
end Fail

/-! ### Runs of a process -/

namespace Process

/-- What happens to a process: a new thread, in some state of the memory, an idle thread, the end of a
thread, and calls that change the address space. -/
inductive Op (σ : Type)
  | newThread (s : σ)
  | newIdle (stack : VirtRange)
  | removeThread (tid : ℕ)
  | setMapper (mapper : VirtMapper)

/-- `Process::new`. -/
def new (uid : PrivLevel) (mapper : VirtMapper) : Process := ⟨uid, 0, .empty, mapper⟩

/-- A step; `none` is a panic. -/
def step {σ : Type} (E : MemEnv σ) (proc : Process) : Op σ → Option Process
  | .newThread s => (proc.newThreadRegs E s).map fun r => r.2.1
  | .newIdle stack => some (proc.takeTid.insertThread ⟨proc.nextTid, .kernelNoAlloc stack, none⟩).1
  | .removeThread tid => some { proc with threads := proc.threads.erase tid }
  | .setMapper mapper => some { proc with addrSpace := mapper }

/-- The counter of thread ids does not wrap around. -/
def Counts {σ : Type} (proc : Process) : Op σ → Prop
  | .newThread _ | .newIdle _ => proc.nextTid + 1 < usizeMod
  | _ => True

instance {σ : Type} (proc : Process) (op : Op σ) : Decidable (proc.Counts op) := by
  cases op <;> unfold Counts <;> infer_instance

/-- The ids of the threads have been given out. -/
def Numbered (proc : Process) : Prop := ∀ tid ∈ proc.threads.keys, tid < proc.nextTid

variable {σ : Type} {E : MemEnv σ} {s s' : σ} {proc proc' : Process} {thread : Thread} {err : String}

/-- **`insert_thread`** takes a thread with the id that was given out last. -/
theorem Numbered.insertThread (h : proc.Numbered) (htid : proc.nextTid + 1 < usizeMod)
    (hthread : thread.tid = proc.nextTid) {m : VirtMapper} :
    ∃ proc', ({ proc.takeTid with addrSpace := m } : Process).insertThread thread = (proc', true) ∧
      proc'.Numbered := by
  have hnext : proc.takeTid.nextTid = proc.nextTid + 1 := Nat.mod_eq_of_lt htid
  have hlt : ¬ thread.tid ≥ proc.takeTid.nextTid := by omega
  have hfree : proc.threads.get? thread.tid = none := by
    rw [SortedMap.get?_eq_none]
    intro hmem
    have := h _ hmem
    omega
  refine ⟨{ proc.takeTid with addrSpace := m, threads := proc.threads.insert thread.tid thread }, ?_, ?_⟩
  · simp only [Process.insertThread, if_neg hlt]
    have hget : proc.takeTid.threads.get? thread.tid = none := hfree
    rw [hget]
    rfl
  · intro tid hmem
    show tid < proc.takeTid.nextTid
    rcases SortedMap.mem_keys_insert.1 hmem with rfl | hmem
    · omega
    · have := h tid hmem
      omega

/-- How `new_thread_regs` ends: with the error of `new_stack_size`, or with the thread in the table. -/
theorem Numbered.newThreadRegs (h : proc.Numbered) (htid : proc.nextTid + 1 < usizeMod)
    {result : Except String ℕ} (hcall : proc.newThreadRegs E s = some (s', proc', result)) :
    proc'.Numbered ∧ ∀ err, result = .error err → ∃ m',
      proc.takeTid.newStackSize E s proc.nextTid Stack.DEFAULT_SIZE Stack.DEFAULT_KERNEL_SIZE
        = some (s', m', .error err) ∧ proc' = { proc.takeTid with addrSpace := m' } := by
  have hnext : proc.takeTid.nextTid = proc.nextTid + 1 := Nat.mod_eq_of_lt htid
  obtain ⟨⟨s₁, m₁, made⟩, hnew, hcall⟩ := Option.bind_eq_some_iff.1 hcall
  cases made with
  | error err' =>
    obtain ⟨rfl, rfl, rfl⟩ := by simpa using hcall
    refine ⟨fun tid hmem => ?_, fun err he => ⟨m₁, ?_, rfl⟩⟩
    · show tid < proc.takeTid.nextTid
      have := h tid hmem
      omega
    · obtain rfl := by simpa using he
      exact hnew
  | ok thread =>
    have hthread : thread.tid = proc.nextTid := by
      obtain ⟨⟨s₂, m₂, stack⟩, -, hnew⟩ := Option.bind_eq_some_iff.1 hnew
      cases stack with
      | error err' => simp at hnew
      | ok stack =>
        obtain ⟨⟨s₃, kstack⟩, -, hnew⟩ := Option.bind_eq_some_iff.1 hnew
        cases kstack with
        | error err' => simp at hnew
        | ok kstack =>
          obtain ⟨-, -, rfl⟩ := by simpa using hnew
          rfl
    obtain ⟨proc₁, hins, hnum⟩ := h.insertThread htid hthread (m := m₁)
    simp only [hins, if_true] at hcall
    obtain ⟨rfl, rfl, rfl⟩ := by simpa using hcall
    exact ⟨hnum, fun err he => by cases he⟩

theorem Numbered.step (h : proc.Numbered) {op : Op σ} (hop : proc.Counts op)
    (he : proc.step E op = some proc') : proc'.Numbered := by
  cases op with
  | newThread s =>
    obtain ⟨⟨s', proc₁, result⟩, hcall, rfl⟩ := Option.map_eq_some_iff.1 he
    exact (h.newThreadRegs hop hcall).1
  | newIdle stack =>
    let thread : Thread := ⟨proc.nextTid, .kernelNoAlloc stack, none⟩
    have htid : thread.tid = proc.nextTid := rfl
    obtain ⟨proc₁, hins, hnum⟩ := h.insertThread hop htid (m := proc.addrSpace)
    obtain rfl := Option.some.inj he
    have hins : proc.takeTid.insertThread thread = (proc₁, true) := hins
    rw [hins]
    exact hnum
  | removeThread tid =>
    obtain rfl := Option.some.inj he
    intro tid' hmem
    exact h tid' (SortedMap.mem_keys_erase.1 hmem).1
  | setMapper mapper =>
    obtain rfl := Option.some.inj he
    exact h

/-- **Calls that fail** restore everything if they have mapped nothing, in every process that is reached,
and with regions that are well placed only then: of the kernel a call fails before it has anything,
and of another process a user stack without a kernel stack stays mapped. -/
theorem newThread_restored_iff {T : Type} {L : NodeLayout} {A : AddrApi} {V : VirtAddrApi}
    {f : Memory T → List Pmit → Option (Memory T)} (hV : V.IsVirt) (uid : PrivLevel)
    (mapper : VirtMapper) (ops : List (Op (Memory T)))
    (hops : Along (step (memEnv L A V f)) Counts (new uid mapper) ops)
    (hrun : run (step (memEnv L A V f)) (new uid mapper) ops = some proc) :
    (∀ s tid stackSize kstackSize s' m' err,
      proc.newStackSize (memEnv L A V f) s tid stackSize kstackSize = some (s', m', .error err) →
        (NothingMapped (memEnv L A V f) s proc stackSize →
          Restored proc { proc with addrSpace := m' } s s') ∧
        (Placed (memEnv L A V f) s proc stackSize →
          Restored proc { proc with addrSpace := m' } s s' →
            NothingMapped (memEnv L A V f) s proc stackSize)) ∧
    (proc.nextTid + 1 < usizeMod → ∀ s s' proc' err,
      proc.newThreadRegs (memEnv L A V f) s = some (s', proc', .error err) →
        (NothingMapped (memEnv L A V f) s proc Stack.DEFAULT_SIZE → Restored proc proc' s s') ∧
        (Placed (memEnv L A V f) s proc Stack.DEFAULT_SIZE → Restored proc proc' s s' →
          NothingMapped (memEnv L A V f) s proc Stack.DEFAULT_SIZE)) := by
  have hnum : proc.Numbered := Machine.run_keeps Numbered
    (fun _ _ _ h hop he => Numbered.step h hop he) (fun tid hmem => by cases hmem) hops hrun
  refine ⟨fun s tid stackSize kstackSize s' m' err h => ?_, fun htid s s' proc' err h => ?_⟩
  · obtain ⟨hsame, honly⟩ := newStackSize_restored h
    exact ⟨fun hn => ⟨(hsame hn).1, (hsame hn).2, rfl⟩, fun hp hr => honly hV hp hr.virtMap⟩
  · obtain ⟨m', hnew, rfl⟩ := (hnum.newThreadRegs htid h).2 err rfl
    obtain ⟨hsame, honly⟩ := newStackSize_restored hnew
    exact ⟨fun hn => ⟨(hsame hn).1, (hsame hn).2, rfl⟩, fun hp hr => honly hV hp hr.virtMap⟩

/-! ### Without memory -/

/-- A zone with one block of 32 pages. -/
def oneBlock : Option PhysMem :=
  (ZoneManager.init BuddyAllocator.alignVirt [PhysMem.zeroed (KERNEL_VMA + 0x40000) (KERNEL_VMA + 0x61000)
    (by decide)]).map fun m => ⟨m, []⟩

/-- Page tables that keep the zones that they are told of. -/
def tablesEnv : MemEnv (Memory (List Pmit)) :=
  memEnv Zone.pageLayout MemoryRegionType.physAddr virtAddr fun s zones =>
    some { s with tables := s.tables ++ zones }

/-- A process of a user, after an idle thread was put in its table. -/
def someUser : Option Process :=
  run (step tablesEnv) (new (.user 3) .new) [.newIdle .null]

/-- The block is taken before the call, and nothing changes. -/
theorem newThread_restored_iff_spent : ∃ proc phys s' proc', someUser = some proc ∧
    oneBlock.bind (PhysMem.step Zone.pageLayout · (.alloc 0x20000)) = some phys ∧
    proc.newThreadRegs tablesEnv ⟨phys, []⟩ = some (s', proc', .error "Out of memory") ∧
    Restored proc proc' ⟨phys, []⟩ s' := by
  have hproc : someUser.isSome = true := by decide +kernel
  obtain ⟨proc, hproc⟩ := Option.isSome_iff_exists.1 hproc
  have hspent : (oneBlock.bind (PhysMem.step Zone.pageLayout · (.alloc 0x20000))).isSome = true := by
    decide +kernel
  obtain ⟨phys, hspent⟩ := Option.isSome_iff_exists.1 hspent
  have hcalls : ∀ proc ∈ someUser, ∀ phys ∈ oneBlock.bind (PhysMem.step Zone.pageLayout · (.alloc 0x20000)),
      ((tablesEnv.alloc ⟨phys, []⟩ (alignUp Stack.DEFAULT_SIZE PAGE_SIZE)).all fun r => r.2.isNone) = true ∧
      proc.nextTid + 1 < usizeMod ∧
      (proc.newThreadRegs tablesEnv ⟨phys, []⟩).map (fun r => r.2.2) = some (.error "Out of memory") := by
    decide +kernel
  obtain ⟨hnone, htid, hcall⟩ := hcalls proc hproc phys hspent
  obtain ⟨⟨s', proc', result⟩, hcall, rfl⟩ := Option.map_eq_some_iff.1 hcall
  refine ⟨proc, phys, s', proc', hproc, hspent, hcall,
    ((newThread_restored_iff virtAddr_isVirt (.user 3) .new [.newIdle .null] (by decide +kernel) hproc).2 htid
      ⟨phys, []⟩ s' proc' _ hcall).1 (.inr fun s₁ mem hmem => ?_)⟩
  rw [show (tablesEnv.alloc _ _) = some (s₁, some mem) from hmem] at hnone
  cases hnone

/-- The block is taken for the user stack.  There is none for the kernel stack, and the user stack
stays mapped. -/
theorem stack_stays : ∃ phys s' proc', oneBlock = some phys ∧
    (new (.user 3) .new).newThreadRegs tablesEnv ⟨phys, []⟩ = some (s', proc', .error "Out of mem") ∧
    proc'.addrSpace.virtMap.keys = [⟨0x1000, 0x21000⟩] ∧ s'.phys.held.length = 1 ∧
    s'.tables.length = 1 ∧ ¬ Restored (new (.user 3) .new) proc' ⟨phys, []⟩ s' := by
  have hblock : oneBlock.isSome = true := by decide +kernel
  obtain ⟨phys, hblock⟩ := Option.isSome_iff_exists.1 hblock
  have hcalls : ∀ phys ∈ oneBlock, ((new (.user 3) .new).newThreadRegs tablesEnv ⟨phys, []⟩).map
      (fun r => (r.2.2, r.2.1.addrSpace.virtMap.keys, r.1.phys.held.length, r.1.tables.length)) =
        some (.error "Out of mem", [⟨0x1000, 0x21000⟩], 1, 1) := by decide +kernel
  obtain ⟨⟨s', proc', result⟩, hcall, he⟩ := Option.map_eq_some_iff.1 (hcalls phys hblock)
  obtain ⟨rfl, hkeys, hheld, htables⟩ := by simpa using he
  refine ⟨phys, s', proc', hblock, hcall, hkeys, hheld, htables, fun hr => ?_⟩
  rw [hr.tables] at htables
  cases htables

end Process
end Spawn
end AuroraOs
