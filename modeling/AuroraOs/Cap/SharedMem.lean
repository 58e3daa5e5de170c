import AuroraOs.Mem.Sys
import AuroraOs.Cap.CapMap

/-!
# Shared memory

`SharedMem` of `kernel/src/mem/shared_mem.rs`, the trait `Map` of `kernel/src/cap/mod.rs`, and the system
calls of a process on capabilities to shared memory: `smem_new`, `cap_clone`, `cap_destroy`, `cap_map`
and `cap_unmap`.

A mapping is recorded twice: the object keeps the range under the id of the capability, and the
address space has a region of type `Shared`.  `cap_map` and `cap_unmap` hold the lock of the
capability map and that of the object to their end, and every call is one step here.
-/

namespace AuroraOs

/-- `Arc`: which of the objects of its type. -/
structure Arc (T : Type) where
  ptr : ℕ

instance {T : Type} [CapObject T] : CapObject (Arc T) := ⟨CapObject.capObjectType T⟩

/-- `Map`. -/
class Map (T : Type) extends CapObject T where
  virtLayout : AddrApi → T → CapFlags → Option VirtLayout
  allocType : T → AllocType
  capMapData : T → CapId → Option VirtRange
  setCapMapData : T → CapId → Option VirtRange → T

namespace Map

variable {σ T : Type} [Map T] (E : MemEnv σ) (s : σ) (m : VirtMapper) (self : T) (id : CapId)

/-- The end of `map`: the range is recorded if there is one. -/
def record : σ × VirtMapper × Except MemErr VirtRange → σ × VirtMapper × T × Except SysErr VirtRange
  | (s, m, .ok virtRange) => (s, m, setCapMapData self id (some virtRange), .ok virtRange)
  | (s, m, .error err) => (s, m, self, .error (.fromMemErr err))

/-- `Map::map`. -/
def map (atAddr : Option ℕ) : Option (σ × VirtMapper × T × Except SysErr VirtRange) :=
  match capMapData self id with
  | some _ => some (s, m, self, .error .invlOp)
  | none => do
      let vlayout ← virtLayout E.phys self (CapId.flags id)
      match atAddr with
      | some atAddr =>
          if !pageAligned atAddr then
            let s ← vlayout.dealloc E.toMemApi s
            some (s, m, self, .error .invlAlign)
          else
            match E.virt.new atAddr with
            | none =>
                let s ← vlayout.dealloc E.toMemApi s
                some (s, m, self, .error .invlVirtAddr)
            | some vaddr => (m.mapAt E s vlayout (.new vaddr vlayout.size)).map (record self id)
      | none => (m.map E s vlayout).map (record self id)

/-- `Map::unmap`; `unwrap` panics if the address space does not have the region. -/
def unmap : Option (σ × VirtMapper × T × Except SysErr Unit) :=
  match capMapData self id with
  | some layout => do
      let (s, m, result) ← m.unmap E s layout (allocType self)
      match result with
      | .ok vlayout =>
          let s ← vlayout.dealloc E.toMemApi s
          some (s, m, setCapMapData self id none, .ok ())
      | .error _ => none
  | none => some (s, m, self, .error .invlOp)

end Map

/-- `SharedMem`. -/
structure SharedMem where
  mem : ZoneAllocation
  capData : Std.TreeMap CapId VirtRange

instance : Map SharedMem where
  capObjectType := .sMem
  virtLayout P self flags := do
    let elem ← VirtLayoutElement.fromRange P (← AddrRange.fromAllocation P self.mem.mem)
      (.fromCapFlags flags)
    some (.ofVec [elem] .shared)
  allocType _ := .shared
  capMapData self id := self.capData[id]?
  setCapMapData self id data :=
    match data with
    | some virtRange => { self with capData := self.capData.insert id virtRange }
    | none => { self with capData := self.capData.erase id }

/-- What a process has to do with shared memory: its capabilities, the objects that they refer to, its
address space, and the memory of the kernel. -/
structure Process (σ : Type) where
  smem : CapMap (Arc SharedMem)
  objects : List SharedMem
  addrSpace : VirtMapper
  mem : σ

namespace Process

variable {σ : Type} (E : MemEnv σ) (p : Process σ)

/-- `smem_new`, with `SharedMem::new`. -/
def smemNew (options : BitVec 32) (a1 : Usize) : Option (Process σ × Except SysErr CapId) := do
  let size := a1.val * PAGE_SIZE % usizeMod
  let (mem, allocation) ← E.alloc p.mem size
  match allocation with
  | none => some ({ p with mem := mem }, .error .outOfMem)
  | some allocation =>
      let cap := Capability.new (⟨p.objects.length⟩ : Arc SharedMem) (.fromBitsTruncate options.toNat)
      let (smem, cid) ← p.smem.insert cap
      some ({ p with mem := mem, smem := smem, objects := p.objects ++ [⟨allocation, ∅⟩] }, .ok cid)

/-- A call on the capability map of the type of an id, as far as it is that of shared memory. -/
def onCapmap {α : Type} (id : CapId) (other : α)
    (f : CapMap (Arc SharedMem) → Option (CapMap (Arc SharedMem) × α)) : Option (Process σ × α) :=
  match CapId.capObjectType id with
  | some .sMem => do
      let (smem, a) ← f p.smem
      some ({ p with smem := smem }, a)
  | some .channel | some .futex | some .key => some (p, other)
  | _ => none

/-- `cap_destroy`. -/
def capDestroy (a1 : Usize) : Option (Process σ × Bool) :=
  p.onCapmap a1.val false fun smem => some (smem.destroy a1.val)

/-- `cap_clone`. -/
def capClone (options : BitVec 32) (a1 : Usize) : Option (Process σ × Option CapId) :=
  p.onCapmap a1.val none fun smem => smem.cloneCap a1.val (.fromBitsTruncate options.toNat)

/-- A call of the object of a capability, under the locks. -/
def onObject {α : Type} (id : CapId)
    (f : σ → VirtMapper → SharedMem → Option (σ × VirtMapper × SharedMem × Except SysErr α)) :
    Option (Process σ × Except SysErr α) :=
  match p.smem.data[id]? with
  | none => some (p, .error .invlId)
  | some cap => do
      let object ← p.objects[cap.object.ptr]?
      let (mem, addrSpace, object, result) ← f p.mem p.addrSpace object
      some (⟨p.smem, p.objects.set cap.object.ptr object, addrSpace, mem⟩, result)

/-- A call on a capability that can be mapped. -/
def onMappable {α : Type} (id : CapId)
    (f : σ → VirtMapper → SharedMem → Option (σ × VirtMapper × SharedMem × Except SysErr α)) :
    Option (Process σ × Except SysErr α) :=
  match CapId.capObjectType id with
  | some .sMem => p.onObject id f
  | some .mmio | none => none
  | some _ => some (p, .error .invlId)

/-- `cap_map`; `SysRet.ofRange` of the result is written to the registers. -/
def capMap (a1 a2 : Usize) : Option (Process σ × Except SysErr VirtRange) :=
  let id := a1.val
  let atAddr := if a2.val = 0 then none else some a2.val
  p.onMappable id fun s m object => Map.map E s m object id atAddr

/-- `cap_unmap`. -/
def capUnmap (a1 : Usize) : Option (Process σ × Except SysErr Unit) :=
  p.onMappable a1.val fun s m object => Map.unmap E s m object a1.val

/-- `realloc`. -/
def realloc (options : BitVec 32) (a1 a2 a3 : Usize) : Option (Process σ × SysRet) := do
  let (mem, addrSpace, ret) ← p.addrSpace.realloc E p.mem options a1 a2 a3
  some ({ p with mem := mem, addrSpace := addrSpace }, ret)

end Process

/-! ### Runs -/

/-- The system calls. -/
inductive Syscall
  | smemNew (options : BitVec 32) (a1 : Usize)
  | capDestroy (a1 : Usize)
  | capClone (options : BitVec 32) (a1 : Usize)
  | capMap (a1 a2 : Usize)
  | capUnmap (a1 : Usize)
  | realloc (options : BitVec 32) (a1 a2 a3 : Usize)

/-- A process and its history: the capabilities to shared memory that it was ever given, and the
ranges that `cap_map` returned for an id and `cap_unmap` did not take back. -/
structure SmemWorld (σ : Type) where
  proc : Process σ
  issued : List (CapId × Arc SharedMem)
  mapped : List (CapId × VirtRange)

namespace SmemWorld

variable {σ : Type} (E : MemEnv σ) (w : SmemWorld σ)

/-- A capability is given out. -/
def give (proc : Process σ) (id : CapId) : SmemWorld σ :=
  { w with
    proc := proc
    issued := match proc.smem.data[id]? with
      | some cap => (id, cap.object) :: w.issued
      | none => w.issued }

/-- One system call; `none` is a panic. -/
def step : Syscall → Option (SmemWorld σ)
  | .smemNew options a1 => do
      match ← w.proc.smemNew E options a1 with
      | (proc, .ok cid) => some (w.give proc cid)
      | (proc, .error _) => some { w with proc := proc }
  | .capDestroy a1 => do
      let (proc, _) ← w.proc.capDestroy a1
      some { w with proc := proc }
  | .capClone options a1 => do
      match ← w.proc.capClone options a1 with
      | (proc, some cid) => some (w.give proc cid)
      | (proc, none) => some { w with proc := proc }
  | .capMap a1 a2 => do
      match ← w.proc.capMap E a1 a2 with
      | (proc, .ok virtRange) =>
          some { w with proc := proc, mapped := (a1.val, virtRange) :: w.mapped }
      | (proc, .error _) => some { w with proc := proc }
  | .capUnmap a1 => do
      match ← w.proc.capUnmap E a1 with
      | (proc, .ok _) =>
          some { w with proc := proc, mapped := w.mapped.filter fun e => decide (e.1 ≠ a1.val) }
      | (proc, .error _) => some { w with proc := proc }
  | .realloc options a1 a2 a3 => do
      let (proc, _) ← w.proc.realloc E options a1 a2 a3
      some { w with proc := proc }

end SmemWorld
end AuroraOs
