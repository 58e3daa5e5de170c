import AuroraOs.Mem.FreeSpace
import AuroraOs.Lib.RoundRobin

/-!
# The zone manager

`ZoneManager` of `kernel/src/mem/phys_alloc.rs`: a buddy allocator for each usable region of physical
memory.  An allocation carries the index of its zone in `zindex`, which `Allocation::new` sets to 0.

The slots of `zones` from `zlen` on are `None`, and `unwrap` panics there.
-/

namespace AuroraOs

open BuddyAllocator

/-- `MAX_ZONES`. -/
def MAX_ZONES : ℕ := 4

/-- `Allocation` with its `zindex`. -/
@[ext]
structure ZoneAllocation where
  mem : Allocation
  zindex : ℕ
deriving DecidableEq

/-- A usable region of the memory map at its virtual addresses, with what the memory holds. -/
structure UsableMem where
  startAddr : ℕ
  endAddr : ℕ
  nodes : NodeMem
  sizes : Ptr → ℕ
  bitmap : ℕ → BitVec 8
  bytes : Bytes
  lt : endAddr < usizeMod

/-- The slots of `zones` that are taken, and the counter that picks one. -/
structure ZoneManager where
  zones : List Zone
  selnum : ℕ

/-- A call to the allocator of a zone; a zone that hands out nothing has written nothing. -/
def Zone.ask (L : NodeLayout) (f : BuddyAllocator → Option (BuddyAllocator × Option Allocation))
    (z : Zone) : Option (Zone × Option Allocation) :=
  (f z.allocer).map fun
    | (b, none) => (⟨b, z.live, z.bytes⟩, none)
    | (b, some out) => (z.allocated L (b, some out), some out)

/-- `contains_addr`. -/
def BuddyAllocator.containsAddr (b : BuddyAllocator) (addr : ℕ) : Bool :=
  decide (addr ≥ b.start ∧ addr < b.metaStart)

namespace ZoneManager

/-- `init`. -/
def init (A : AlignVirt) (regions : List UsableMem) : Option ZoneManager :=
  if regions.length > MAX_ZONES then none
  else do
    let zones ← regions.mapM fun r =>
      (BuddyAllocator.new A r.nodes r.sizes r.bitmap r.startAddr r.endAddr PAGE_SIZE).map fun b =>
        (⟨b, [], r.bytes⟩ : Zone)
    some ⟨zones, 0⟩

variable (L : NodeLayout) (m : ZoneManager)

/-! ### Picking a zone -/

/-- The loop of `allocer_action`, with the zones that it tries.  It is back at `start` before `fuel`
runs out. -/
def allocerLoop (f : BuddyAllocator → Option (BuddyAllocator × Option Allocation)) (start : ℕ) :
    ℕ → List Zone → ℕ → Bool → Option (List Zone × List ℕ × Option ZoneAllocation)
  | 0, _, _, _ => none
  | fuel + 1, zones, i, flag =>
      if i ≠ start ∨ flag then do
        let z ← zones[i]?
        let (z, out) ← z.ask L f
        let zones := zones.set i z
        match out with
        | some mem => some (zones, [i], some ⟨mem, i⟩)
        | none => do
            let (zones, tried, out) ← allocerLoop f start fuel zones ((i + 1) % zones.length) false
            some (zones, i :: tried, out)
      else some (zones, [], none)

/-- `allocer_action`, with the zones that it tries. -/
def allocerAction (f : BuddyAllocator → Option (BuddyAllocator × Option Allocation)) :
    Option (ZoneManager × List ℕ × Option ZoneAllocation) :=
  let zlen := m.zones.length
  if zlen = 0 then none
  else do
    let start := m.selnum % zlen
    let (zones, tried, out) ← allocerLoop L f start (zlen + 1) m.zones start true
    some (⟨zones, (m.selnum + 1) % usizeMod⟩, tried, out)

/-- The first zone that contains an address. -/
def zoneAt (addr : ℕ) : Option (Zone × ℕ) :=
  m.zones.zipIdx.find? fun zi => zi.1.allocer.containsAddr addr

/-- `allocer_action_contains`. -/
def allocerActionContains (addr : ℕ)
    (f : BuddyAllocator → Option (BuddyAllocator × Option Allocation)) :
    Option (ZoneManager × Option ZoneAllocation) :=
  match m.zoneAt addr with
  | some (z, i) => do
      let (z, out) ← z.ask L f
      some ({ m with zones := m.zones.set i z }, out.map fun mem => ⟨mem, 0⟩)
  | none => if m.zones.length < MAX_ZONES then none else some (m, none)

/-! ### Calls -/

/-- `alloc`. -/
def alloc (size : ℕ) : Option (ZoneManager × Option ZoneAllocation) :=
  (m.allocerAction L fun allocer => allocer.alloc size).map fun r => (r.1, r.2.2)

/-- `oalloc`. -/
def oalloc (order : ℕ) : Option (ZoneManager × Option ZoneAllocation) :=
  (m.allocerAction L fun allocer => allocer.oalloc order).map fun r => (r.1, r.2.2)

/-- `alloc_at`. -/
def allocAt (addr size : ℕ) : Option (ZoneManager × Option ZoneAllocation) :=
  m.allocerActionContains L addr fun allocer => allocer.allocAt addr size

/-- `oalloc_at`. -/
def oallocAt (addr order : ℕ) : Option (ZoneManager × Option ZoneAllocation) :=
  m.allocerActionContains L addr fun allocer => allocer.oallocAt addr order

/-- `copy_from_mem`. -/
def copyFromMem (out mem : ZoneAllocation) : Option ZoneManager := do
  let src ← m.zones[mem.zindex]?
  let dst ← m.zones[out.zindex]?
  let size := min out.mem.size mem.mem.size
  let bytes := fun x =>
    if out.mem.addr ≤ x ∧ x < out.mem.addr + size then src.bytes (mem.mem.addr + (x - out.mem.addr))
    else dst.bytes x
  let allocer := dst.allocer.reload L bytes ⟨out.mem.addr, size⟩
  some { m with zones := m.zones.set out.zindex ⟨allocer, dst.live, bytes⟩ }

/-- A reallocation in the zone of the block, or anywhere and with a copy. -/
def reallocWith (inZone : Zone → Option (BuddyAllocator × Bytes × Option Allocation))
    (anywhere : ZoneManager → Option (ZoneManager × Option ZoneAllocation)) (mem : ZoneAllocation) :
    Option (ZoneManager × Option ZoneAllocation) := do
  let z ← m.zones[mem.zindex]?
  let r ← inZone z
  let m := { m with zones := m.zones.set mem.zindex (z.reallocated mem.mem r) }
  match r.2.2 with
  | some out => some (m, some ⟨out, mem.zindex⟩)
  | none => do
      let (m, out) ← anywhere m
      match out with
      | none => some (m, none)
      | some out => do
          let m ← m.copyFromMem L out mem
          some (m, some out)

/-- `realloc`. -/
def realloc (mem : ZoneAllocation) (size : ℕ) : Option (ZoneManager × Option ZoneAllocation) :=
  m.reallocWith L (fun z => z.allocer.realloc L z.bytes mem.mem size) (fun m => m.alloc L size) mem

/-- `orealloc`. -/
def orealloc (mem : ZoneAllocation) (order : ℕ) : Option (ZoneManager × Option ZoneAllocation) :=
  m.reallocWith L (fun z => z.allocer.orealloc L z.bytes mem.mem order) (fun m => m.oalloc L order)
    mem

/-- A call to the zone of a block. -/
def inZone (zindex : ℕ) (op : ZoneOp) : Option ZoneManager := do
  let z ← m.zones[zindex]?
  let z ← z.step L op
  some { m with zones := m.zones.set zindex z }

/-- `dealloc`. -/
def dealloc (mem : ZoneAllocation) : Option ZoneManager :=
  m.inZone L mem.zindex (.dealloc mem.mem)

end ZoneManager

/-! ### Runs -/

/-- The manager, and the allocations that its callers hold. -/
structure PhysMem where
  manager : ZoneManager
  held : List ZoneAllocation

/-- The calls, and a write to a held block. -/
inductive ManagerOp
  | alloc (size : ℕ)
  | oalloc (order : ℕ)
  | allocAt (addr size : ℕ)
  | oallocAt (addr order : ℕ)
  | realloc (mem : ZoneAllocation) (size : ℕ)
  | orealloc (mem : ZoneAllocation) (order : ℕ)
  | dealloc (mem : ZoneAllocation)
  | write (mem : ZoneAllocation) (i : ℕ) (byte : BitVec 8)

namespace PhysMem

variable (L : NodeLayout) (s : PhysMem)

/-- The outcome of an allocation. -/
def allocated (r : ZoneManager × Option ZoneAllocation) : PhysMem := ⟨r.1, r.2.toList ++ s.held⟩

/-- The outcome of a reallocation: the caller gives up the old block for the new one. -/
def reallocated (mem : ZoneAllocation) (r : ZoneManager × Option ZoneAllocation) : PhysMem :=
  match r.2 with
  | none => ⟨r.1, s.held⟩
  | some out => ⟨r.1, out :: s.held.erase mem⟩

/-- A call or a write. -/
def step : ManagerOp → Option PhysMem
  | .alloc size => (s.manager.alloc L size).map s.allocated
  | .oalloc order => (s.manager.oalloc L order).map s.allocated
  | .allocAt addr size => (s.manager.allocAt L addr size).map s.allocated
  | .oallocAt addr order => (s.manager.oallocAt L addr order).map s.allocated
  | .realloc mem size => (s.manager.realloc L mem size).map (s.reallocated mem)
  | .orealloc mem order => (s.manager.orealloc L mem order).map (s.reallocated mem)
  | .dealloc mem => (s.manager.dealloc L mem).map fun m => ⟨m, s.held.erase mem⟩
  | .write mem i byte =>
      (s.manager.inZone L mem.zindex (.write (mem.mem.addr + i) byte)).map fun m => ⟨m, s.held⟩

/-- Callers reallocate, free and write to what they hold. -/
def Legal : ManagerOp → Prop
  | .realloc mem _ => mem ∈ s.held
  | .orealloc mem _ => mem ∈ s.held
  | .dealloc mem => mem ∈ s.held
  | .write mem i _ => mem ∈ s.held ∧ i < mem.mem.size
  | _ => True

instance : (op : ManagerOp) → Decidable (Legal s op)
  | .realloc mem _ => inferInstanceAs (Decidable (mem ∈ s.held))
  | .orealloc mem _ => inferInstanceAs (Decidable (mem ∈ s.held))
  | .dealloc mem => inferInstanceAs (Decidable (mem ∈ s.held))
  | .write mem i _ => inferInstanceAs (Decidable (mem ∈ s.held ∧ i < mem.mem.size))
  | .alloc _ => isTrue trivial
  | .oalloc _ => isTrue trivial
  | .allocAt _ _ => isTrue trivial
  | .oallocAt _ _ => isTrue trivial

/-- `alloc_at` and `oalloc_at` find the block around the address if they look for it, and only in the
first zone. -/
def FoundFirst (addr : ℕ) (order : BuddyAllocator → ℕ) : Prop :=
  ∀ zi ∈ s.manager.zoneAt addr, zi.1.Found addr (order zi.1.allocer) ∧
    (zi.2 = 0 ∨ ¬ Checked zi.1.allocer addr (order zi.1.allocer))

instance (addr : ℕ) (order : BuddyAllocator → ℕ) : Decidable (FoundFirst s addr order) :=
  inferInstanceAs (Decidable (∀ zi ∈ s.manager.zoneAt addr, zi.1.Found addr (order zi.1.allocer) ∧
    (zi.2 = 0 ∨ ¬ Checked zi.1.allocer addr (order zi.1.allocer))))

/-- A block that grows in its zone grows over free buddies. -/
def RoomIn (mem : ZoneAllocation) (order : BuddyAllocator → ℕ) : Prop :=
  ∀ z ∈ s.manager.zones[mem.zindex]?, z.Room mem.mem (order z.allocer)

instance (mem : ZoneAllocation) (order : BuddyAllocator → ℕ) : Decidable (RoomIn s mem order) :=
  inferInstanceAs (Decidable (∀ z ∈ s.manager.zones[mem.zindex]?, z.Room mem.mem (order z.allocer)))

/-- The condition under which a call is right. -/
def Guarded : ManagerOp → Prop
  | .allocAt addr size => size ≠ 0 → FoundFirst s addr (getOrder · size)
  | .oallocAt addr order => FoundFirst s addr fun _ => order
  | .realloc mem size => RoomIn s mem (getOrder · size)
  | .orealloc mem order => RoomIn s mem fun _ => order
  | _ => True

instance : (op : ManagerOp) → Decidable (Guarded s op)
  | .allocAt addr size => inferInstanceAs (Decidable (size ≠ 0 → FoundFirst s addr (getOrder · size)))
  | .oallocAt addr order => inferInstanceAs (Decidable (FoundFirst s addr fun _ => order))
  | .realloc mem size => inferInstanceAs (Decidable (RoomIn s mem (getOrder · size)))
  | .orealloc mem order => inferInstanceAs (Decidable (RoomIn s mem fun _ => order))
  | .alloc _ => isTrue trivial
  | .oalloc _ => isTrue trivial
  | .dealloc _ => isTrue trivial
  | .write _ _ _ => isTrue trivial

end PhysMem
end AuroraOs
