import AuroraOs.Mem.VirtLayout
import AuroraOs.Lib.SortedMap

/-!
# The address space

`VirtMapper` of `kernel/src/mem/virt_alloc.rs`: the regions of an address space, in a map that is
ordered by address and size.  The page tables belong to the state of `MemApi`.

`none` is a panic.  A `VirtLayout` that is dropped gives its memory back.
-/

namespace AuroraOs

open Blocks

/-- The derived order of `VirtRange`: the address is compared first. -/
instance : LinearOrder AddrRange :=
  LinearOrder.lift' (fun r : AddrRange => toLex (r.addr, r.size)) fun a b h => by
    obtain ⟨ha, hs⟩ := Prod.mk.inj (toLex.injective h)
    cases a
    cases b
    simp only at ha hs
    rw [ha, hs]

theorem AddrRange.lt_iff {a b : AddrRange} :
    a < b ↔ a.addr < b.addr ∨ a.addr = b.addr ∧ a.size < b.size :=
  Prod.Lex.toLex_lt_toLex

/-- `MAX_VIRT_ADDR`. -/
def MAX_VIRT_ADDR : ℕ := 1 <<< 47

/-- `MAX_MAP_ADDR`: where the kernel starts, 1 MiB above `KERNEL_VMA`. -/
def MAX_MAP_ADDR : ℕ := KERNEL_VMA + 0x100000

/-- `MemErr`. -/
inductive MemErr
  | outOfMem (msg : String)
  | invlVirtMem (msg : String)
  | invlPtr (msg : String)
  | invlArgs (msg : String)
  | invlMemType (msg : String)
  deriving DecidableEq

/-- What the address space uses of the rest of the kernel, and the address types. -/
structure MemEnv (σ : Type) extends MemApi σ where
  phys : AddrApi
  virt : VirtAddrApi

/-- `VirtMapper`. -/
structure VirtMapper where
  virtMap : SortedMap VirtRange VirtLayout

namespace VirtMapper

/-- `VirtMapper::new`. -/
def new : VirtMapper := ⟨.empty⟩

/-! ### Looking for space -/

section Search

variable (V : VirtAddrApi) (m : VirtMapper)

/-- The loop of `find_range`: `laddr` when it ends, and whether it found a gap there. -/
def scan (size : ℕ) : ℕ → List VirtRange → ℕ × Bool
  | laddr, [] => (laddr, false)
  | laddr, zone :: zones =>
      if subUsize zone.addr laddr ≥ size then (laddr, true) else scan size zone.endUsize zones

/-- The address that `find_range` makes its range from. -/
def freeAddr (size : ℕ) : Option ℕ :=
  let (laddr, found) := scan size PAGE_SIZE m.virtMap.keys
  if !found ∧ subUsize MAX_MAP_ADDR laddr < size then none else some laddr

/-- `find_range`. -/
def findRange (size : ℕ) : Option (Option VirtRange) :=
  match m.freeAddr size with
  | none => some none
  | some laddr => (V.new laddr).map fun addr => some (.new addr size)

/-- The bytes between the region before and the range; `some none` if they overlap. -/
def prevSize (prev : Option VirtRange) (virtZone : VirtRange) : Option (Option ℕ) :=
  match prev with
  | some prev => do
      if (← prev.endAddr V.toAddrApi) > virtZone.addr then some none
      else some (some (subUsize virtZone.addr prev.endUsize))
  | none =>
      if virtZone.addr < PAGE_SIZE then some none else some (some (subUsize virtZone.addr PAGE_SIZE))

/-- The bytes between the range and the region after. -/
def nextSize (next : Option VirtRange) (virtZone : VirtRange) : Option (Option ℕ) :=
  match next with
  | some next => do
      if (← virtZone.endAddr V.toAddrApi) > next.addr then some none
      else some (some (subUsize next.addr virtZone.endUsize))
  | none =>
      if virtZone.endUsize > MAX_MAP_ADDR then some none
      else some (some (subUsize MAX_MAP_ADDR virtZone.endUsize))

/-- `free_space`.  Both tests for `exclude` look at `prev`. -/
def freeSpace (virtZone : VirtRange) (exclude : Option VirtRange) : Option (Option (ℕ × ℕ)) := do
  let prevIter := (m.virtMap.below virtZone).map Prod.fst
  let nextIter := (m.virtMap.onward virtZone).map Prod.fst
  let prev := if exclude.isSome ∧ prevIter[0]? = exclude then prevIter[1]? else prevIter[0]?
  let next := if exclude.isSome ∧ prev = exclude then nextIter[1]? else nextIter[0]?
  match ← prevSize V prev virtZone with
  | none => some none
  | some prevSize =>
      (← nextSize V next virtZone).elim (some none) fun nextSize => some (some (prevSize, nextSize))

/-- `address_map`. -/
def addressMap {α : Type*} (addr : ℕ) (f : VirtRange → VirtLayout → Option (Option α)) :
    Option (Option α) :=
  match (m.virtMap.below ⟨addr, usizeMod - 1⟩).head? with
  | none => some none
  | some (range, layout) => f range layout

/-- `get_mapped_range`. -/
def getMappedRange (addr : ℕ) : Option (Option VirtRange) :=
  m.addressMap addr fun zone _ => do
    if ← zone.contains V.toAddrApi addr then some (some zone) else some none

end Search

/-! ### Changing the regions -/

variable {σ : Type} (E : MemEnv σ) (s : σ) (m : VirtMapper)

/-- `btree.insert`, which drops the layout that it replaces. -/
def insert (virtZone : VirtRange) (physZones : VirtLayout) : Option (σ × VirtMapper) := do
  let s ← match m.virtMap.get? virtZone with
    | none => some s
    | some old => old.dealloc E.toMemApi s
  some (s, ⟨m.virtMap.insert virtZone physZones⟩)

/-- The last lines of `map`, `map_at`, `remap` and `remap_at`. -/
def place (physZones : VirtLayout) (virtZone : VirtRange) : Option (σ × VirtMapper) := do
  let s ← E.mapInternal s (← physZones.mappingIter E.phys E.virt.toAddrApi virtZone)
  let (s, physZones) ← physZones.syncMem E.toMemApi s
  m.insert E s virtZone physZones

/-- `map`. -/
def map (physZones : VirtLayout) : Option (σ × VirtMapper × Except MemErr VirtRange) := do
  let size := physZones.size
  if size = 0 then
    let s ← physZones.dealloc E.toMemApi s
    some (s, m, .error (.invlVirtMem "tryed to map page of size zero"))
  else
    match ← m.findRange E.virt size with
    | none =>
        let s ← physZones.dealloc E.toMemApi s
        some (s, m, .error
          (.invlVirtMem "not enough space in virtual memory space for allocation"))
    | some virtZone =>
        let (s, m) ← m.place E s physZones virtZone
        some (s, m, .ok virtZone)

/-- `map_at`. -/
def mapAt (physZones : VirtLayout) (virtZone : VirtRange) :
    Option (σ × VirtMapper × Except MemErr VirtRange) := do
  let virtZone ← virtZone.aligned E.virt.toAddrApi
  if physZones.size ≠ virtZone.size then
    let s ← physZones.dealloc E.toMemApi s
    some (s, m, .error (.invlArgs "phys_zones and virt_zone size did not match"))
  else if physZones.size = 0 then
    let s ← physZones.dealloc E.toMemApi s
    some (s, m, .error (.invlArgs "tryed to map page of size zero"))
  else
    match ← m.freeSpace E.virt virtZone none with
    | none =>
        let s ← physZones.dealloc E.toMemApi s
        some (s, m, .error (.invlVirtMem "invalid virt zone passed to map_at"))
    | some _ =>
        let (s, m) ← m.place E s physZones virtZone
        some (s, m, .ok virtZone)

/-- The closure of `remap` and `remap_at`. -/
abbrev AllocFunc (σ : Type) := σ → VirtLayout → Option (σ × VirtLayout × Except MemErr Unit)

/-- `remap` and `remap_at`: they differ in what they do when the new size does not fit at the
target. -/
def remapTo (virtZone : VirtRange) (targetAddr : ℕ) (atype : AllocType) (allocFunc : AllocFunc σ)
    (full : σ → VirtMapper → VirtLayout → Option (σ × VirtMapper × Except MemErr VirtRange)) :
    Option (σ × VirtMapper × Except MemErr VirtRange) :=
  match m.virtMap.get? virtZone with
  | none => some (s, m, .error (.invlPtr "invalid virt zone passed to remap"))
  | some virtLayout =>
      if virtLayout.allocType ≠ atype then
        some (s, m, .error (.invlMemType "memory type does not match passed atype"))
      else do
        let (s, physZones, result) ← allocFunc s virtLayout
        let m : VirtMapper := ⟨m.virtMap.modify virtZone fun _ => physZones⟩
        match result with
        | .error err => some (s, m, .error err)
        | .ok () =>
            let newSize := physZones.size
            let nrange : VirtRange := .new targetAddr newSize
            if newSize = 0 then
              let s ← E.mapInternal s (← physZones.mappingIter E.phys E.virt.toAddrApi nrange)
              let (s, physZones) ← physZones.syncMem E.toMemApi s
              let s ← physZones.dealloc E.toMemApi s
              some (s, ⟨m.virtMap.erase virtZone⟩, .ok .null)
            else
              match ← m.freeSpace E.virt nrange (some virtZone) with
              | some _ =>
                  let (s, physZones) ← if targetAddr ≠ virtZone.addr then do
                      let s ← E.mapInternal s
                        (← physZones.unmappingIter E.phys E.virt.toAddrApi virtZone)
                      physZones.markUnmapped E.toMemApi s
                    else some (s, physZones)
                  let (s, m) ← place E s ⟨m.virtMap.erase virtZone⟩ physZones nrange
                  some (s, m, .ok nrange)
              | none => full s m physZones

/-- A layout that goes back to what is mapped of it. -/
def reverted (virtZone : VirtRange) (physZones : VirtLayout) (err : MemErr) :
    Option (σ × VirtMapper × Except MemErr VirtRange) := do
  let (s, physZones) ← physZones.revert E.toMemApi s
  some (s, ⟨m.virtMap.modify virtZone fun _ => physZones⟩, .error err)

/-- `remap`. -/
def remap (virtZone : VirtRange) (atype : AllocType) (allocFunc : AllocFunc σ) :
    Option (σ × VirtMapper × Except MemErr VirtRange) := do
  let virtZone ← virtZone.aligned E.virt.toAddrApi
  remapTo E s m virtZone virtZone.addr atype allocFunc fun s m physZones => do
    match ← m.findRange E.virt physZones.size with
    | none =>
        reverted E s m virtZone physZones
          (.invlVirtMem "not enough space in virtual memory space for allocation")
    | some newVirtZone =>
        let s ← E.mapInternal s (← physZones.unmappingIter E.phys E.virt.toAddrApi virtZone)
        let (s, physZones) ← physZones.markUnmapped E.toMemApi s
        let (s, m) ← place E s ⟨m.virtMap.erase virtZone⟩ physZones newVirtZone
        some (s, m, .ok newVirtZone)

/-- `remap_at`. -/
def remapAt (virtZone : VirtRange) (targetAddr : ℕ) (atype : AllocType) (allocFunc : AllocFunc σ) :
    Option (σ × VirtMapper × Except MemErr VirtRange) := do
  let virtZone ← virtZone.aligned E.virt.toAddrApi
  remapTo E s m virtZone (alignDown targetAddr PAGE_SIZE) atype allocFunc fun s m physZones =>
    reverted E s m virtZone physZones (.invlVirtMem "could not remap virt zone to target virt zone")

/-- `unmap`. -/
def unmap (virtZone : VirtRange) (atype : AllocType) :
    Option (σ × VirtMapper × Except MemErr VirtLayout) :=
  match m.virtMap.get? virtZone with
  | none => some (s, m, .error (.invlPtr "invalid virt zone passed to remap"))
  | some virtLayout =>
      if virtLayout.allocType ≠ atype then
        some (s, m, .error (.invlMemType "memory type does not match passed atype"))
      else do
        let s ← E.mapInternal s (← virtLayout.unmappingIter E.phys E.virt.toAddrApi virtZone)
        let (s, physZones) ← virtLayout.markUnmapped E.toMemApi s
        some (s, ⟨m.virtMap.erase virtZone⟩, .ok physZones)

end VirtMapper
end AuroraOs
