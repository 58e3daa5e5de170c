import AuroraOs.Mem.Range
import AuroraOs.Mem.ZoneManager
import AuroraOs.Cap.Capability

/-!
# Layouts of virtual memory

`VirtLayoutElement`, `VirtLayout` and `PageMappingIterator` of `kernel/src/mem/virt_alloc.rs`: what
is mapped in a region, and the pieces that are mapped or unmapped when the region changes.  Elements
from `dirtyIndex` on are not mapped yet; `deallocQue` holds elements that were removed and are still
mapped.

The zone manager and the page tables are reached through `MemApi`, over a state of its own.
-/

namespace AuroraOs

open Blocks

abbrev VirtRange := AddrRange

/-- `VirtAddr`, with `new_truncate`.  `try_new` fails where `new` panics. -/
structure VirtAddrApi extends AddrApi where
  newTruncate : ℕ → ℕ

/-- `VirtAddr`: bits 48 to 63 are copies of bit 47.  `new` makes them so if they are all zero, and
rejects other addresses. -/
structure VirtAddrApi.IsVirt (V : VirtAddrApi) : Prop where
  new_eq : ∀ a < usizeMod, V.new a =
    if a < 2 ^ 47 then some a else if a < 2 ^ 48 then some (a + (2 ^ 64 - 2 ^ 48))
    else if a < 2 ^ 64 - 2 ^ 47 then none else some a
  add_eq : ∀ a n, V.add a n = V.new ((a + n) % usizeMod)
  sub_eq : ∀ a n, V.sub a n = if n ≤ a then V.new (a - n) else none
  diff_eq : ∀ a b, V.diff a b = if b ≤ a then some (a - b) else none
  newTruncate_eq : ∀ a, V.newTruncate a =
    if a % 2 ^ 48 < 2 ^ 47 then a % 2 ^ 48 else a % 2 ^ 48 + (2 ^ 64 - 2 ^ 48)

/-- `VirtAddr::new`, as documented. -/
def virtAddrNew (a : ℕ) : Option ℕ :=
  if a < 2 ^ 47 then some a else if a < 2 ^ 48 then some (a + (2 ^ 64 - 2 ^ 48))
  else if a < 2 ^ 64 - 2 ^ 47 then none else some a

/-- `VirtAddr`, as documented. -/
def virtAddr : VirtAddrApi where
  new := virtAddrNew
  add a n := virtAddrNew ((a + n) % usizeMod)
  sub a n := if n ≤ a then virtAddrNew (a - n) else none
  diff a b := if b ≤ a then some (a - b) else none
  newTruncate a := if a % 2 ^ 48 < 2 ^ 47 then a % 2 ^ 48 else a % 2 ^ 48 + (2 ^ 64 - 2 ^ 48)

theorem virtAddr_isVirt : virtAddr.IsVirt where
  new_eq _ _ := rfl
  add_eq _ _ := rfl
  sub_eq _ _ := rfl
  diff_eq _ _ := rfl
  newTruncate_eq _ := rfl

/-- `KERNEL_VMA` of the linker script, and the value of `MEM_OFFSET`. -/
def KERNEL_VMA : ℕ := 0xffffff8000000000

/-- `virt_to_phys`. -/
def virtToPhys (P : AddrApi) (vaddr : ℕ) : Option ℕ :=
  if vaddr < KERNEL_VMA then none else P.new (vaddr - KERNEL_VMA)

/-- A subtraction of `usize` values. -/
def subUsize (a b : ℕ) : ℕ := (a + usizeMod - b) % usizeMod

/-- `page_aligned`. -/
def pageAligned (addr : ℕ) : Bool := decide (alignOf addr ≥ PAGE_SIZE)

namespace AddrRange

variable (A : AddrApi) (self : AddrRange)

/-- `new`. -/
def new (addr size : ℕ) : AddrRange := ⟨alignDown addr PAGE_SIZE, alignUp size PAGE_SIZE⟩

/-- `new_aligned`. -/
def newAligned (addr size : ℕ) : Option AddrRange := do
  let addr2 := alignUp (← A.add addr size) PAGE_SIZE
  some ⟨alignDown addr PAGE_SIZE, alignUp (← A.diff addr2 addr) PAGE_SIZE⟩

/-- `aligned`. -/
def aligned : Option AddrRange := newAligned A self.addr self.size

/-- `null`. -/
def null : AddrRange := ⟨0, 0⟩

/-- `end_addr`. -/
def endAddr : Option ℕ := A.add self.addr self.size

/-- `end_usize`. -/
def endUsize : ℕ := (self.addr + self.size) % usizeMod

/-- `PhysRange::from`. -/
def fromAllocation (mem : Allocation) : Option AddrRange :=
  (virtToPhys A mem.addr).map fun addr => new addr mem.size

end AddrRange

/-! ### Flags -/

/-- `PageTableFlags`. -/
abbrev PageTableFlags := BitVec 64

namespace PageTableFlags

def NONE : PageTableFlags := 0
def PRESENT : PageTableFlags := 1
def WRITABLE : PageTableFlags := 1 <<< 1
def USER : PageTableFlags := 1 <<< 2
def NO_EXEC : PageTableFlags := 1 <<< 63

end PageTableFlags

namespace PageMappingFlags

def EXEC : PageMappingFlags := 1 <<< 2
def EXACT_SIZE : PageMappingFlags := 1 <<< 4

/-- `PageMappingFlags::from_bits_truncate`. -/
def fromBitsTruncate (bits : ℕ) : PageMappingFlags := BitVec.ofNat 5 bits

/-- `PageMappingFlags::contains`. -/
def contains (self other : PageMappingFlags) : Bool := self &&& other == other

/-- `PageMappingFlags::exists`. -/
def exists_ (self : PageMappingFlags) : Bool := self &&& (READ ||| WRITE ||| EXEC) != 0

end PageMappingFlags

/-- `PageTableFlags::from_mapping_flags`. -/
def PageTableFlags.fromMappingFlags (flags : PageMappingFlags) : PageTableFlags :=
  let out := NONE
  let out := if flags.contains .WRITE then out ||| WRITABLE else out
  let out := if !flags.contains .EXEC then out ||| NO_EXEC else out
  let out := if flags.exists_ then out ||| PRESENT else out
  if flags.contains .USER then out ||| USER else out

/-- `PageTableFlags::present`. -/
def PageTableFlags.present (self : PageTableFlags) : Bool := self &&& PRESENT == PRESENT

/-! ### The rest of the kernel -/

/-- `Pmit`. -/
structure Pmit where
  physZone : AddrRange
  virtZone : VirtRange
  flags : PageTableFlags
  deriving DecidableEq

/-- `Pmit::new`; `none` is the failed assertion. -/
def Pmit.new (physZone : AddrRange) (virtZone : VirtRange) (flags : PageTableFlags) : Option Pmit :=
  if physZone.size = virtZone.size then some ⟨physZone, virtZone, flags⟩ else none

/-- What the address space uses of the zone manager and of the page tables: `zm.alloc`, `zm.dealloc`
and `map_internal` over the zones of a `PageMappingIterator`. -/
structure MemApi (σ : Type*) where
  alloc : σ → ℕ → Option (σ × Option ZoneAllocation)
  dealloc : σ → ZoneAllocation → Option σ
  mapInternal : σ → List Pmit → Option σ

/-! ### Elements -/

/-- `VirtLayoutElementType`. -/
inductive VirtLayoutElementType
  | mem (mem : AddrRange)
  | allocedMem (mem : ZoneAllocation)
  | empty (size : ℕ)
  deriving DecidableEq

/-- `VirtLayoutElementType::size`. -/
def VirtLayoutElementType.size : VirtLayoutElementType → ℕ
  | .mem range => range.size
  | .allocedMem alloced => alloced.mem.size
  | .empty n => n

/-- `VirtLayoutElement`. -/
structure VirtLayoutElement where
  physData : VirtLayoutElementType
  mapSize : ℕ
  flags : PageTableFlags
  mappingFlags : PageMappingFlags
  deriving DecidableEq

namespace VirtLayoutElement

variable {σ : Type*} (M : MemApi σ) (s : σ) (P : AddrApi) (self : VirtLayoutElement)

/-- `VirtLayoutElement::new`. -/
def new (size : ℕ) (flags : PageMappingFlags) : Option (σ × Option VirtLayoutElement) :=
  let size := alignUp size PAGE_SIZE
  if flags.exists_ then do
    let (s, mem) ← M.alloc s size
    some (s, mem.map fun mem =>
      ⟨.allocedMem mem, if flags.contains .EXACT_SIZE then size else mem.mem.size,
        .fromMappingFlags flags, flags⟩)
  else some (s, some ⟨.empty size, size, .fromMappingFlags flags, flags⟩)

/-- `VirtLayoutElement::from_mem`. -/
def fromMem (mem : ZoneAllocation) (size : ℕ) (flags : PageMappingFlags) : VirtLayoutElement :=
  let size := alignUp size PAGE_SIZE
  ⟨.allocedMem mem, if flags.contains .EXACT_SIZE then min mem.mem.size size else mem.mem.size,
    .fromMappingFlags flags, flags⟩

/-- `VirtLayoutElement::from_range`. -/
def fromRange (physRange : AddrRange) (flags : PageMappingFlags) : Option VirtLayoutElement := do
  let physRange ← physRange.aligned P
  some ⟨.mem physRange, physRange.size, .fromMappingFlags flags, flags⟩

/-- `VirtLayoutElement::size`. -/
def size : ℕ := self.mapSize

/-- `VirtLayoutElement::raw_size`. -/
def rawSize : ℕ := self.physData.size

/-- `VirtLayoutElement::as_phys_zone`. -/
def asPhysZone : Option (Option AddrRange) :=
  if !self.flags.present then some none
  else
    match self.physData with
    | .allocedMem mem => (virtToPhys P mem.mem.addr).map fun addr => some (.new addr self.mapSize)
    | .mem mem => some (some (.new mem.addr self.mapSize))
    | .empty _ => some none

/-- `VirtLayoutElement::dealloc`. -/
def dealloc : Option σ :=
  match self.physData with
  | .allocedMem mem => M.dealloc s mem
  | _ => some s

end VirtLayoutElement

/-! ### Layouts -/

/-- `AllocType`. -/
inductive AllocType
  | virtMem
  | physMap
  | shared
  | protected_
  deriving DecidableEq

/-- `VirtLayout`. -/
structure VirtLayout where
  data : List VirtLayoutElement
  deallocQue : List VirtLayoutElement
  dirtyIndex : ℕ
  cleanSize : ℕ
  atype : AllocType
  dirty_le : dirtyIndex ≤ data.length
  deriving DecidableEq

namespace VirtLayout

variable {σ : Type*} (M : MemApi σ) (s : σ) (P V : AddrApi) (self : VirtLayout)

/-- `VirtLayout::from`. -/
def ofVec (vec : List VirtLayoutElement) (atype : AllocType) : VirtLayout :=
  ⟨vec, [], 0, 0, atype, Nat.zero_le _⟩

/-- `alloc_type`. -/
def allocType : AllocType := self.atype

/-- `push`. -/
def push (elem : VirtLayoutElement) : VirtLayout :=
  { self with
    data := self.data ++ [elem]
    dirty_le := by simpa using self.dirty_le.trans (Nat.le_succ _) }

/-- `pop_delete`. -/
def popDelete : VirtLayout :=
  match self.data.getLast? with
  | none => self
  | some elem =>
      if h : self.data.dropLast.length < self.dirtyIndex then
        { self with
          data := self.data.dropLast
          deallocQue := self.deallocQue ++ [elem]
          dirtyIndex := self.data.dropLast.length
          dirty_le := le_rfl }
      else { self with data := self.data.dropLast, dirty_le := Nat.le_of_not_lt h }

/-- A sum of sizes. -/
def sizeOf (elems : List VirtLayoutElement) : ℕ := elems.foldl (fun n a => (n + a.size) % usizeMod) 0

/-- `size`. -/
def size : ℕ := sizeOf self.data

/-- `clean_slice`. -/
def cleanSlice : List VirtLayoutElement := self.data.take self.dirtyIndex

/-- `dirty_slice`. -/
def dirtySlice : List VirtLayoutElement := self.data.drop self.dirtyIndex

/-- `flags`. -/
def flags : Option PageMappingFlags :=
  match self.data.head? with
  | some elem => some elem.mappingFlags
  | none => self.deallocQue.head?.map VirtLayoutElement.mappingFlags

/-- `dealloc` of one element after the other. -/
def deallocAll (s : σ) (elems : List VirtLayoutElement) : Option σ :=
  elems.foldlM (fun s a => a.dealloc M s) s

/-- `dealloc`. -/
def dealloc : Option σ := do
  let s ← deallocAll M s self.data
  deallocAll M s self.deallocQue

/-- `sync_mem`. -/
def syncMem : Option (σ × VirtLayout) := do
  let s ← deallocAll M s self.deallocQue
  let cleanSize := self.dirtySlice.foldl (fun n a => (n + a.size) % usizeMod) self.cleanSize
  some (s, { self with
    cleanSize := self.deallocQue.foldl (fun n a => subUsize n a.size) cleanSize
    dirtyIndex := self.data.length
    deallocQue := []
    dirty_le := le_rfl })

/-- `mark_unmapped`. -/
def markUnmapped : Option (σ × VirtLayout) := do
  let s ← deallocAll M s self.deallocQue
  some (s, { self with dirtyIndex := 0, cleanSize := 0, deallocQue := [], dirty_le := Nat.zero_le _ })

/-- `revert`. -/
def revert : Option (σ × VirtLayout) := do
  let s ← deallocAll M s self.dirtySlice.reverse
  some (s, { self with
    data := self.cleanSlice ++ self.deallocQue.reverse
    deallocQue := []
    dirty_le := by
      rw [List.length_append, cleanSlice, List.length_take, min_eq_left self.dirty_le]
      exact Nat.le_add_right _ _ })

/-! ### What the operations keep -/

/-- The layouts have the same elements and the same type. -/
structure Same (l l' : VirtLayout) : Prop where
  data : l'.data = l.data
  atype : l'.atype = l.atype

section Same

variable {M s} {l l' : VirtLayout} {s' : σ}

theorem sizeOf_lt (elems : List VirtLayoutElement) : sizeOf elems < usizeMod := by
  rcases List.eq_nil_or_concat elems with rfl | ⟨init, a, rfl⟩
  · decide
  · rw [sizeOf, List.concat_eq_append, List.foldl_concat]
    exact Nat.mod_lt _ (by decide)

theorem size_lt (l : VirtLayout) : l.size < usizeMod := sizeOf_lt l.data

/-- The sizes of elements, added up without wrapping around. -/
def total (elems : List VirtLayoutElement) : ℕ := (elems.map VirtLayoutElement.size).sum

@[simp] theorem total_nil : total [] = 0 := rfl

@[simp] theorem total_cons (a : VirtLayoutElement) (elems : List VirtLayoutElement) :
    total (a :: elems) = a.size + total elems := by
  simp [total]

@[simp] theorem total_append (elems elems' : List VirtLayoutElement) :
    total (elems ++ elems') = total elems + total elems' := by
  simp [total]

@[simp] theorem total_reverse (elems : List VirtLayoutElement) : total elems.reverse = total elems := by
  simp [total]

theorem foldl_size (n : ℕ) (elems : List VirtLayoutElement) :
    elems.foldl (fun n a => (n + a.size) % usizeMod) (n % usizeMod) = (n + total elems) % usizeMod := by
  induction elems generalizing n with
  | nil => rfl
  | cons a elems ih => rw [List.foldl_cons, Nat.mod_add_mod, ih, total_cons, add_assoc]

theorem sizeOf_eq (elems : List VirtLayoutElement) : sizeOf elems = total elems % usizeMod := by
  rw [sizeOf, ← Nat.zero_mod usizeMod, foldl_size, Nat.zero_add]

theorem Same.refl (l : VirtLayout) : Same l l := ⟨rfl, rfl⟩

theorem Same.size (h : Same l l') : l'.size = l.size := by rw [VirtLayout.size, h.data, VirtLayout.size]

@[simp] theorem push_atype (elem : VirtLayoutElement) : (l.push elem).atype = l.atype := rfl

@[simp] theorem popDelete_atype : l.popDelete.atype = l.atype := by
  unfold popDelete
  split
  · rfl
  · split_ifs <;> rfl

theorem syncMem_same (h : l.syncMem M s = some (s', l')) : Same l l' := by
  obtain ⟨_, -, h⟩ := Option.bind_eq_some_iff.1 h
  rw [← (Prod.mk.inj (Option.some.inj h)).2]
  exact ⟨rfl, rfl⟩

theorem markUnmapped_same (h : l.markUnmapped M s = some (s', l')) : Same l l' := by
  obtain ⟨_, -, h⟩ := Option.bind_eq_some_iff.1 h
  rw [← (Prod.mk.inj (Option.some.inj h)).2]
  exact ⟨rfl, rfl⟩

theorem Same.trans {l₁ l₂ l₃ : VirtLayout} (h : Same l₁ l₂) (h' : Same l₂ l₃) : Same l₁ l₃ :=
  ⟨h'.data.trans h.data, h'.atype.trans h.atype⟩

theorem revert_spec (h : l.revert M s = some (s', l')) :
    l'.data = l.cleanSlice ++ l.deallocQue.reverse ∧ l'.deallocQue = [] ∧
      l'.dirtyIndex = l.dirtyIndex ∧ l'.cleanSize = l.cleanSize ∧ l'.atype = l.atype := by
  obtain ⟨_, -, h⟩ := Option.bind_eq_some_iff.1 h
  rw [← (Prod.mk.inj (Option.some.inj h)).2]
  exact ⟨rfl, rfl, rfl, rfl, rfl⟩

end Same

/-! ### The pieces to map -/

/-- The `Pmit` of an element at an address. -/
def pmit (vaddr : ℕ) (a : VirtLayoutElement) (flags : PageTableFlags) : Option (List Pmit) := do
  match ← a.asPhysZone P with
  | none => some []
  | some prange => do some [← Pmit.new prange (.new vaddr a.size) flags]

/-- Elements from an address on, upward. -/
def pmits (flags : VirtLayoutElement → PageTableFlags) (vaddr : ℕ) (zones : List Pmit) :
    List VirtLayoutElement → Option (ℕ × List Pmit)
  | [] => some (vaddr, zones)
  | a :: elems => do
      let zone ← pmit P vaddr a (flags a)
      pmits flags (← V.add vaddr a.size) (zones ++ zone) elems

/-- Elements up to an address, downward. -/
def pmitsDown (vaddr : ℕ) (zones : List Pmit) : List VirtLayoutElement → Option (ℕ × List Pmit)
  | [] => some (vaddr, zones)
  | a :: elems => do
      let vaddr ← V.sub vaddr a.size
      let zone ← pmit P vaddr a .NONE
      pmitsDown vaddr (zones ++ zone) elems

/-- `PageMappingIterator::new`: what was removed is unmapped, what is dirty is mapped. -/
def mappingIter (virtZone : VirtRange) : Option (List Pmit) := do
  let vaddr ← V.add virtZone.addr self.cleanSize
  let (vaddr, zones) ← pmitsDown P V vaddr [] self.deallocQue
  let (_, zones) ← pmits P V VirtLayoutElement.flags vaddr zones self.dirtySlice
  some zones

/-- `PageMappingIterator::new_unmapper`: what is clean and what was removed is unmapped. -/
def unmappingIter (virtZone : VirtRange) : Option (List Pmit) := do
  let (vaddr, zones) ← pmits P V (fun _ => .NONE) virtZone.addr [] self.cleanSlice
  let (_, zones) ← pmits P V (fun _ => .NONE) vaddr zones self.deallocQue.reverse
  some zones

end VirtLayout
end AuroraOs
