import AuroraOs.Mem.PhysAlloc

/-!
# The heap

`libutil/src/mem/heap.rs`.  A `HeapZone` is a granted block of pages with its header at the start;
its free nodes are on a list, and `alloc` cuts from the end of the first node that is large enough.
The two kinds of list behave as sequences (`LinkedList.run_represents`) and are sequences here.

`UtilCalls::alloc` is the parameter `grant`: what the page allocator answers to a request.  A null
pointer is `none` as a result of `alloc`; `none` as a result of `new` or `dealloc` is a panic.
-/

namespace AuroraOs

open Blocks

/-- `mem::size_of::<Node>()`: two links and a size. -/
def sizeofNode : ℕ := 24

/-- `mem::size_of::<HeapZone>()`: two links, an `Allocation`, a size and a list. -/
def sizeofHeapZone : ℕ := 72

/-- `CHUNK_SIZE`. -/
def CHUNK_SIZE : ℕ := 1 <<< log2Up sizeofNode

/-- `INITIAL_CHUNK_SIZE`. -/
def INITIAL_CHUNK_SIZE : ℕ := alignUp sizeofHeapZone CHUNK_SIZE

/-- `INITIAL_HEAP_SIZE`. -/
def INITIAL_HEAP_SIZE : ℕ := PAGE_SIZE * 8

/-- `HEAP_INC_SIZE`. -/
def HEAP_INC_SIZE : ℕ := PAGE_SIZE * 4

theorem CHUNK_SIZE_eq : CHUNK_SIZE = 2 ^ 5 := by decide

theorem INITIAL_CHUNK_SIZE_eq : INITIAL_CHUNK_SIZE = 96 := by decide

/-- `Layout`: the size rounded up to the alignment is at most `isize::MAX`. -/
structure Layout where
  size : ℕ
  align : ℕ
  pow_two : ∃ k, align = 2 ^ k
  fits : size + align ≤ 2 ^ 63
  deriving DecidableEq

/-- A free `Node`: its address and size. -/
abbrev HeapNode := Block

/-- `ResizeResult`. -/
inductive ResizeResult
  | shrink (addr : ℕ)
  | remove (addr : ℕ)
  | noCapacity

/-- `Node::resize`: cut `size` bytes from the end of a node. -/
def HeapNode.resize (node : HeapNode) (size align : ℕ) : HeapNode × ResizeResult :=
  if size > node.size then (node, .noCapacity)
  else
    let naddr := alignDown (node.addr + (node.size - size)) (max align CHUNK_SIZE)
    if naddr < node.addr then (node, .noCapacity)
    else
      let nsize := naddr - node.addr
      if nsize ≥ CHUNK_SIZE then ({ node with size := nsize }, .shrink naddr)
      else (node, .remove naddr)

/-- `Node::merge`: the node grown by the other one, if they touch. -/
def HeapNode.merge (node other : HeapNode) : Option HeapNode :=
  if node.addr + node.size = other.addr then some { node with size := node.size + other.size }
  else none

/-- `HeapZone`. -/
structure HeapZone where
  mem : Allocation
  freeSpace : ℕ
  list : List HeapNode
  deriving DecidableEq

/-- What an allocation cut off: the pointer, and where the free node it was cut from ended.  The
code knows the pointer only. -/
structure Carved where
  ptr : ℕ
  limit : ℕ
  deriving DecidableEq

namespace HeapZone

/-- `HeapZone::new`. -/
def new (grant : ℕ → Option Allocation) (size : ℕ) : Option HeapZone := do
  let mem ← grant (alignUp size PAGE_SIZE)
  let size := mem.size
  some
    { mem := mem
      freeSpace := size - INITIAL_CHUNK_SIZE
      list := [⟨mem.addr + INITIAL_CHUNK_SIZE, size - INITIAL_CHUNK_SIZE⟩] }

/-- `HeapZone::contains`. -/
def contains (z : HeapZone) (addr size : ℕ) : Bool :=
  addr ≥ z.mem.addr + CHUNK_SIZE && addr + size ≤ z.mem.addr + CHUNK_SIZE + z.mem.size

/-- The loop of `HeapZone::alloc` over the free nodes. -/
def allocFrom (freeSpace : ℕ) (layout : Layout) : List HeapNode →
    Option (List HeapNode × ℕ × Carved)
  | [] => none
  | node :: rest =>
      if node.size ≥ layout.size then
        match node.resize layout.size layout.align with
        | (node', .shrink addr) =>
            some (node' :: rest, freeSpace - node.size + node'.size, ⟨addr, node.addr + node.size⟩)
        | (_, .remove addr) =>
            some (rest, freeSpace - node.size, ⟨addr, node.addr + node.size⟩)
        | (_, .noCapacity) => (allocFrom freeSpace layout rest).map fun r => (node :: r.1, r.2)
      else (allocFrom freeSpace layout rest).map fun r => (node :: r.1, r.2)

/-- `HeapZone::alloc`. -/
def alloc (z : HeapZone) (layout : Layout) : Option (HeapZone × Carved) :=
  if layout.size > z.freeSpace then none
  else (allocFrom z.freeSpace layout z.list).map fun r =>
    ({ z with list := r.1, freeSpace := r.2.1 }, r.2.2)

/-- `HeapZone::get_prev_next_node`: the nodes up to the address, and the ones after it.  The two
nodes of the source are the last of the former and the first of the latter. -/
def getPrevNextNode (addr : ℕ) : List HeapNode → List HeapNode × List HeapNode
  | [] => ([], [])
  | region :: rest =>
      if region.addr > addr then ([], region :: rest)
      else
        let r := getPrevNextNode addr rest
        (region :: r.1, r.2)

/-- Merge the freed node into the one before it, or put it on the list behind that. -/
def mergePrev (before : List HeapNode) (cnode : HeapNode) : List HeapNode × HeapNode :=
  match before.getLast? with
  | none => ([], cnode)
  | some pnode =>
      match pnode.merge cnode with
      | some node => (before.dropLast, node)
      | none => (before, cnode)

/-- Merge the node after the freed one into it. -/
def mergeNext (cnode : HeapNode) : List HeapNode → List HeapNode
  | [] => [cnode]
  | nnode :: rest =>
      match cnode.merge nnode with
      | some node => node :: rest
      | none => cnode :: nnode :: rest

/-- The number of bytes that `HeapZone::dealloc` frees. -/
def deallocSize (layout : Layout) : ℕ := alignUp layout.size (max CHUNK_SIZE layout.align)

/-- `HeapZone::dealloc`. -/
def dealloc (z : HeapZone) (ptr : ℕ) (layout : Layout) : HeapZone :=
  let size := deallocSize layout
  let (before, after) := getPrevNextNode ptr z.list
  let (before, cnode) := mergePrev before ⟨ptr, size⟩
  { z with
    list := before ++ mergeNext cnode after
    freeSpace := z.freeSpace + size }

end HeapZone

/-- `LinkedListAllocator`: the zones. -/
abbrev LinkedListAllocator := List HeapZone

namespace LinkedListAllocator

/-- `LinkedListAllocator::new`. -/
def new (grant : ℕ → Option Allocation) : Option LinkedListAllocator :=
  (HeapZone.new grant INITIAL_HEAP_SIZE).map fun z => [z]

/-- The loop of `LinkedListAllocator::alloc` over the zones. -/
def allocIn (layout : Layout) : List HeapZone → Option (List HeapZone × Carved)
  | [] => none
  | z :: zs =>
      if z.freeSpace ≥ layout.size then
        match z.alloc layout with
        | some (z', c) => some (z' :: zs, c)
        | none => (allocIn layout zs).map fun r => (z :: r.1, r.2)
      else (allocIn layout zs).map fun r => (z :: r.1, r.2)

/-- The size asked for when no zone has room. -/
def sizeInc (layout : Layout) : ℕ :=
  max HEAP_INC_SIZE (layout.size + max layout.align CHUNK_SIZE + INITIAL_CHUNK_SIZE)

/-- `LinkedListAllocator::alloc`. -/
def alloc (grant : ℕ → Option Allocation) (heap : LinkedListAllocator) (layout : Layout) :
    LinkedListAllocator × Option Carved :=
  match allocIn layout heap with
  | some (heap', c) => (heap', some c)
  | none =>
      match HeapZone.new grant (sizeInc layout) with
      | none => (heap, none)
      | some zone =>
          match zone.alloc layout with
          | some (zone', c) => (heap ++ [zone'], some c)
          | none => (heap ++ [zone], none)

/-- The loop of `LinkedListAllocator::dealloc` over the zones. -/
def deallocIn (ptr : ℕ) (layout : Layout) : List HeapZone → Option (List HeapZone)
  | [] => none
  | z :: zs =>
      if z.contains ptr layout.size then some (z.dealloc ptr layout :: zs)
      else (deallocIn ptr layout zs).map fun zs => z :: zs

/-- `LinkedListAllocator::dealloc`. -/
def dealloc (heap : LinkedListAllocator) (ptr : ℕ) (layout : Layout) :
    Option LinkedListAllocator :=
  if alignOf ptr ≥ CHUNK_SIZE then deallocIn ptr layout heap else none

end LinkedListAllocator
end AuroraOs
