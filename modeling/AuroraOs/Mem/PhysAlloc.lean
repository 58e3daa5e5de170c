import AuroraOs.Util
import AuroraOs.Lib.Blocks
import AuroraOs.Collections.ListRun

/-!
# The buddy allocator

`kernel/src/mem/phys_alloc.rs`.  The free blocks are nodes at the start of the memory they stand
for, on one `LinkedList` an order; the bitmap behind the memory has one bit a page, set for the
first page of a live allocation.

`none` is a panic: an index out of bounds, a null node, a double free.  `VirtAddr::align_up` belongs
to another crate and is a parameter with its documented behaviour.
-/

namespace AuroraOs

open Blocks LinkedList

/-- `PAGE_SIZE`. -/
def PAGE_SIZE : ℕ := 4096

/-- `MAX_ORDER`. -/
def MAX_ORDER : ℕ := 32

/-- `Allocation`: address and length. -/
abbrev Allocation := Block

/-- `VirtAddr::align_up`: the next multiple of the alignment, a panic unless that is a power of
two. -/
structure AlignVirt where
  alignUp : ℕ → ℕ → Option ℕ
  pow_two : ∀ {addr align r}, alignUp addr align = some r → ∃ k, align = 2 ^ k
  dvd : ∀ {addr align r}, alignUp addr align = some r → align ∣ r
  le : ∀ {addr align r}, alignUp addr align = some r → addr ≤ r
  lt : ∀ {addr align r}, alignUp addr align = some r → r < usizeMod

/-- The allocator with the memory it manages: `lists` holds the links of the nodes and `olist`,
`nodeSize` their sizes, `bitmap` the bytes from `metaStart` on. -/
structure BuddyAllocator where
  start : ℕ
  metaStart : ℕ
  bitmap : ℕ → BitVec 8
  lists : LinkedList.Lists ℕ
  nodeSize : Ptr → ℕ
  maxOrder : ℕ
  minOrderSize : ℕ
  minOrderBits : ℕ
  freeSpace : ℕ

namespace BuddyAllocator

variable (b : BuddyAllocator)

/-! ### Nodes and lists -/

/-- `Node::new`: write an unlinked node. -/
def nodeNew (addr size : ℕ) : Option (BuddyAllocator × Ptr) :=
  if addr = null then none
  else some ({ b with
    lists := { b.lists with mem := Function.update b.lists.mem addr ⟨null, null⟩ }
    nodeSize := Function.update b.nodeSize addr size }, addr)

/-- `Node::set_size`. -/
def setSize (node : Ptr) (size : ℕ) : BuddyAllocator :=
  { b with nodeSize := Function.update b.nodeSize node size }

/-- An operation on `olist[order]`. -/
def onOrder (order : ℕ) (op : ListOp ℕ) : Option (BuddyAllocator × Option Ptr) :=
  if order < MAX_ORDER then (step b.lists op).map fun r => ({ b with lists := r.1 }, r.2) else none

/-- `self.olist[order].len()`. -/
def orderLen (order : ℕ) : Option ℕ :=
  if order < MAX_ORDER then some (b.lists.list order).len else none

/-- `self.olist[order].push(node)`. -/
def push (order : ℕ) (node : Ptr) : Option BuddyAllocator :=
  (b.onOrder order (.push order node)).map (·.1)

/-- `self.olist[order].push_front(node)`. -/
def pushFront (order : ℕ) (node : Ptr) : Option BuddyAllocator :=
  (b.onOrder order (.pushFront order node)).map (·.1)

/-- `self.olist[order].pop_front().unwrap()`. -/
def popFront (order : ℕ) : Option (BuddyAllocator × Ptr) := do
  let (b, node) ← b.onOrder order (.popFront order)
  some (b, ← node)

/-- `self.olist[order].remove_node(node)`. -/
def removeNode (order : ℕ) (node : Ptr) : Option BuddyAllocator :=
  (b.onOrder order (.removeNode order node)).map (·.1)

/-! ### Orders and the bitmap -/

/-- `get_order`. -/
def getOrder (size : ℕ) : ℕ :=
  if log2Up size ≤ b.minOrderBits then 0 else log2Up size - b.minOrderBits

/-- `get_order_size`; the callers check that there are blocks of the order. -/
def getOrderSize (order : ℕ) : ℕ := 2 ^ (order + b.minOrderBits)

/-- `ucontains`. -/
def ucontains (addr size : ℕ) : Bool :=
  decide (addr ≥ b.start ∧ (addr + size) % usizeMod ≤ b.metaStart ∧ alignOf addr ≥ b.minOrderSize)

/-- `is_alloced`. -/
def isAlloced (addr : ℕ) : Bool :=
  if addr < b.start ∨ addr ≥ b.metaStart then false
  else
    let i := (addr - b.start) / b.minOrderSize
    decide (b.bitmap (i / 8) &&& (1#8 <<< (i % 8)) > 0)

/-- `set_is_alloced`. -/
def setIsAlloced (addr : ℕ) (alloced : Bool) : BuddyAllocator :=
  if addr < b.start ∨ addr ≥ b.metaStart then b
  else
    let i := (addr - b.start) / b.minOrderSize
    let bit := 1#8 <<< (i % 8)
    let byte := if alloced then b.bitmap (i / 8) ||| bit else b.bitmap (i / 8) &&& ~~~bit
    { b with bitmap := Function.update b.bitmap (i / 8) byte }

/-! ### Construction -/

/-- The loop of `init_orders`. -/
def initOrders (ms : ℕ) (b : BuddyAllocator) (a : ℕ) : Option BuddyAllocator :=
  if _h : a < ms then do
    let len := min (alignOf a) (2 ^ log2 (ms - a))
    let order := b.getOrder len
    let (b, node) ← b.nodeNew a len
    if order > MAX_ORDER then none
    else
      let b ← b.push order node
      initOrders ms (if order > b.maxOrder then { b with maxOrder := order } else b) (a + len)
  else some b
termination_by ms - a
decreasing_by
  have := alignOf_pos a
  have : 0 < min (alignOf a) (2 ^ log2 (ms - a)) := lt_min this (by positivity)
  omega

/-- `BuddyAllocator::new` on memory with arbitrary nodes and bytes. -/
def new (A : AlignVirt) (mem : NodeMem) (nodeSize : Ptr → ℕ) (bytes : ℕ → BitVec 8)
    (startAddr endAddr minOrderSize : ℕ) : Option BuddyAllocator := do
  let minOrderSize := max (alignUp minOrderSize PAGE_SIZE) PAGE_SIZE
  let start ← A.alignUp startAddr minOrderSize
  if endAddr ≤ start then none
  else if 8 * minOrderSize % usizeMod = 0 then none
  else
    let metaSize := (endAddr - start) / (8 * minOrderSize % usizeMod) + 1
    let metaStart := alignDown (endAddr - metaSize) minOrderSize
    initOrders metaStart
      { start := start
        metaStart := metaStart
        bitmap := fun i => if i < metaSize then 0#8 else bytes i
        lists := ⟨mem, fun _ => LinkedList.new⟩
        nodeSize := nodeSize
        maxOrder := 0
        minOrderSize := minOrderSize
        minOrderBits := log2 minOrderSize
        freeSpace := metaStart - start } start

/-! ### Allocation -/

/-- The body of `split_order`: cut the first block of an order in two. -/
def splitFront (order : ℕ) : Option BuddyAllocator := do
  let (b, node) ← b.popFront order
  let b := b.setSize node (b.nodeSize node >>> 1)
  let addr := node ^^^ b.nodeSize node
  let (b, node2) ← b.nodeNew addr (b.nodeSize node)
  let b ← b.pushFront (order - 1) node2
  b.pushFront (order - 1) node

/-- `split_order`: make blocks of the order below, if there is a larger one. -/
def splitOrder (b : BuddyAllocator) (order : ℕ) : Option (BuddyAllocator × Bool) :=
  if _h : order > b.maxOrder ∨ order = 0 then some (b, false)
  else do
    let (b, found) ← if (← b.orderLen order) ≠ 0 then some (b, true) else splitOrder b (order + 1)
    if found then some (← b.splitFront order, true) else some (b, false)
termination_by b.maxOrder + 1 - order
decreasing_by omega

/-- The end of `oalloc`: hand out the first block of an order. -/
def allocFront (order : ℕ) : Option (BuddyAllocator × Allocation) := do
  let (b, node) ← b.popFront order
  let out : Allocation := ⟨node, b.nodeSize node⟩
  let b := b.setIsAlloced node true
  some ({ b with freeSpace := b.freeSpace - b.nodeSize node }, out)

/-- `oalloc`. -/
def oalloc (order : ℕ) : Option (BuddyAllocator × Option Allocation) :=
  if order > b.maxOrder then some (b, none)
  else do
    let (b, found) ← if (← b.orderLen order) = 0 then b.splitOrder (order + 1) else some (b, true)
    if found then
      let (b, out) ← b.allocFront order
      some (b, some out)
    else some (b, none)

/-- `alloc`. -/
def alloc (size : ℕ) : Option (BuddyAllocator × Option Allocation) :=
  if size = 0 then some (b, none) else b.oalloc (b.getOrder size)

/-! ### Deallocation -/

/-- The loop of `insert_node`; an index runs out of bounds before `fuel` does. -/
def insertNodeFrom : ℕ → BuddyAllocator → Ptr → ℕ → Option BuddyAllocator
  | 0, _, _, _ => none
  | fuel + 1, b, node, order =>
      let addr2 := node ^^^ b.nodeSize node
      if addr2 < node ∨ addr2 > b.start ∨ addr2 + b.nodeSize node > b.metaStart
          ∨ b.isAlloced addr2 then
        b.pushFront order node
      else do
        let node2 ← asRef addr2
        if b.nodeSize node ≠ b.nodeSize node2 then b.pushFront order node
        else do
          let b ← b.removeNode order node2
          let node := if addr2 < node then node2 else node
          let b := b.setSize node (b.nodeSize node <<< 1)
          if order + 1 = b.maxOrder then b.pushFront (order + 1) node
          else insertNodeFrom fuel b node (order + 1)

/-- `insert_node`. -/
def insertNode (node : Ptr) : Option BuddyAllocator :=
  insertNodeFrom (MAX_ORDER + 1) b node (b.getOrder (b.nodeSize node))

/-- `dealloc`. -/
def dealloc (mem : Allocation) : Option BuddyAllocator :=
  if mem.addr < b.start ∨ mem.addr + mem.size > b.metaStart then some b
  else if b.isAlloced mem.addr = false then none
  else do
    let b := b.setIsAlloced mem.addr false
    let (b, node) ← b.nodeNew mem.addr mem.size
    { b with freeSpace := b.freeSpace + b.nodeSize node }.insertNode node

/-! ### Allocation at an address -/

/-- The loop of `order_expand_cap`; a `usize` can be doubled `fuel` times at most. -/
def orderExpandCapFrom : ℕ → ℕ → ℕ → ℕ
  | 0, _, _ => 0
  | fuel + 1, addr, size =>
      let addr2 := addr ^^^ size
      if addr2 < addr ∨ (addr2 + size) % usizeMod > b.metaStart ∨ b.isAlloced addr2 then 0
      else orderExpandCapFrom fuel addr (2 * size % usizeMod) + 1

/-- `order_expand_cap`. -/
def orderExpandCap (addr size : ℕ) : ℕ := b.orderExpandCapFrom 64 addr size

/-- The end of `split_order_at`: the block at `minAddr` becomes two blocks of the order. -/
def cutAt (minAddr maxAddr order : ℕ) : Option BuddyAllocator := do
  let size := b.getOrderSize order
  let node ← asRef minAddr
  let b ← b.removeNode (order + 1) node
  let b := b.setSize node size
  let (b, node2) ← b.nodeNew maxAddr size
  let b ← b.push order node
  b.push order node2

/-- `split_order_at`: cut the block that is taken to hold `addr` down to the order. -/
def splitOrderAt (b : BuddyAllocator) (addr order : ℕ) : Option BuddyAllocator :=
  if _h : order ≥ b.maxOrder then some b
  else
    let size := b.getOrderSize order
    let addr2 := addr ^^^ size
    if b.ucontains addr2 size = false ∨ b.isAlloced addr2 then some b
    else do
      let minAddr := min addr addr2
      let maxAddr := max addr addr2
      let b ← splitOrderAt b minAddr (order + 1)
      b.cutAt minAddr maxAddr order
termination_by b.maxOrder - order

/-- `oalloc_at`. -/
def oallocAt (addr order : ℕ) : Option (BuddyAllocator × Option Allocation) :=
  if order > b.maxOrder then some (b, none)
  else
    let size := b.getOrderSize order
    if b.ucontains addr size = false then some (b, none)
    else if b.isAlloced addr ∨ order > b.orderExpandCap addr b.minOrderSize then some (b, none)
    else do
      let b ← b.splitOrderAt addr order
      let node ← asRef addr
      let b ← b.removeNode order node
      let b := b.setIsAlloced addr true
      some ({ b with freeSpace := b.freeSpace - size }, some ⟨addr, size⟩)

/-- `alloc_at`. -/
def allocAt (addr size : ℕ) : Option (BuddyAllocator × Option Allocation) :=
  if size = 0 then some (b, none) else b.oallocAt addr (b.getOrder size)

/-! ### Reallocation -/

/-- The loop of `orealloc` that makes a block smaller: the upper half goes on the list of its
order. -/
def shrinkFrom (b : BuddyAllocator) (addr order size : ℕ) : ℕ → Option (BuddyAllocator × ℕ)
  | 0 => some (b, size)
  | old + 1 =>
      if old + 1 > order then do
        let size := size >>> 1
        let (b, node) ← b.nodeNew (addr ^^^ size) size
        let b ← b.pushFront old node
        shrinkFrom b addr order size old
      else some (b, size)

/-- The loop of `orealloc` that makes a block larger: the buddies of the orders leave their
lists. -/
def takeBuddies (addr : ℕ) (orders : List ℕ) : Option BuddyAllocator :=
  orders.foldlM (fun b order => do
    let node ← asRef (addr ^^^ b.getOrderSize order)
    b.removeNode order node) b

end BuddyAllocator

/-- The bytes of memory. -/
abbrev Bytes := ℕ → BitVec 8

/-- `memset`. -/
def memset (bytes : Bytes) (mem len : ℕ) (data : BitVec 8) : Bytes :=
  (List.range len).foldl (fun bytes i => Function.update bytes (mem + i) data) bytes

theorem memset_apply (bytes : Bytes) (mem len : ℕ) (data : BitVec 8) (x : ℕ) :
    memset bytes mem len data x = if mem ≤ x ∧ x < mem + len then data else bytes x := by
  induction len with
  | zero => rw [if_neg (by omega)]; rfl
  | succ len ih =>
    unfold memset at ih ⊢
    rw [List.range_succ, List.foldl_append, List.foldl_cons, List.foldl_nil, Function.update_apply, ih]
    split_ifs <;> first | rfl | omega

/-- `size_of::<Node>()`: two links and a size. -/
def NODE_SIZE : ℕ := 24

/-- How nodes lie in memory: `read` is the node that the bytes at an address make up, and `write`
are the bytes once the nodes of an allocator have been replaced by those of another.  Below the
bitmap only the bytes of nodes change. -/
structure NodeLayout where
  read : Bytes → Ptr → DoublyLinked.Links Ptr × ℕ
  write : BuddyAllocator → BuddyAllocator → Bytes → Bytes
  frame : ∀ {b b' bytes x}, x < b.metaStart → (∀ p, p ≤ x → x < p + NODE_SIZE →
    b'.lists.mem p = b.lists.mem p ∧ b'.nodeSize p = b.nodeSize p) → write b b' bytes x = bytes x

namespace BuddyAllocator

variable (b : BuddyAllocator) (L : NodeLayout)

/-- The nodes once the bytes of a block have been overwritten. -/
def reload (bytes : Bytes) (r : Block) : BuddyAllocator :=
  { b with
    lists := { b.lists with mem := fun p =>
      if p < r.addr + r.size ∧ r.addr < p + NODE_SIZE then (L.read bytes p).1 else b.lists.mem p }
    nodeSize := fun p =>
      if p < r.addr + r.size ∧ r.addr < p + NODE_SIZE then (L.read bytes p).2 else b.nodeSize p }

/-- `copy_from_slice`. -/
def copyBytes (bytes : Bytes) (src dst len : ℕ) : Bytes := fun x =>
  if dst ≤ x ∧ x < dst + len then bytes (src + (x - dst)) else bytes x

/-- `orealloc`, with the memory. -/
def orealloc (bytes : Bytes) (mem : Allocation) (order : ℕ) :
    Option (BuddyAllocator × Bytes × Option Allocation) :=
  if order > b.maxOrder then some (b, bytes, none)
  else
    let addr := mem.addr
    let len := mem.size
    if addr < b.start ∨ addr + len > b.metaStart then some (b, bytes, none)
    else if b.isAlloced addr = false then none
    else
      let old := b.getOrder len
      if order = old then some (b, bytes, some mem)
      else if order < old then do
        let odiff := old - order
        let (b', size) ← b.shrinkFrom addr order (b.getOrderSize old) old
        let b' := { b' with freeSpace := b'.freeSpace + b'.getOrderSize odiff }
        some (b', L.write b b' bytes, some ⟨addr, size⟩)
      else
        let odiff := order - old
        if b.orderExpandCap addr len ≥ odiff then do
          let b' ← b.takeBuddies addr (List.range' old (order - old))
          let b' := { b' with freeSpace := b'.freeSpace + b'.getOrderSize odiff }
          some (b', L.write b b' bytes, some ⟨addr, b'.getOrderSize order⟩)
        else do
          let (b', out) ← b.oalloc order
          match out with
          | none => some (b', bytes, none)
          | some out =>
            let bytes := L.write b b' bytes
            if len > out.size then none
            else do
              let bytes := copyBytes bytes addr out.addr len
              let b' := b'.reload L bytes ⟨out.addr, len⟩
              let b'' ← b'.dealloc mem
              let bytes := L.write b' b'' bytes
              some ({ b'' with freeSpace := b''.freeSpace + b''.getOrderSize odiff }, bytes, some out)

/-- `realloc`. -/
def realloc (bytes : Bytes) (mem : Allocation) (size : ℕ) :
    Option (BuddyAllocator × Bytes × Option Allocation) :=
  if size = 0 then some (b, bytes, none) else b.orealloc L bytes mem (b.getOrder size)

end BuddyAllocator
end AuroraOs
