import AuroraOs.Mem.BuddyRealloc

/-!
# Runs of a zone

A zone is an allocator with its memory and the allocations that its callers hold.  A run calls the
allocator in any order, and the holders of live allocations write to them in between.  As long as
`oalloc_at` finds the block around its address and blocks grow over free buddies only, the free
blocks and the live allocations partition the memory.
-/

namespace AuroraOs

open Blocks LinkedList Machine BuddyAllocator

/-- A zone: its allocator, the live allocations, the memory. -/
structure Zone where
  allocer : BuddyAllocator
  live : List Allocation
  bytes : Bytes

/-- The calls, and a write to memory. -/
inductive ZoneOp
  | alloc (size : ℕ)
  | oalloc (order : ℕ)
  | allocAt (addr size : ℕ)
  | oallocAt (addr order : ℕ)
  | realloc (mem : Allocation) (size : ℕ)
  | orealloc (mem : Allocation) (order : ℕ)
  | dealloc (mem : Allocation)
  | write (addr : ℕ) (byte : BitVec 8)

namespace Zone

variable (L : NodeLayout)

/-- The outcome of an allocation. -/
def allocated (z : Zone) (r : BuddyAllocator × Option Allocation) : Zone :=
  ⟨r.1, r.2.toList ++ z.live, L.write z.allocer r.1 z.bytes⟩

/-- The outcome of a reallocation. -/
def reallocated (z : Zone) (mem : Allocation) (r : BuddyAllocator × Bytes × Option Allocation) :
    Zone :=
  match r.2.2 with
  | none => ⟨r.1, z.live, r.2.1⟩
  | some out => ⟨r.1, out :: z.live.erase mem, r.2.1⟩

/-- A call or a write. -/
def step (z : Zone) : ZoneOp → Option Zone
  | .alloc size => (z.allocer.alloc size).map (z.allocated L)
  | .oalloc order => (z.allocer.oalloc order).map (z.allocated L)
  | .allocAt addr size => (z.allocer.allocAt addr size).map (z.allocated L)
  | .oallocAt addr order => (z.allocer.oallocAt addr order).map (z.allocated L)
  | .realloc mem size => (z.allocer.realloc L z.bytes mem size).map (z.reallocated mem)
  | .orealloc mem order => (z.allocer.orealloc L z.bytes mem order).map (z.reallocated mem)
  | .dealloc mem => (z.allocer.dealloc mem).map fun b =>
      ⟨b, z.live.erase mem, L.write z.allocer b z.bytes⟩
  | .write addr byte =>
      let bytes := Function.update z.bytes addr byte
      some ⟨z.allocer.reload L bytes ⟨addr, 1⟩, z.live, bytes⟩

/-- Only live allocations are reallocated, freed and written to. -/
def Legal (z : Zone) : ZoneOp → Prop
  | .realloc mem _ => mem ∈ z.live
  | .orealloc mem _ => mem ∈ z.live
  | .dealloc mem => mem ∈ z.live
  | .write addr _ => ∃ a ∈ z.live, a.Has addr
  | _ => True

instance (z : Zone) : (op : ZoneOp) → Decidable (Legal z op)
  | .realloc mem _ => inferInstanceAs (Decidable (mem ∈ z.live))
  | .orealloc mem _ => inferInstanceAs (Decidable (mem ∈ z.live))
  | .dealloc mem => inferInstanceAs (Decidable (mem ∈ z.live))
  | .write addr _ => inferInstanceAs (Decidable (∃ a ∈ z.live, a.Has addr))
  | .alloc _ => isTrue trivial
  | .oalloc _ => isTrue trivial
  | .allocAt _ _ => isTrue trivial
  | .oallocAt _ _ => isTrue trivial

/-- `oalloc_at` finds the block around its address if it looks for it. -/
def Found (z : Zone) (addr order : ℕ) : Prop :=
  Checked z.allocer addr order → Enclosed z.allocer addr order

instance (z : Zone) (addr order : ℕ) : Decidable (Found z addr order) :=
  inferInstanceAs (Decidable (Checked z.allocer addr order → Enclosed z.allocer addr order))

/-- `orealloc` grows over free buddies if it grows in place. -/
def Room (z : Zone) (mem : Allocation) (order : ℕ) : Prop :=
  GrowsInPlace z.allocer mem order → Backed z.allocer mem order

instance (z : Zone) (mem : Allocation) (order : ℕ) : Decidable (Room z mem order) :=
  inferInstanceAs (Decidable (GrowsInPlace z.allocer mem order → Backed z.allocer mem order))

/-- The condition under which a call is right. -/
def Guarded (z : Zone) : ZoneOp → Prop
  | .allocAt addr size => size ≠ 0 → Found z addr (z.allocer.getOrder size)
  | .oallocAt addr order => Found z addr order
  | .realloc mem size => Room z mem (z.allocer.getOrder size)
  | .orealloc mem order => Room z mem order
  | _ => True

instance (z : Zone) : (op : ZoneOp) → Decidable (Guarded z op)
  | .allocAt addr size => inferInstanceAs (Decidable (size ≠ 0 → Found z addr _))
  | .oallocAt addr order => inferInstanceAs (Decidable (Found z addr order))
  | .realloc mem _ => inferInstanceAs (Decidable (Room z mem _))
  | .orealloc mem order => inferInstanceAs (Decidable (Room z mem order))
  | .alloc _ => isTrue trivial
  | .oalloc _ => isTrue trivial
  | .dealloc _ => isTrue trivial
  | .write _ _ => isTrue trivial

/-! ### What a run keeps -/

/-- The invariant of a zone that `new` set up as `b`. -/
def Inv (b : BuddyAllocator) (z : Zone) : Prop :=
  (∃ seqs, BuddyAllocator.Inv z.allocer seqs z.live) ∧ Same b z.allocer ∧ Largest z.allocer

variable {L} {b : BuddyAllocator} {z : Zone} {mem : Allocation}

theorem Inv.allocated (h : Inv b z) {b' : BuddyAllocator} {seqs : ℕ → List Ptr}
    {out : Option Allocation} (h' : BuddyAllocator.Inv b' seqs (out.toList ++ z.live))
    (hs : Same z.allocer b') : Inv b (z.allocated L (b', out)) :=
  ⟨⟨seqs, h'⟩, h.2.1.trans hs, hs.largest h.2.2⟩

theorem Inv.orealloc (h : Inv b z) (hmem : mem ∈ z.live) {order : ℕ} (hc : Room z mem order) :
    ∃ r, z.allocer.orealloc L z.bytes mem order = some r ∧ Inv b (z.reallocated mem r) := by
  obtain ⟨⟨seqs, h₁⟩, hsame, hl⟩ := h
  obtain ⟨b', bytes', out, he, hnone, hsome⟩ :=
    orealloc_spec L z.bytes (h₁.perm (List.perm_cons_erase hmem)) hc
  refine ⟨_, he, ?_⟩
  cases out with
  | none =>
    obtain ⟨rfl, -⟩ := hnone rfl
    exact ⟨⟨seqs, h₁⟩, hsame, hl⟩
  | some r =>
    obtain ⟨hs, ⟨seqs', h'⟩, -⟩ := hsome r rfl
    exact ⟨⟨seqs', h'⟩, hsame.trans hs, hs.largest hl⟩

/-- **One call** under its condition goes through and keeps the invariant. -/
theorem step_spec (h : Inv b z) (op : ZoneOp) (hlegal : Legal z op) (hc : Guarded z op) :
    ∃ z', step L z op = some z' ∧ Inv b z' := by
  have h' := h
  obtain ⟨⟨seqs, h₁⟩, hsame, hl⟩ := h'
  cases op with
  | alloc size =>
    obtain ⟨b', seqs', out, he, h₂, hs, -⟩ := alloc_spec h₁ size
    exact ⟨_, by simp only [step, he]; rfl, h.allocated h₂ hs⟩
  | oalloc order =>
    obtain ⟨b', seqs', out, he, h₂, hs, -⟩ := oalloc_spec h₁ order
    exact ⟨_, by simp only [step, he]; rfl, h.allocated h₂ hs⟩
  | allocAt addr size =>
    obtain ⟨b', seqs', out, he, h₂, hs, -⟩ := allocAt_spec h₁ hl hc
    exact ⟨_, by simp only [step, he]; rfl, h.allocated h₂ hs⟩
  | oallocAt addr order =>
    obtain ⟨b', seqs', out, he, h₂, hs, -⟩ := oallocAt_spec h₁ hl hc
    exact ⟨_, by simp only [step, he]; rfl, h.allocated h₂ hs⟩
  | realloc mem size =>
    obtain ⟨r, he, hr⟩ : ∃ r, z.allocer.realloc L z.bytes mem size = some r ∧
        Inv b (z.reallocated mem r) := by
      unfold realloc
      split_ifs
      · exact ⟨_, rfl, h⟩
      · exact h.orealloc hlegal hc
    exact ⟨_, by simp only [step, he]; rfl, hr⟩
  | orealloc mem order =>
    obtain ⟨r, he, hr⟩ := h.orealloc (L := L) hlegal hc
    exact ⟨_, by simp only [step, he]; rfl, hr⟩
  | dealloc mem =>
    obtain ⟨b', k, he, -, -, -, h₂, hs, -⟩ := dealloc_spec (h₁.perm (List.perm_cons_erase hlegal))
    exact ⟨_, by simp only [step, he]; rfl, ⟨_, h₂⟩, hsame.trans hs, hs.largest hl⟩
  | write addr byte =>
    obtain ⟨a, ha, hlo, hhi⟩ := hlegal
    have hs : Same z.allocer (z.allocer.reload L (Function.update z.bytes addr byte) ⟨addr, 1⟩) :=
      same_update _ _ _ _ _
    exact ⟨_, rfl, ⟨seqs, h₁.reload ha ⟨hlo, hhi⟩⟩, hsame.trans hs, hs.largest hl⟩

/-- **A run** whose calls meet their conditions goes through and keeps the invariant. -/
theorem run_spec {A : AlignVirt} {nodes : NodeMem} {sizes : Ptr → ℕ} {bitmap : ℕ → BitVec 8}
    {startAddr endAddr minOrderSize : ℕ} (hend : endAddr < usizeMod)
    (hnew : new A nodes sizes bitmap startAddr endAddr minOrderSize = some b) (bytes : Bytes)
    (ops : List ZoneOp) (hlegal : Along (step L) Legal ⟨b, [], bytes⟩ ops)
    (hc : Along (step L) Guarded ⟨b, [], bytes⟩ ops) :
    ∃ z, run (step L) ⟨b, [], bytes⟩ ops = some z ∧ Inv b z := by
  obtain ⟨seqs, h, hg, -⟩ := new_spec hend hnew
  have h₀ : Inv b ⟨b, [], bytes⟩ := ⟨⟨seqs, h⟩, same_update b _ _ _ _, h.largest hg⟩
  exact run_inv (Inv b) (fun z op hz hop => step_spec hz op hop.1 hop.2) h₀ (hlegal.and hc)

/-- The free blocks and the live allocations partition the memory. -/
theorem Inv.partition (h : Inv b z) : Partition z.allocer z.allocer.freeNodes z.live := by
  obtain ⟨⟨seqs, h₁⟩, -⟩ := h
  rw [funext h₁.freeNodes_eq]
  exact h₁.partition

/-! ### A layout of nodes -/

/-- The word at an address, lowest byte first. -/
def word (bytes : Bytes) (addr : ℕ) : ℕ :=
  (List.range 8).foldr (fun i n => (bytes (addr + i)).toNat + 256 * n) 0

/-- Nodes at the start of a page: the two links and the size, a word each. -/
def pageLayout : NodeLayout where
  read bytes p := (⟨word bytes (p + 8), word bytes p⟩, word bytes (p + 16))
  write b b' bytes x :=
    let p := x / PAGE_SIZE * PAGE_SIZE
    let words := [(b'.lists.mem p).next, (b'.lists.mem p).prev, b'.nodeSize p]
    if b'.lists.mem p = b.lists.mem p ∧ b'.nodeSize p = b.nodeSize p then bytes x
    else match words[(x - p) / 8]? with
      | some w => BitVec.ofNat 8 (w / 256 ^ ((x - p) % 8))
      | none => bytes x
  frame := by
    intro b b' bytes x _ h
    have hp : x / PAGE_SIZE * PAGE_SIZE ≤ x := Nat.div_mul_le_self _ _
    by_cases hx : x < x / PAGE_SIZE * PAGE_SIZE + NODE_SIZE
    · simp only [h _ hp hx, and_self, if_true]
    · have hnone : ([(b'.lists.mem (x / PAGE_SIZE * PAGE_SIZE)).next,
          (b'.lists.mem (x / PAGE_SIZE * PAGE_SIZE)).prev,
          b'.nodeSize (x / PAGE_SIZE * PAGE_SIZE)] : List ℕ)[(x - x / PAGE_SIZE * PAGE_SIZE) / 8]?
          = none := by
        rw [List.getElem?_eq_none_iff]
        simp only [List.length_cons, List.length_nil, NODE_SIZE] at hx ⊢
        omega
      simp only [hnone, ite_self]

/-- Six pages from `0x4000` on, of zeroed memory: a block of four and a block of two. -/
def sixPages : Option BuddyAllocator :=
  new alignVirt (fun _ => ⟨null, null⟩) (fun _ => 0) (fun _ => 0) 0x4000 0xb000 1

/-- The zone of an allocator whose memory is zeroed. -/
def fresh (b : BuddyAllocator) : Zone := ⟨b, [], fun _ => 0⟩

/-! ### `oalloc_at` -/

/-- What `oalloc_at` promises: the block asked for is handed out exactly when it is there, and then
the partition holds again; otherwise nothing changes. -/
structure AtPromise (z : Zone) (addr order : ℕ) (b' : BuddyAllocator) (out : Option Allocation) :
    Prop where
  some_iff : out.isSome ↔ Available z.allocer addr order
  exact_block : ∀ a ∈ out, a = ⟨addr, z.allocer.getOrderSize order⟩
  disjoint : ∀ a ∈ out, ∀ c ∈ z.live, a.Disjoint c
  partition : Partition b' b'.freeNodes (out.toList ++ z.live)
  unchanged : out = none → b' = z.allocer

/-- **`oalloc_at` in any state of a run** keeps its promise when the search for the block around the
address stops at a free block. -/
theorem run_oallocAt {A : AlignVirt} {nodes : NodeMem} {sizes : Ptr → ℕ} {bitmap : ℕ → BitVec 8}
    {startAddr endAddr minOrderSize : ℕ} (hend : endAddr < usizeMod)
    (hnew : new A nodes sizes bitmap startAddr endAddr minOrderSize = some b) (bytes : Bytes)
    (ops : List ZoneOp) (hlegal : Along (step L) Legal ⟨b, [], bytes⟩ ops)
    (hc : Along (step L) Guarded ⟨b, [], bytes⟩ ops) :
    ∃ z, run (step L) ⟨b, [], bytes⟩ ops = some z ∧
      Partition z.allocer z.allocer.freeNodes z.live ∧ ∀ addr order, Found z addr order →
        ∃ b' out, z.allocer.oallocAt addr order = some (b', out) ∧ AtPromise z addr order b' out := by
  obtain ⟨z, he, h⟩ := run_spec hend hnew bytes ops hlegal hc
  refine ⟨z, he, h.partition, fun addr order hf => ?_⟩
  obtain ⟨⟨seqs, h₁⟩, -, hl⟩ := h
  obtain ⟨b', seqs', out, heq, h₂, -, -, hnone, hiff, hout⟩ := oallocAt_spec h₁ hl hf
  have hp := h₂.partition
  rw [← funext h₂.freeNodes_eq] at hp
  refine ⟨b', out, heq, hiff, hout, fun a ha c hc => ?_, hp, hnone⟩
  obtain rfl : out = some a := ha
  have hpair := (List.pairwise_append.1 hp.disjoint).2.1
  rw [Option.toList_some, List.singleton_append] at hpair
  exact (List.pairwise_cons.1 hpair).1 c hc

/-- With the block of four pages live, its third page is handed out once more. -/
theorem run_oallocAt_fails :
    ∃ b z, sixPages = some b ∧ Along (step pageLayout) Legal (fresh b) [.oalloc 2] ∧
      run (step pageLayout) (fresh b) [.oalloc 2] = some z ∧
      ¬ ∃ b' out, z.allocer.oallocAt 0x6000 0 = some (b', out) ∧ AtPromise z 0x6000 0 b' out := by
  have hsome : sixPages.isSome := by decide +kernel
  obtain ⟨b, hb⟩ := Option.isSome_iff_exists.1 hsome
  have hrun : ∀ b ∈ sixPages, Along (step pageLayout) Legal (fresh b) [.oalloc 2] ∧
      (run (step pageLayout) (fresh b) [.oalloc 2]).isSome ∧
      ∀ z ∈ run (step pageLayout) (fresh b) [.oalloc 2], ⟨0x4000, 0x4000⟩ ∈ z.live ∧
        ∀ r ∈ z.allocer.oallocAt 0x6000 0, r.2 = some ⟨0x6000, 0x1000⟩ := by decide +kernel
  obtain ⟨hlegal, hsome', hall⟩ := hrun b hb
  obtain ⟨z, hz⟩ := Option.isSome_iff_exists.1 hsome'
  obtain ⟨hlive, hout⟩ := hall z hz
  refine ⟨b, z, hb, hlegal, hz, ?_⟩
  rintro ⟨b', out, he, hp⟩
  exact hp.disjoint _ (hout _ he) _ hlive 0x6000 (by decide) (by decide)

/-- The third page of the block of four is taken and written to, its neighbour is taken and freed, the
page grows over it, and the block of two shrinks: the fourth page of the zone can be taken. -/
theorem run_oallocAt_sample :
    ∃ b z b' out, sixPages = some b ∧
      run (step pageLayout) (fresh b) [.oallocAt 0x6000 0, .write 0x6000 42, .oalloc 0,
        .dealloc ⟨0x7000, 0x1000⟩, .orealloc ⟨0x6000, 0x1000⟩ 1, .allocAt 0x8000 8192,
        .realloc ⟨0x8000, 0x2000⟩ 4096] = some z ∧
      z.allocer.oallocAt 0x5000 0 = some (b', out) ∧ AtPromise z 0x5000 0 b' out := by
  let ops : List ZoneOp := [.oallocAt 0x6000 0, .write 0x6000 42, .oalloc 0,
    .dealloc ⟨0x7000, 0x1000⟩, .orealloc ⟨0x6000, 0x1000⟩ 1, .allocAt 0x8000 8192,
    .realloc ⟨0x8000, 0x2000⟩ 4096]
  have hsome : sixPages.isSome := by decide +kernel
  obtain ⟨b, hb⟩ := Option.isSome_iff_exists.1 hsome
  have hrun : ∀ b ∈ sixPages, Along (step pageLayout) Legal (fresh b) ops ∧
      Along (step pageLayout) Guarded (fresh b) ops ∧
      ∀ z ∈ run (step pageLayout) (fresh b) ops, Found z 0x5000 0 := by decide +kernel
  obtain ⟨hlegal, hguard, hfound⟩ := hrun b hb
  obtain ⟨z, hz, -, hat⟩ := run_oallocAt (by decide : 0xb000 < usizeMod) hb (fun _ => 0) ops hlegal hguard
  obtain ⟨b', out, he, hp⟩ := hat 0x5000 0 (hfound z hz)
  exact ⟨b, z, b', out, hb, hz, he, hp⟩

/-! ### `orealloc` -/

/-- What `orealloc` promises: nothing changes, or there is a block of the order with the bytes of the
old one, which takes its place in the partition. -/
structure ReallocPromise (z : Zone) (mem : Allocation) (order : ℕ) (b' : BuddyAllocator)
    (bytes' : Bytes) (out : Option Allocation) : Prop where
  unchanged : out = none → b' = z.allocer ∧ bytes' = z.bytes
  size : ∀ r ∈ out, r.size = z.allocer.getOrderSize order
  kept : ∀ r ∈ out, ∀ i < min mem.size r.size, bytes' (r.addr + i) = z.bytes (mem.addr + i)
  disjoint : ∀ r ∈ out, ∀ c ∈ z.live.erase mem, r.Disjoint c
  partition : ∀ r ∈ out, Partition b' b'.freeNodes (r :: z.live.erase mem)

/-- **`orealloc` in any state of a run** keeps its promise when a block that grows in place grows over
free blocks. -/
theorem run_orealloc {A : AlignVirt} {nodes : NodeMem} {sizes : Ptr → ℕ} {bitmap : ℕ → BitVec 8}
    {startAddr endAddr minOrderSize : ℕ} (hend : endAddr < usizeMod)
    (hnew : new A nodes sizes bitmap startAddr endAddr minOrderSize = some b) (bytes : Bytes)
    (ops : List ZoneOp) (hlegal : Along (step L) Legal ⟨b, [], bytes⟩ ops)
    (hc : Along (step L) Guarded ⟨b, [], bytes⟩ ops) :
    ∃ z, run (step L) ⟨b, [], bytes⟩ ops = some z ∧
      Partition z.allocer z.allocer.freeNodes z.live ∧
      ∀ mem ∈ z.live, ∀ order, Room z mem order →
        ∃ b' bytes' out, z.allocer.orealloc L z.bytes mem order = some (b', bytes', out) ∧
          ReallocPromise z mem order b' bytes' out := by
  obtain ⟨z, he, h⟩ := run_spec hend hnew bytes ops hlegal hc
  refine ⟨z, he, h.partition, fun mem hmem order hr => ?_⟩
  obtain ⟨⟨seqs, h₁⟩, -, -⟩ := h
  obtain ⟨b', bytes', out, heq, hnone, hsome⟩ :=
    orealloc_spec L z.bytes (h₁.perm (List.perm_cons_erase hmem)) hr
  have hp : ∀ r ∈ out, Partition b' b'.freeNodes (r :: z.live.erase mem) := by
    intro r hout
    obtain ⟨-, ⟨seqs', h'⟩, -⟩ := hsome r hout
    rw [funext h'.freeNodes_eq]
    exact h'.partition
  refine ⟨b', bytes', out, heq, hnone, fun r hout => ?_, fun r hout => (hsome r hout).2.2.kept,
    fun r hout => ?_, hp⟩
  · rw [getOrderSize_eq]
    exact (hsome r hout).2.2.size
  · exact (List.pairwise_cons.1 (List.pairwise_append.1 (hp r hout).disjoint).2.1).1

/-- Four single pages are taken and three of them freed: the first one grows over the others, and the
last one stays on a list. -/
theorem run_orealloc_fails :
    ∃ b z, sixPages = some b ∧
      Along (step pageLayout) Legal (fresh b) [.oalloc 1, .oalloc 0, .oalloc 0, .oalloc 0, .oalloc 0,
        .dealloc ⟨0x5000, 0x1000⟩, .dealloc ⟨0x6000, 0x1000⟩, .dealloc ⟨0x7000, 0x1000⟩,
        .dealloc ⟨0x8000, 0x2000⟩] ∧
      run (step pageLayout) (fresh b) [.oalloc 1, .oalloc 0, .oalloc 0, .oalloc 0, .oalloc 0,
        .dealloc ⟨0x5000, 0x1000⟩, .dealloc ⟨0x6000, 0x1000⟩, .dealloc ⟨0x7000, 0x1000⟩,
        .dealloc ⟨0x8000, 0x2000⟩] = some z ∧ ⟨0x4000, 0x1000⟩ ∈ z.live ∧
      ¬ ∃ b' bytes' out,
        z.allocer.orealloc pageLayout z.bytes ⟨0x4000, 0x1000⟩ 2 = some (b', bytes', out) ∧
        ReallocPromise z ⟨0x4000, 0x1000⟩ 2 b' bytes' out := by
  let ops : List ZoneOp := [.oalloc 1, .oalloc 0, .oalloc 0, .oalloc 0, .oalloc 0,
    .dealloc ⟨0x5000, 0x1000⟩, .dealloc ⟨0x6000, 0x1000⟩, .dealloc ⟨0x7000, 0x1000⟩,
    .dealloc ⟨0x8000, 0x2000⟩]
  have hsome : sixPages.isSome := by decide +kernel
  obtain ⟨b, hb⟩ := Option.isSome_iff_exists.1 hsome
  have hrun : ∀ b ∈ sixPages, Along (step pageLayout) Legal (fresh b) ops ∧
      (run (step pageLayout) (fresh b) ops).isSome ∧
      ∀ z ∈ run (step pageLayout) (fresh b) ops, ⟨0x4000, 0x1000⟩ ∈ z.live ∧
        ∀ r ∈ z.allocer.orealloc pageLayout z.bytes ⟨0x4000, 0x1000⟩ 2,
          r.2.2 = some ⟨0x4000, 0x4000⟩ ∧ ⟨0x7000, 0x1000⟩ ∈ freeList r.1 r.1.freeNodes := by
    decide +kernel
  obtain ⟨hlegal, hsome', hall⟩ := hrun b hb
  obtain ⟨z, hz⟩ := Option.isSome_iff_exists.1 hsome'
  obtain ⟨hlive, hout⟩ := hall z hz
  refine ⟨b, z, hb, hlegal, hz, hlive, ?_⟩
  rintro ⟨b', bytes', out, he, hp⟩
  obtain ⟨ho, hfree⟩ := hout _ he
  have hpair := (List.pairwise_append.1 (hp.partition _ ho).disjoint).2.2
  exact hpair _ hfree _ List.mem_cons_self 0x7000 (by decide) (by decide)

/-- A page with one byte written grows over its free neighbour. -/
theorem run_orealloc_sample :
    ∃ b z b' bytes' out, sixPages = some b ∧
      run (step pageLayout) (fresh b) [.oallocAt 0x6000 0, .write 0x6000 42] = some z ∧
      z.allocer.orealloc pageLayout z.bytes ⟨0x6000, 0x1000⟩ 1 = some (b', bytes', out) ∧
      ReallocPromise z ⟨0x6000, 0x1000⟩ 1 b' bytes' out := by
  let ops : List ZoneOp := [.oallocAt 0x6000 0, .write 0x6000 42]
  have hsome : sixPages.isSome := by decide +kernel
  obtain ⟨b, hb⟩ := Option.isSome_iff_exists.1 hsome
  have hrun : ∀ b ∈ sixPages, Along (step pageLayout) Legal (fresh b) ops ∧
      Along (step pageLayout) Guarded (fresh b) ops ∧
      ∀ z ∈ run (step pageLayout) (fresh b) ops, ⟨0x6000, 0x1000⟩ ∈ z.live ∧
        Room z ⟨0x6000, 0x1000⟩ 1 := by decide +kernel
  obtain ⟨hlegal, hguard, hroom⟩ := hrun b hb
  obtain ⟨z, hz, -, hre⟩ :=
    run_orealloc (by decide : 0xb000 < usizeMod) hb (fun _ => 0) ops hlegal hguard
  obtain ⟨hlive, hr⟩ := hroom z hz
  obtain ⟨b', bytes', out, he, hp⟩ := hre _ hlive 1 hr
  exact ⟨b, z, b', bytes', out, hb, hz, he, hp⟩

end Zone
end AuroraOs
