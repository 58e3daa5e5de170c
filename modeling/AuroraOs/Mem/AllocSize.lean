import AuroraOs.Mem.ZoneManagerRun
import AuroraOs.Mem.VirtAllocInvariant

/-!
# The size of a block

`BuddyAllocator::alloc` rounds a size up to a power of two with `log2_up`.  Above `2 ^ 63` there is no
larger one: `align_up` wraps around to 0, the order is 0, and the block is the smallest one.
-/

namespace AuroraOs

open Blocks Machine BuddyAllocator

/-! ### Rounding up to an order -/

variable {n : ℕ}

/-- `log2_up` finds the next power of two. -/
theorem log2Up_bounds (h1 : 1 < n) (h : n ≤ 2 ^ 63) : n ≤ 2 ^ log2Up n ∧ 2 ^ log2Up n < 2 * n := by
  have hle := two_pow_log2_le (n := n) (by omega)
  have hlt := lt_two_pow_log2_succ n
  have hk : log2 n ≤ 63 := (Nat.pow_le_pow_iff_right (by decide)).1 (hle.trans h)
  have hpos : 0 < 2 ^ log2 n := by positivity
  have hpow : 2 ^ (log2 n + 1) = 2 * 2 ^ log2 n := pow_succ' 2 _
  rw [log2Up, if_neg h1.ne', alignUp_eq (by simp only [usizeMod]; omega) (by omega)]
  rcases hle.eq_or_lt with heq | hgt
  · have hdiv : (n + 2 ^ log2 n - 1) / 2 ^ log2 n = 1 := by
      rw [Nat.div_eq_iff hpos]
      omega
    rw [hdiv, one_mul, log2_two_pow]
    omega
  · have hdiv : (n + 2 ^ log2 n - 1) / 2 ^ log2 n = 2 := by
      rw [Nat.div_eq_iff hpos]
      omega
    rw [hdiv, ← hpow, log2_two_pow]
    omega

/-- Above `2 ^ 63` it wraps around. -/
theorem log2Up_of_lt (h : 2 ^ 63 < n) (hn : n < usizeMod) : log2Up n = 0 := by
  have hle := two_pow_log2_le (n := n) (by omega)
  have hlt := lt_two_pow_log2_succ n
  have hk : log2 n = 63 := by
    have h1 : log2 n < 64 := (Nat.pow_lt_pow_iff_right (by decide)).1 (hle.trans_lt hn)
    have h2 : 63 < log2 n + 1 := (Nat.pow_lt_pow_iff_right (by decide)).1 (h.trans hlt)
    omega
  have hmod : (n + 2 ^ 63 - 1) % usizeMod = n - 2 ^ 63 - 1 := by
    simp only [usizeMod] at *
    omega
  have hzero : alignUp n (2 ^ 63) = 0 := by
    rw [alignUp, hmod, and_two_pow_sub (by simp only [usizeMod] at hn; omega) (by decide),
      Nat.div_eq_of_lt (by simp only [usizeMod] at hn; omega), Nat.zero_mul]
  rw [log2Up, if_neg (by omega), hk, hzero]
  rfl

namespace BuddyAllocator

variable {b : BuddyAllocator} {size : ℕ} {seqs : ℕ → List Ptr} {live : List Allocation}

/-- The blocks of the order of a size have room for it, and no more than twice what is needed. -/
theorem getOrder_bounds (hg : Geometry b) (hpos : 0 < size) (h : size ≤ 2 ^ 63) :
    size ≤ 2 ^ (b.minOrderBits + b.getOrder size) ∧
      2 ^ (b.minOrderBits + b.getOrder size) < 2 * max size b.minOrderSize := by
  have hbits := hg.le_bits
  have hmin : 0 < b.minOrderSize := by
    rw [hg.size_eq]
    positivity
  unfold getOrder
  rcases Nat.eq_or_lt_of_le hpos with rfl | h1
  · rw [show log2Up (0 + 1) = 1 from rfl, if_pos (by omega), Nat.add_zero, ← hg.size_eq]
    omega
  obtain ⟨hle, hlt⟩ := log2Up_bounds h1 h
  by_cases hsmall : log2Up size ≤ b.minOrderBits
  · have hpow : 2 ^ log2Up size ≤ 2 ^ b.minOrderBits := Nat.pow_le_pow_right (by decide) hsmall
    rw [if_pos hsmall, Nat.add_zero, ← hg.size_eq] at *
    omega
  · rw [if_neg hsmall, show b.minOrderBits + (log2Up size - b.minOrderBits) = log2Up size by omega]
    omega

theorem pos_of_alloc {b' : BuddyAllocator} {a : Allocation} (he : b.alloc size = some (b', some a)) :
    0 < size := by
  rw [Nat.pos_iff_ne_zero]
  rintro rfl
  simp [alloc] at he

/-- A block consists of pages, and is at most half of the address space. -/
theorem alloc_pages {b' : BuddyAllocator} {a : Allocation} (h : Inv b seqs live)
    (he : b.alloc size = some (b', some a)) : a.size ≤ 2 ^ 63 ∧ PAGE_SIZE ∣ a.size := by
  rw [alloc, if_neg (pos_of_alloc he).ne'] at he
  obtain ⟨b₁, seqs', out, he₁, h', hsame, -, hout, -, -⟩ := oalloc_spec h (b.getOrder size)
  obtain ⟨rfl, rfl⟩ : b₁ = b' ∧ out = some a := by simpa using he₁.symm.trans he
  have hasize := hout a rfl
  have hbits := h'.bits_lt (a := a) (by simp) (by rw [hsame.minOrderBits, hasize])
  have hle := h.core.geom.le_bits
  rw [hsame.minOrderBits] at hbits
  rw [hasize, PAGE_SIZE_eq]
  exact ⟨Nat.pow_le_pow_right (by decide) (by omega), pow_dvd_pow 2 (by omega)⟩

/-- A block that `alloc` returns has room exactly for sizes up to `2 ^ 63`. -/
theorem alloc_size {b' : BuddyAllocator} {a : Allocation} (h : Inv b seqs live) (hsize : size < usizeMod)
    (he : b.alloc size = some (b', some a)) :
    (size ≤ a.size ↔ size ≤ 2 ^ 63) ∧ (size ≤ 2 ^ 63 → a.size < 2 * max size b.minOrderSize) := by
  have hpos := pos_of_alloc he
  rw [alloc, if_neg hpos.ne'] at he
  obtain ⟨b₁, seqs', out, he₁, h', hsame, -, hout, -, -⟩ := oalloc_spec h (b.getOrder size)
  obtain ⟨rfl, rfl⟩ : b₁ = b' ∧ out = some a := by simpa using he₁.symm.trans he
  have hasize := hout a rfl
  by_cases hle : size ≤ 2 ^ 63
  · obtain ⟨hroom, htwice⟩ := getOrder_bounds h.core.geom hpos hle
    rw [hasize]
    exact ⟨iff_of_true hroom hle, fun _ => htwice⟩
  · -- the order is 0, and its blocks are too small
    have hzero : b.getOrder size = 0 := by
      rw [getOrder, log2Up_of_lt (not_le.1 hle) hsize, if_pos (Nat.zero_le _)]
    rw [hzero] at hasize
    have hbits := h'.bits_lt (a := a) (k := 0) (by simp) (by rw [hsame.minOrderBits, hasize])
    rw [hsame.minOrderBits] at hbits
    have hpow : 2 ^ (b.minOrderBits + 0) ≤ 2 ^ 63 := Nat.pow_le_pow_right (by decide) (by omega)
    exact ⟨iff_of_false (by omega) hle, fun h => absurd h hle⟩

/-- `alloc` returns nothing, or a block that has room for the size and less than twice as much. -/
def AllocFits (b : BuddyAllocator) (size : ℕ) : Prop :=
  ∃ b' out, b.alloc size = some (b', out) ∧
    ∀ a ∈ out, size ≤ a.size ∧ a.size < 2 * max size b.minOrderSize

/-- **`alloc` keeps its promise** exactly for sizes up to `2 ^ 63`, and when there is no free block. -/
theorem allocFits_iff (h : Inv b seqs live) (hsize : size < usizeMod) :
    AllocFits b size ↔ size ≤ 2 ^ 63 ∨ NoBlock b 0 := by
  obtain ⟨b', seqs', out, he, -⟩ := alloc_spec h size
  by_cases hle : size ≤ 2 ^ 63
  · refine iff_of_true ⟨b', out, he, fun a ha => ?_⟩ (Or.inl hle)
    rw [ha] at he
    obtain ⟨hroom, htwice⟩ := alloc_size h hsize he
    exact ⟨hroom.2 hle, htwice hle⟩
  have hpos : size ≠ 0 := by omega
  have hzero : b.getOrder size = 0 := by
    rw [getOrder, log2Up_of_lt (not_le.1 hle) hsize, if_pos (Nat.zero_le _)]
  have halloc : b.alloc size = b.oalloc 0 := by rw [alloc, if_neg hpos, hzero]
  rw [h.noBlock_iff, ← halloc]
  constructor
  · rintro ⟨b₁, out₁, he₁, hfits⟩
    obtain ⟨rfl, rfl⟩ : b' = b₁ ∧ out = out₁ := by simpa using he.symm.trans he₁
    cases out with
    | none =>
      obtain ⟨b₂, seqs₂, out₂, he₂, -, -, -, -, hnone, -⟩ := oalloc_spec h 0
      obtain ⟨rfl, rfl⟩ : b₂ = b' ∧ out₂ = none := by
        simpa using he₂.symm.trans (halloc.symm.trans he)
      exact Or.inr (by rw [he, (hnone rfl).1])
    | some a => exact Or.inl ((alloc_size h hsize he).1.1 (hfits a rfl).1)
  · rintro (hle' | hnot)
    · exact absurd hle' hle
    · exact ⟨b, none, hnot, by simp⟩

end BuddyAllocator

/-! ### Elements over the zone manager -/

namespace PhysMem

/-- The zone manager as an address space sees it; the page tables are somewhere else. -/
def memApi (L : NodeLayout) (mapInternal : PhysMem → List Pmit → Option PhysMem) : MemApi PhysMem where
  alloc s size := (s.manager.alloc L size).map fun r => (s.allocated r, r.2)
  dealloc s mem := s.step L (.dealloc mem)
  mapInternal := mapInternal

variable {L : NodeLayout} {f : PhysMem → List Pmit → Option PhysMem} {bs : List BuddyAllocator}
  {s s' : PhysMem} {size : ℕ} {out : ZoneAllocation}

/-- What the manager returns comes from `alloc` of a zone. -/
theorem Inv.alloc_of_some (h : Inv bs s) (he : (memApi L f).alloc s size = some (s', some out)) :
    ∃ b seqs live b', BuddyAllocator.Inv b seqs live ∧ b.alloc size = some (b', some out.mem) := by
  obtain ⟨m', tried, out', he', -, -, -, hsome⟩ :=
    ZoneManager.allocerAction_spec (L := L) h.zones_ne_nil fun z hz =>
      (h.zone_of_mem hz).choose_spec.answers_alloc size
  obtain ⟨r, hr, heq⟩ := Option.map_eq_some_iff.1 he
  obtain ⟨r', hr', rfl⟩ := Option.map_eq_some_iff.1 hr
  obtain rfl : (m', tried, out') = r' := Option.some.inj (he'.symm.trans hr')
  obtain rfl : out' = some out := (Prod.mk.inj heq).2
  obtain ⟨z, z', hz, hask, -⟩ := hsome out rfl
  obtain ⟨b, ⟨seqs, h₁⟩, -⟩ := h.zone hz
  obtain ⟨⟨b', out''⟩, halloc, hask⟩ := Option.map_eq_some_iff.1 hask
  cases out'' with
  | none => simp at hask
  | some a =>
    obtain ⟨-, rfl⟩ : _ ∧ a = out.mem := by simpa using hask
    exact ⟨z.allocer, seqs, z.live, b', h₁, halloc⟩

theorem Inv.alloc_size (h : Inv bs s) (hsize : size < usizeMod)
    (he : (memApi L f).alloc s size = some (s', some out)) : size ≤ out.mem.size ↔ size ≤ 2 ^ 63 := by
  obtain ⟨b, seqs, live, b', h₁, halloc⟩ := h.alloc_of_some he
  exact (BuddyAllocator.alloc_size h₁ hsize halloc).1

end PhysMem

/-- The sizes of what a zone manager returns: whole pages, with room for what was asked for unless that
is more than `2 ^ 63` bytes. -/
def MemApi.AllocSizes {σ : Type*} (M : MemApi σ) (s : σ) : Prop :=
  ∀ size < usizeMod, ∀ s' mem, M.alloc s size = some (s', some mem) →
    0 < size ∧ (size ≤ mem.mem.size ↔ size ≤ 2 ^ 63) ∧ mem.mem.size ≤ 2 ^ 63 ∧ PAGE_SIZE ∣ mem.mem.size

/-- The zone manager of the kernel is one, in every state that keeps its invariant. -/
theorem PhysMem.Inv.allocSizes {L : NodeLayout} {f : PhysMem → List Pmit → Option PhysMem}
    {bs : List BuddyAllocator} {s : PhysMem} (h : PhysMem.Inv bs s) :
    (PhysMem.memApi L f).AllocSizes s := by
  intro size hsize s' mem he
  obtain ⟨b, seqs, live, b', h₁, halloc⟩ := h.alloc_of_some he
  exact ⟨pos_of_alloc halloc, (BuddyAllocator.alloc_size h₁ hsize halloc).1, alloc_pages h₁ halloc⟩

namespace VirtLayoutElement

variable {σ : Type*} {M : MemApi σ} {s s' : σ} {size : ℕ} {flags : PageMappingFlags} {e : VirtLayoutElement}

/-- The element asks for physical memory of an exact size. -/
def Exact (flags : PageMappingFlags) : Prop :=
  flags.exists_ = true ∧ flags.contains .EXACT_SIZE = true

/-- The element takes the size of its memory. -/
def Rounds (flags : PageMappingFlags) : Prop :=
  flags.exists_ = true ∧ flags.contains .EXACT_SIZE = false

/-- What is mapped of a new element. -/
theorem new_size (he : new M s size flags = some (s', some e)) :
    (¬ Rounds flags → e.mapSize = alignUp size PAGE_SIZE) ∧ (Rounds flags → ∃ mem,
      M.alloc s (alignUp size PAGE_SIZE) = some (s', some mem) ∧ e.mapSize = mem.mem.size) := by
  unfold new at he
  by_cases hexists : flags.exists_ = true
  · rw [if_pos hexists] at he
    obtain ⟨⟨s₁, mem⟩, hmem, hret⟩ := Option.bind_eq_some_iff.1 he
    obtain ⟨rfl, helem⟩ := Prod.mk.inj (Option.some.inj hret)
    obtain ⟨mem, rfl, rfl⟩ := Option.map_eq_some_iff.1 helem
    by_cases hexact : flags.contains .EXACT_SIZE = true
    · exact ⟨fun _ => if_pos hexact, fun h => by simp [h.2] at hexact⟩
    · exact ⟨fun h => absurd ⟨hexists, by simpa using hexact⟩ h, fun _ => ⟨mem, hmem, if_neg hexact⟩⟩
  · rw [if_neg hexists] at he
    obtain ⟨-, helem⟩ := Prod.mk.inj (Option.some.inj he)
    obtain rfl := Option.some.inj helem
    exact ⟨fun _ => rfl, fun h => absurd h.1 hexists⟩

/-- Only an element of an exact size can be mapped larger than its memory. -/
theorem new_mapSize (he : new M s size flags = some (s', some e)) :
    (¬ Exact flags → e.mapSize = e.rawSize) ∧ (Exact flags → ∃ mem,
      M.alloc s (alignUp size PAGE_SIZE) = some (s', some mem) ∧ e.mapSize = alignUp size PAGE_SIZE ∧
        e.rawSize = mem.mem.size) := by
  unfold new at he
  by_cases hexists : flags.exists_ = true
  · rw [if_pos hexists] at he
    obtain ⟨⟨s₁, mem⟩, hmem, hret⟩ := Option.bind_eq_some_iff.1 he
    obtain ⟨rfl, helem⟩ := Prod.mk.inj (Option.some.inj hret)
    obtain ⟨mem, rfl, rfl⟩ := Option.map_eq_some_iff.1 helem
    by_cases hexact : flags.contains .EXACT_SIZE = true
    · refine ⟨fun h => absurd ⟨hexists, hexact⟩ h, fun _ => ⟨mem, hmem, ?_, rfl⟩⟩
      simp only [hexact, if_true]
    · refine ⟨fun _ => ?_, fun h => absurd h.2 hexact⟩
      simp only [hexact]
      rfl
  · rw [if_neg hexists] at he
    obtain ⟨-, helem⟩ := Prod.mk.inj (Option.some.inj he)
    obtain rfl := Option.some.inj helem
    exact ⟨fun _ => rfl, fun h => absurd h.1 hexists⟩

/-- `from_mem` never maps more than the memory. -/
theorem fromMem_mapSize {mem : ZoneAllocation} :
    (fromMem mem size flags).mapSize ≤ (fromMem mem size flags).rawSize := by
  simp only [fromMem, rawSize, VirtLayoutElementType.size]
  split_ifs
  · exact min_le_left _ _
  · exact le_rfl

end VirtLayoutElement

/-! ### Runs -/

/-- **Sizes in any state of a run**: `alloc` of a zone keeps its promise exactly for sizes up to
`2 ^ 63` and when nothing is free, and an element is mapped larger than its memory only if it asks for an
exact size above that. -/
theorem run_sizes {L : NodeLayout} {A : AlignVirt} {nodes : NodeMem} {sizes : Ptr → ℕ}
    {bitmap : ℕ → BitVec 8} {startAddr endAddr minOrderSize : ℕ} {b : BuddyAllocator}
    (hend : endAddr < usizeMod)
    (hnew : BuddyAllocator.new A nodes sizes bitmap startAddr endAddr minOrderSize = some b)
    (bytes : Bytes) (zoneOps : List ZoneOp)
    (hzoneLegal : Along (Zone.step L) Zone.Legal ⟨b, [], bytes⟩ zoneOps)
    (hzone : Along (Zone.step L) Zone.Guarded ⟨b, [], bytes⟩ zoneOps) {regions : List UsableMem}
    {m : ZoneManager} (hpos : regions ≠ []) (hinit : ZoneManager.init A regions = some m)
    (ops : List ManagerOp) (hlegal : Along (PhysMem.step L) PhysMem.Legal ⟨m, []⟩ ops)
    (hc : Along (PhysMem.step L) PhysMem.Guarded ⟨m, []⟩ ops) {s : PhysMem}
    (hrun : run (PhysMem.step L) ⟨m, []⟩ ops = some s)
    (f : PhysMem → List Pmit → Option PhysMem) :
    (∃ z, run (Zone.step L) ⟨b, [], bytes⟩ zoneOps = some z ∧
      ∀ size < usizeMod, AllocFits z.allocer size ↔ size ≤ 2 ^ 63 ∨ NoBlock z.allocer 0) ∧
    (∀ size flags s' e,
      VirtLayoutElement.new (PhysMem.memApi L f) s size flags = some (s', some e) →
        (e.mapSize ≤ e.rawSize ↔
          (VirtLayoutElement.Exact flags → alignUp size PAGE_SIZE ≤ 2 ^ 63))) ∧
    ∀ mem size flags, (VirtLayoutElement.fromMem mem size flags).mapSize
      ≤ (VirtLayoutElement.fromMem mem size flags).rawSize := by
  refine ⟨?_, ?_, fun _ _ _ => VirtLayoutElement.fromMem_mapSize⟩
  · obtain ⟨z, hz, ⟨⟨seqs, h⟩, -⟩⟩ := Zone.run_spec hend hnew bytes zoneOps hzoneLegal hzone
    exact ⟨z, hz, fun size hsize => allocFits_iff h hsize⟩
  · have h : PhysMem.Inv (m.zones.map Zone.allocer) s :=
      run_keeps _ (fun s op s' h hop he => PhysMem.step_inv h hop.1 hop.2 he)
        (PhysMem.inv_init hpos hinit) (hlegal.and hc) hrun
    intro size flags s' e he
    obtain ⟨hfree, hexact⟩ := VirtLayoutElement.new_mapSize he
    by_cases hflags : VirtLayoutElement.Exact flags
    · obtain ⟨mem, hmem, hmap, hraw⟩ := hexact hflags
      rw [hmap, hraw, h.alloc_size alignUp_lt hmem]
      exact ⟨fun h _ => h, fun h => h hflags⟩
    · exact iff_of_true (hfree hflags).le fun h => absurd h hflags

/-- A zone of six pages with one of them taken, and two zones with blocks taken in both. -/
theorem run_sizes_sample :
    ∃ b z m s, Zone.sixPages = some b ∧ PhysMem.twoZones = some m ∧
      run (Zone.step Zone.pageLayout) (Zone.fresh b) [.alloc 4096] = some z ∧
      run (PhysMem.step Zone.pageLayout) ⟨m, []⟩ [.oalloc 2, .alloc 4096] = some s ∧
      (∀ size < usizeMod, AllocFits z.allocer size ↔ size ≤ 2 ^ 63 ∨ NoBlock z.allocer 0) ∧
      ∀ size flags s' e, VirtLayoutElement.new (PhysMem.memApi Zone.pageLayout fun s _ => some s) s size flags
          = some (s', some e) →
        (e.mapSize ≤ e.rawSize ↔
          (VirtLayoutElement.Exact flags → alignUp size PAGE_SIZE ≤ 2 ^ 63)) := by
  have hsome : Zone.sixPages.isSome := by decide +kernel
  obtain ⟨b, hb⟩ := Option.isSome_iff_exists.1 hsome
  have hsome' : PhysMem.twoZones.isSome := by decide +kernel
  obtain ⟨m, hm⟩ := Option.isSome_iff_exists.1 hsome'
  have hall : ∀ m ∈ PhysMem.twoZones,
      Along (PhysMem.step Zone.pageLayout) PhysMem.Legal ⟨m, []⟩ [.oalloc 2, .alloc 4096] ∧
      Along (PhysMem.step Zone.pageLayout) PhysMem.Guarded ⟨m, []⟩ [.oalloc 2, .alloc 4096] ∧
      (run (PhysMem.step Zone.pageLayout) ⟨m, []⟩ [.oalloc 2, .alloc 4096]).isSome := by decide +kernel
  obtain ⟨hlegal, hc, hrun⟩ := hall m hm
  obtain ⟨s, hs⟩ := Option.isSome_iff_exists.1 hrun
  obtain ⟨⟨z, hz, hzone⟩, helem, -⟩ := run_sizes (by decide : 0xb000 < usizeMod) hb (fun _ => 0) [.alloc 4096]
    ⟨trivial, fun _ _ => trivial⟩ ⟨trivial, fun _ _ => trivial⟩ (by simp) hm _ hlegal hc hs fun s _ => some s
  exact ⟨b, z, m, s, hb, hm, hz, hs, hzone, helem⟩

/-- A fresh zone answers a request for more than `2 ^ 63` bytes with a page. -/
theorem not_allocFits :
    ∃ b, Zone.sixPages = some b ∧ (b.alloc (2 ^ 63 + 1)).map (fun r => r.2) = some (some ⟨0x8000, 0x1000⟩) ∧
      ¬ AllocFits b (2 ^ 63 + 1) := by
  have hsome : Zone.sixPages.isSome := by decide +kernel
  obtain ⟨b, hb⟩ := Option.isSome_iff_exists.1 hsome
  have hall : ∀ b ∈ Zone.sixPages,
      (b.alloc (2 ^ 63 + 1)).map (fun r => r.2) = some (some ⟨0x8000, 0x1000⟩) := by decide +kernel
  refine ⟨b, hb, hall b hb, ?_⟩
  rintro ⟨b', out, he, hfits⟩
  have hout := hall b hb
  rw [he] at hout
  obtain rfl : out = some ⟨0x8000, 0x1000⟩ := Option.some.inj hout
  exact absurd (hfits _ rfl).1 (by decide)

end AuroraOs
