import AuroraOs.Mem.ZoneManagerInvariant

/-!
# Runs of the zone manager

What the manager hands out lies in the zone of its index as long as `alloc_at` and `oalloc_at` are
served by the first zone.  The search of `allocer_action` finds a block whenever a zone has one.  A
reallocation that its own zone cannot serve gets a block elsewhere and leaks the old one.
-/

namespace AuroraOs

open Blocks Machine BuddyAllocator

/-! ### A block that is live in one of two states -/

namespace BuddyAllocator

variable {b b' : BuddyAllocator} {seqs seqs' : ℕ → List Ptr} {live : List Allocation} {a : Allocation}

/-- The bit of a block is set as long as the block is live. -/
theorem Inv.isAlloced_iff_live (h : Inv b seqs (a :: live)) (h' : Inv b' seqs' live)
    (hs : Same b b') : b.isAlloced a.addr = true ∧ b'.isAlloced a.addr = false := by
  obtain ⟨hlo, hhi, hpos, hpage⟩ := h.live_mem List.mem_cons_self
  refine ⟨(h.bitmap a.addr hlo (by omega) hpage).2 ⟨a, List.mem_cons_self, rfl⟩, ?_⟩
  rw [Bool.eq_false_iff, ne_eq, h'.bitmap a.addr (hs.start ▸ hlo) (by rw [hs.metaStart]; omega)
    (hs.minOrderSize ▸ hpage)]
  rintro ⟨c, hc, heq⟩
  have hpair := (List.pairwise_append.1 (packed_iff_pairwise.1 h.core.tiles.packed)).2.1
  obtain ⟨-, -, hpos', -⟩ := h'.live_mem hc
  exact (List.pairwise_cons.1 hpair).1 c hc a.addr ⟨le_rfl, by omega⟩ ⟨by omega, by omega⟩

/-- `new` stays within its region. -/
theorem new_within {A : AlignVirt} {nodes : NodeMem} {sizes : Ptr → ℕ} {bitmap : ℕ → BitVec 8}
    {startAddr endAddr minOrderSize : ℕ} (hnew : BuddyAllocator.new A nodes sizes bitmap startAddr
      endAddr minOrderSize = some b) :
    startAddr ≤ b.start ∧ b.metaStart ≤ endAddr := by
  simp only [BuddyAllocator.new, Option.bind_eq_bind] at hnew
  obtain ⟨start, hs, he⟩ := Option.bind_eq_some_iff.1 hnew
  split_ifs at he
  obtain ⟨-, hstart, hmeta⟩ := initOrders_fixed he
  rw [hstart, hmeta]
  exact ⟨A.le hs, Nat.and_le_left.trans (Nat.sub_le _ _)⟩

end BuddyAllocator

namespace PhysMem

open ZoneManager

variable {L : NodeLayout} {A : AlignVirt} {regions : List UsableMem} {m : ZoneManager} {s : PhysMem}

/-! ### The first state -/

theorem forall₂_of_mapM {α β : Type} {f : α → Option β} {l : List α} {l' : List β}
    (h : l.mapM f = some l') : List.Forall₂ (fun a b => f a = some b) l l' := by
  induction l generalizing l' with
  | nil =>
    obtain rfl : [] = l' := by simpa using h
    exact .nil
  | cons a l ih =>
    rw [List.mapM_cons] at h
    obtain ⟨b, hb, h⟩ := Option.bind_eq_some_iff.1 h
    obtain ⟨bs, hbs, h⟩ := Option.bind_eq_some_iff.1 h
    obtain rfl := Option.some.inj h
    exact .cons hb (ih hbs)

/-- The zones of `init` are those of `new`, with nothing live. -/
theorem init_zones (h : init A regions = some m) :
    List.Forall₂ (fun r z => ∃ b, BuddyAllocator.new A r.nodes r.sizes r.bitmap r.startAddr r.endAddr
      PAGE_SIZE = some b ∧ z = ⟨b, [], r.bytes⟩) regions m.zones := by
  unfold init at h
  split_ifs at h
  obtain ⟨zones, hz, h⟩ := Option.bind_eq_some_iff.1 h
  obtain rfl := Option.some.inj h
  refine (forall₂_of_mapM hz).imp fun r z he => ?_
  obtain ⟨b, hb, rfl⟩ := Option.map_eq_some_iff.1 he
  exact ⟨b, hb, rfl⟩

theorem inv_init (hpos : regions ≠ []) (h : init A regions = some m) :
    Inv (m.zones.map Zone.allocer) ⟨m, []⟩ := by
  have hzones := init_zones h
  refine ⟨?_, ?_, by simp, List.nodup_nil⟩
  · rw [List.forall₂_map_left_iff, List.forall₂_same]
    intro z hz
    obtain ⟨i, hi, rfl⟩ := List.getElem_of_mem hz
    have hi' : i < regions.length := by rwa [hzones.length_eq]
    obtain ⟨b, hb, he⟩ := (List.forall₂_iff_get.1 hzones).2 i hi' hi
    obtain ⟨seqs, h₁, hg, -⟩ := new_spec (regions.get ⟨i, hi'⟩).lt hb
    rw [List.get_eq_getElem] at he
    rw [he]
    exact ⟨⟨seqs, h₁⟩, same_update b _ _ _ _, h₁.largest hg⟩
  · intro h0
    rw [List.map_eq_nil_iff] at h0
    rw [h0, List.forall₂_nil_right_iff] at hzones
    exact hpos hzones

/-! ### The search for a block -/

/-- The calls that allocate anywhere and free, and writes. -/
def Plain : ManagerOp → Prop
  | .alloc _ => True
  | .oalloc _ => True
  | .dealloc _ => True
  | .write _ _ _ => True
  | _ => False

instance : DecidablePred Plain
  | .alloc _ => isTrue trivial
  | .oalloc _ => isTrue trivial
  | .dealloc _ => isTrue trivial
  | .write _ _ _ => isTrue trivial
  | .allocAt _ _ => isFalse id
  | .oallocAt _ _ => isFalse id
  | .realloc _ _ => isFalse id
  | .orealloc _ _ => isFalse id

/-- A plain call goes through. -/
theorem Inv.step_plain {bs : List BuddyAllocator} (h : Inv bs s) {op : ManagerOp} (hp : Plain op)
    (hlegal : Legal s op) : ∃ s', step L s op = some s' ∧ Inv bs s' := by
  cases op with
  | alloc size =>
    obtain ⟨r, hr, h'⟩ := h.alloc (L := L) size
    exact ⟨_, by rw [step, hr]; rfl, h'⟩
  | oalloc order =>
    obtain ⟨r, hr, h'⟩ := h.oalloc (L := L) order
    exact ⟨_, by rw [step, hr]; rfl, h'⟩
  | dealloc mem =>
    obtain ⟨m', hm, h'⟩ := h.dealloc (L := L) hlegal
    exact ⟨_, by rw [step, hm]; rfl, h'⟩
  | write mem i byte =>
    obtain ⟨m', hm, h'⟩ := h.write (L := L) hlegal.1 hlegal.2 byte
    exact ⟨_, by rw [step, hm]; rfl, h'⟩
  | allocAt addr size => exact hp.elim
  | oallocAt addr order => exact hp.elim
  | realloc mem size => exact hp.elim
  | orealloc mem order => exact hp.elim

/-- What `oalloc` does from a value of the counter: each zone is tried once at most, `None` means that
no zone has a free block of the order or a larger one, and a block comes from the one zone that
changes. -/
structure Searches (L : NodeLayout) (m : ZoneManager) (order : ℕ) (m' : ZoneManager) (tried : List ℕ)
    (out : Option ZoneAllocation) : Prop where
  action : m.allocerAction L (fun allocer => allocer.oalloc order) = some (m', tried, out)
  result : m.oalloc L order = some (m', out)
  once : tried.Nodup ∧ ∀ i ∈ tried, i < m.zones.length
  none_iff : out = none ↔ ∀ z ∈ m.zones, NoBlock z.allocer order
  unchanged : out = none → m'.zones = m.zones
  one_zone : ∀ a ∈ out, ∃ z z', m.zones[a.zindex]? = some z ∧ z'.live = a.mem :: z.live ∧
    z'.allocer ≠ z.allocer ∧ m'.zones = m.zones.set a.zindex z'

theorem Inv.searches {bs : List BuddyAllocator} (h : Inv bs s) (order : ℕ) :
    ∃ m' tried out, Searches L s.manager order m' tried out := by
  have hf : ∀ z ∈ s.manager.zones, Zone.Answers L (fun allocer => allocer.oalloc order) z :=
    fun z hz => (h.zone_of_mem hz).choose_spec.answers_oalloc order
  obtain ⟨m', tried, out, he, hnodup, hlt, hnone, hsome⟩ := allocerAction_spec h.zones_ne_nil hf
  have hno : ∀ z ∈ s.manager.zones, NoBlock z.allocer order ↔
      z.ask L (fun allocer => allocer.oalloc order) = some (z, none) := by
    intro z hz
    obtain ⟨b, ⟨seqs, h₁⟩, -⟩ := h.zone_of_mem hz
    rw [Zone.ask_eq_none_iff, h₁.noBlock_iff]
  refine ⟨m', tried, out, he, by rw [ZoneManager.oalloc, he]; rfl, ⟨hnodup, hlt⟩, ⟨fun hout z hz => ?_,
    fun hall => ?_⟩, fun hout => (hnone hout).1, fun a ha => ?_⟩
  · exact (hno z hz).2 ((hnone hout).2 z hz)
  · by_contra hne
    obtain ⟨a, ha⟩ := Option.ne_none_iff_exists'.1 hne
    obtain ⟨z, z', hz, hask, -⟩ := hsome a ha
    have hmem := List.mem_of_getElem? hz
    rw [(hno z hmem).1 (hall z hmem)] at hask
    simp at hask
  · obtain ⟨z, z', hz, hask, hm⟩ := hsome a ha
    obtain ⟨z₁, out₁, hask₁, hlive, hkeep, -⟩ := hf z (List.mem_of_getElem? hz)
    obtain ⟨rfl, rfl⟩ : z₁ = z' ∧ out₁ = some a.mem := by simpa using hask₁.symm.trans hask
    refine ⟨z, z₁, hz, hlive, fun heq => ?_, hm⟩
    obtain ⟨b, hb⟩ := h.zone hz
    obtain ⟨⟨seqs', h'⟩, hs', -⟩ := hkeep b hb
    obtain ⟨⟨seqs, h₁⟩, hs, -⟩ := hb
    rw [hlive, Option.toList_some, List.singleton_append, heq] at h'
    have hbit := h'.isAlloced_iff_live h₁ (same_update _ _ _ _ _)
    rw [hbit.1] at hbit
    simp at hbit

/-- **The search in any state of a run** of plain calls, from any value of the counter. -/
theorem run_searches (hpos : regions ≠ []) (hinit : init A regions = some m) (ops : List ManagerOp)
    (hplain : ∀ op ∈ ops, Plain op) (hlegal : Along (step L) Legal ⟨m, []⟩ ops) :
    ∃ s, run (step L) ⟨m, []⟩ ops = some s ∧ ∀ selnum order, ∃ m' tried out,
      Searches L { s.manager with selnum := selnum } order m' tried out := by
  have hplain' : Along (step L) (fun _ op => Plain op) ⟨m, []⟩ ops := along_of_forall hplain
  obtain ⟨s, he, h⟩ := run_inv (Inv (m.zones.map Zone.allocer))
    (fun s op h hop => h.step_plain hop.2 hop.1) (inv_init hpos hinit) (hlegal.and hplain')
  refine ⟨s, he, fun selnum order => ?_⟩
  have h' : Inv _ ⟨{ s.manager with selnum := selnum }, s.held⟩ := h.same_zones rfl
  exact h'.searches order

/-- A region of zeroed memory. -/
def zeroed (startAddr endAddr : ℕ) (h : endAddr < usizeMod) : UsableMem :=
  ⟨startAddr, endAddr, fun _ => ⟨null, null⟩, fun _ => 0, fun _ => 0, fun _ => 0, h⟩

/-- Two zones of six pages. -/
def twoZones : Option ZoneManager :=
  init alignVirt [zeroed 0x4000 0xb000 (by decide), zeroed 0x10000 0x17000 (by decide)]

/-- The first zone is used up and a page of the second is taken and freed. -/
theorem run_searches_sample :
    ∃ m s, twoZones = some m ∧
      run (step Zone.pageLayout) ⟨m, []⟩ [.oalloc 2, .alloc 4096, .oalloc 1,
        .dealloc ⟨⟨0x14000, 0x1000⟩, 1⟩] = some s ∧
      ∀ selnum order, ∃ m' tried out,
        Searches Zone.pageLayout { s.manager with selnum := selnum } order m' tried out := by
  let ops : List ManagerOp := [.oalloc 2, .alloc 4096, .oalloc 1, .dealloc ⟨⟨0x14000, 0x1000⟩, 1⟩]
  have hsome : twoZones.isSome := by decide +kernel
  obtain ⟨m, hm⟩ := Option.isSome_iff_exists.1 hsome
  have hlegal : ∀ m ∈ twoZones, Along (step Zone.pageLayout) Legal ⟨m, []⟩ ops := by decide +kernel
  obtain ⟨s, hs, hall⟩ := run_searches (by simp) hm ops (by decide) (hlegal m hm)
  exact ⟨m, s, hm, hs, hall⟩

/-! ### The zone of a block -/

/-- The zone of its index contains the block, and takes it back. -/
def TakesBack (m : ZoneManager) (mem : ZoneAllocation) : Prop :=
  ∃ z b', m.zones[mem.zindex]? = some z ∧
    (z.allocer.start ≤ mem.mem.addr ∧ mem.mem.addr + mem.mem.size ≤ z.allocer.metaStart) ∧
    z.allocer.dealloc mem.mem = some b' ∧
    (z.allocer.isAlloced mem.mem.addr = true ∧ b'.isAlloced mem.mem.addr = false) ∧
    Partition b' b'.freeNodes (z.live.erase mem.mem)

theorem Inv.takesBack {bs : List BuddyAllocator} {mem : ZoneAllocation} (h : Inv bs s)
    (hmem : mem ∈ s.held) : TakesBack s.manager mem := by
  obtain ⟨z, hz, hlive⟩ := h.held mem hmem
  obtain ⟨b, ⟨seqs, h₁⟩, -⟩ := h.zone hz
  have h₂ := h₁.perm (List.perm_cons_erase hlive)
  obtain ⟨hlo, hhi, -⟩ := h₂.live_mem List.mem_cons_self
  obtain ⟨b', k, he, -, -, -, h', hsame, -⟩ := dealloc_spec h₂
  have hp := h'.partition
  rw [← funext h'.freeNodes_eq] at hp
  exact ⟨z, b', hz, ⟨hlo, hhi⟩, he, h₂.isAlloced_iff_live h' hsame, hp⟩

/-- No address belongs to two regions. -/
def Apart (regions : List UsableMem) : Prop :=
  regions.Pairwise fun r r' => r.endAddr ≤ r'.startAddr ∨ r'.endAddr ≤ r.startAddr

/-- Zones of regions that are apart have no address in common. -/
theorem Inv.zone_unique (hinit : init A regions = some m) (h : Inv (m.zones.map Zone.allocer) s)
    (hapart : Apart regions) {i j : ℕ} {z z' : Zone} {addr : ℕ} (hz : s.manager.zones[i]? = some z)
    (hz' : s.manager.zones[j]? = some z') (hin : z.allocer.containsAddr addr = true)
    (hin' : z'.allocer.containsAddr addr = true) : i = j := by
  have hregion : ∀ (i : ℕ) (z : Zone), s.manager.zones[i]? = some z →
      z.allocer.containsAddr addr = true →
      ∃ r, regions[i]? = some r ∧ r.startAddr ≤ addr ∧ addr < r.endAddr := by
    intro i z hz hin
    obtain ⟨hi, rfl⟩ := List.getElem?_eq_some_iff.1 hz
    have hzones := List.forall₂_iff_get.1 (init_zones hinit)
    have hinv := List.forall₂_iff_get.1 (List.forall₂_map_left_iff.1 h.zones)
    have him : i < m.zones.length := by rwa [hinv.1]
    have hir : i < regions.length := by rwa [hzones.1]
    obtain ⟨b, hb, he⟩ := hzones.2 i hir him
    obtain ⟨-, hsame, -⟩ := hinv.2 i him hi
    rw [he] at hsame
    obtain ⟨hlo, hhi⟩ := new_within hb
    have hcontains := of_decide_eq_true hin
    have hs := hsame.start
    have hms := hsame.metaStart
    simp only [List.get_eq_getElem] at hs hms hlo hhi
    exact ⟨regions[i], List.getElem?_eq_getElem hir, by omega, by omega⟩
  obtain ⟨r, hr, hlo, hhi⟩ := hregion i z hz hin
  obtain ⟨r', hr', hlo', hhi'⟩ := hregion j z' hz' hin'
  obtain ⟨hi, rfl⟩ := List.getElem?_eq_some_iff.1 hr
  obtain ⟨hj, rfl⟩ := List.getElem?_eq_some_iff.1 hr'
  have hpair := List.pairwise_iff_getElem.1 hapart
  rcases lt_trichotomy i j with hlt | heq | hlt
  · have := hpair i j hi hj hlt
    omega
  · exact heq
  · have := hpair j i hj hi hlt
    omega

/-- **The zone of what callers hold**: in every run in which `alloc_at` and `oalloc_at` are served by
the first zone, the zone of its index contains each block and takes it back, and no other zone
contains its address. -/
theorem run_takesBack (hpos : regions ≠ []) (hinit : init A regions = some m) (ops : List ManagerOp)
    (hlegal : Along (step L) Legal ⟨m, []⟩ ops) (hc : Along (step L) Guarded ⟨m, []⟩ ops)
    (hrun : run (step L) ⟨m, []⟩ ops = some s) :
    ∀ mem ∈ s.held, TakesBack s.manager mem ∧
      (Apart regions → ∀ (i : ℕ) (z : Zone), s.manager.zones[i]? = some z →
        z.allocer.containsAddr mem.mem.addr = true → i = mem.zindex) := by
  have h : Inv (m.zones.map Zone.allocer) s :=
    run_keeps _ (fun s op s' h hop he => step_inv h hop.1 hop.2 he) (inv_init hpos hinit)
      (hlegal.and hc) hrun
  intro mem hmem
  have htake := h.takesBack hmem
  refine ⟨htake, fun hapart i z hz hin => ?_⟩
  obtain ⟨z', b', hz', ⟨hlo, hhi⟩, -⟩ := htake
  obtain ⟨b, ⟨seqs, h₁⟩, -⟩ := h.zone hz'
  obtain ⟨-, -, hsize, -⟩ := h₁.live_mem (h.live_of_zindex hmem hz' rfl)
  exact h.zone_unique hinit hapart hz hz' hin (decide_eq_true ⟨hlo, by omega⟩)

/-- A page of the second zone is asked for by its address: the block says that it is in the first
zone, which ignores it when it is freed. -/
theorem run_takesBack_fails :
    ∃ m s, twoZones = some m ∧
      Along (step Zone.pageLayout) Legal ⟨m, []⟩ [.oallocAt 0x10000 0] ∧
      run (step Zone.pageLayout) ⟨m, []⟩ [.oallocAt 0x10000 0] = some s ∧
      (⟨⟨0x10000, 0x1000⟩, 0⟩ : ZoneAllocation) ∈ s.held ∧
      ¬ TakesBack s.manager ⟨⟨0x10000, 0x1000⟩, 0⟩ := by
  have hsome : twoZones.isSome := by decide +kernel
  obtain ⟨m, hm⟩ := Option.isSome_iff_exists.1 hsome
  have hrun : ∀ m ∈ twoZones, Along (step Zone.pageLayout) Legal ⟨m, []⟩ [.oallocAt 0x10000 0] ∧
      (run (step Zone.pageLayout) ⟨m, []⟩ [.oallocAt 0x10000 0]).isSome ∧
      ∀ s ∈ run (step Zone.pageLayout) ⟨m, []⟩ [.oallocAt 0x10000 0],
        (⟨⟨0x10000, 0x1000⟩, 0⟩ : ZoneAllocation) ∈ s.held ∧
        ∀ z ∈ s.manager.zones[0]?, z.allocer.metaStart = 0xa000 := by decide +kernel
  obtain ⟨hlegal, hsome', hall⟩ := hrun m hm
  obtain ⟨s, hs⟩ := Option.isSome_iff_exists.1 hsome'
  obtain ⟨hheld, hmeta⟩ := hall s hs
  refine ⟨m, s, hm, hlegal, hs, hheld, ?_⟩
  rintro ⟨z, b', hz, ⟨-, hhi⟩, -⟩
  have := hmeta z hz
  simp only at hhi
  omega

/-- Blocks of both zones are held: one asked for by its address in the first zone, one that grew. -/
theorem run_takesBack_sample :
    ∃ m s, twoZones = some m ∧
      run (step Zone.pageLayout) ⟨m, []⟩ [.oallocAt 0x6000 0, .oalloc 0, .alloc 4096,
        .write ⟨⟨0x14000, 0x1000⟩, 1⟩ 0 7, .orealloc ⟨⟨0x14000, 0x1000⟩, 1⟩ 1, .allocAt 0x14000 4096] = some s ∧
      ∀ mem ∈ s.held, TakesBack s.manager mem ∧
        (Apart [zeroed 0x4000 0xb000 (by decide), zeroed 0x10000 0x17000 (by decide)] →
          ∀ (i : ℕ) (z : Zone), s.manager.zones[i]? = some z →
            z.allocer.containsAddr mem.mem.addr = true → i = mem.zindex) := by
  let ops : List ManagerOp := [.oallocAt 0x6000 0, .oalloc 0, .alloc 4096,
    .write ⟨⟨0x14000, 0x1000⟩, 1⟩ 0 7, .orealloc ⟨⟨0x14000, 0x1000⟩, 1⟩ 1, .allocAt 0x14000 4096]
  have hsome : twoZones.isSome := by decide +kernel
  obtain ⟨m, hm⟩ := Option.isSome_iff_exists.1 hsome
  have hall : ∀ m ∈ twoZones, Along (step Zone.pageLayout) Legal ⟨m, []⟩ ops ∧
      Along (step Zone.pageLayout) Guarded ⟨m, []⟩ ops ∧
      (run (step Zone.pageLayout) ⟨m, []⟩ ops).isSome := by decide +kernel
  obtain ⟨hlegal, hc, hsome'⟩ := hall m hm
  obtain ⟨s, hs⟩ := Option.isSome_iff_exists.1 hsome'
  exact ⟨m, s, hm, hs, run_takesBack (by simp) hm ops hlegal hc hs⟩

/-! ### Reallocation -/

/-- The zone of a block can give it a new order, or no zone has a block of that order. -/
def Served (m : ZoneManager) (mem : ZoneAllocation) (order : BuddyAllocator → ℕ) : Prop :=
  (∃ z ∈ m.zones[mem.zindex]?, Serves z.allocer mem.mem (order z.allocer)) ∨
    ∀ z ∈ m.zones, NoBlock z.allocer (order z.allocer)

instance (m : ZoneManager) (mem : ZoneAllocation) (order : BuddyAllocator → ℕ) :
    Decidable (Served m mem order) :=
  inferInstanceAs (Decidable ((∃ z ∈ m.zones[mem.zindex]?, Serves z.allocer mem.mem _) ∨
    ∀ z ∈ m.zones, NoBlock z.allocer _))

section Reallocation

variable {bs : List BuddyAllocator} {mem : ZoneAllocation} {z : Zone}

theorem Inv.serves_iff (h : Inv bs s) (hmem : mem ∈ s.held)
    (hz : s.manager.zones[mem.zindex]? = some z) {order : ℕ} (hc : z.Room mem.mem order) :
    (∃ r, z.allocer.orealloc L z.bytes mem.mem order = some r ∧ r.2.2.isSome) ↔
      Serves z.allocer mem.mem order := by
  obtain ⟨b, ⟨seqs, h₁⟩, -⟩ := h.zone hz
  have h₂ := h₁.perm (List.perm_cons_erase (h.live_of_zindex hmem hz rfl))
  obtain ⟨b', bytes', out, he, -⟩ := orealloc_spec L z.bytes h₂ hc
  have hiff := orealloc_none_iff h₂ he
  rw [he]
  simp only [Option.some.injEq, exists_eq_left']
  rw [← not_iff_not, Bool.not_eq_true, Option.isSome_eq_false_iff, Option.isNone_iff_eq_none, hiff]

theorem Inv.noBlock_iff (h : Inv bs s) (order : BuddyAllocator → ℕ) :
    (∀ z ∈ s.manager.zones, z.ask L (fun allocer => allocer.oalloc (order allocer)) = some (z, none)) ↔
      ∀ z ∈ s.manager.zones, NoBlock z.allocer (order z.allocer) := by
  refine forall₂_congr fun z hz => ?_
  obtain ⟨b, ⟨seqs, h₁⟩, -⟩ := h.zone_of_mem hz
  rw [Zone.ask_eq_none_iff, h₁.noBlock_iff]

theorem Inv.orealloc_replaces (h : Inv bs s) (hmem : mem ∈ s.held) {order : ℕ}
    (hc : RoomIn s mem fun _ => order) :
    ∃ m' out, s.manager.orealloc L mem order = some (m', out) ∧
      (Replaces s.manager mem m' out ↔ Served s.manager mem fun _ => order) := by
  obtain ⟨z, hz, hlive⟩ := h.held mem hmem
  obtain ⟨b, hb⟩ := h.zone hz
  obtain ⟨m', out, he, -, hiff⟩ := reallocWith_spec h hmem hz
    (hb.reallocates_orealloc (L := L) hlive (hc z hz))
    (fun z hz => (h.zone_of_mem hz).choose_spec.answers_oalloc order) fun _ => rfl
  refine ⟨m', out, he, hiff.trans ?_⟩
  unfold Served
  rw [h.serves_iff hmem hz (hc z hz), h.noBlock_iff fun _ => order, hz]
  simp

theorem Inv.realloc_replaces (h : Inv bs s) (hmem : mem ∈ s.held) {size : ℕ}
    (hc : RoomIn s mem (getOrder · size)) :
    ∃ m' out, s.manager.realloc L mem size = some (m', out) ∧
      (Replaces s.manager mem m' out ↔ size = 0 ∨ Served s.manager mem (getOrder · size)) := by
  obtain ⟨z, hz, hlive⟩ := h.held mem hmem
  obtain ⟨b, hb⟩ := h.zone hz
  obtain ⟨m', out, he, -, hiff⟩ := reallocWith_spec h hmem hz
    (hb.reallocates_realloc (L := L) hlive (hc z hz))
    (fun z hz => (h.zone_of_mem hz).choose_spec.answers_alloc size) fun _ => rfl
  refine ⟨m', out, he, hiff.trans ?_⟩
  by_cases h0 : size = 0
  · refine iff_of_true (Or.inr fun z _ => ?_) (Or.inl h0)
    rw [Zone.ask_eq_none_iff, BuddyAllocator.alloc, if_pos h0]
  · unfold Served BuddyAllocator.realloc BuddyAllocator.alloc
    simp only [h0, if_false, false_or]
    rw [h.serves_iff hmem hz (hc z hz), h.noBlock_iff (getOrder · size), hz]
    simp

end Reallocation

/-- **Reallocation in any state of a run**: `orealloc` and `realloc` keep their promise exactly when the
zone of the block serves them, or no zone has a block to move to. -/
theorem run_replaces (hpos : regions ≠ []) (hinit : init A regions = some m) (ops : List ManagerOp)
    (hlegal : Along (step L) Legal ⟨m, []⟩ ops) (hc : Along (step L) Guarded ⟨m, []⟩ ops)
    (hrun : run (step L) ⟨m, []⟩ ops = some s) :
    ∀ mem ∈ s.held,
      (∀ order, RoomIn s mem (fun _ => order) →
        ∃ m' out, s.manager.orealloc L mem order = some (m', out) ∧
          (Replaces s.manager mem m' out ↔ Served s.manager mem fun _ => order)) ∧
      ∀ size, RoomIn s mem (getOrder · size) →
        ∃ m' out, s.manager.realloc L mem size = some (m', out) ∧
          (Replaces s.manager mem m' out ↔ size = 0 ∨ Served s.manager mem (getOrder · size)) := by
  have h : Inv (m.zones.map Zone.allocer) s :=
    run_keeps _ (fun s op s' h hop he => step_inv h hop.1 hop.2 he) (inv_init hpos hinit)
      (hlegal.and hc) hrun
  exact fun mem hmem => ⟨fun order => h.orealloc_replaces hmem, fun size => h.realloc_replaces hmem⟩

/-- The first zone is used up: a block of two pages grows to four in the second zone, and stays live
in the first. -/
theorem run_replaces_fails :
    ∃ m s, twoZones = some m ∧
      Along (step Zone.pageLayout) Legal ⟨m, []⟩ [.oalloc 2, .oalloc 1, .oalloc 1] ∧
      run (step Zone.pageLayout) ⟨m, []⟩ [.oalloc 2, .oalloc 1, .oalloc 1] = some s ∧
      (⟨⟨0x8000, 0x2000⟩, 0⟩ : ZoneAllocation) ∈ s.held ∧
      ¬ ∃ m' out, s.manager.orealloc Zone.pageLayout ⟨⟨0x8000, 0x2000⟩, 0⟩ 2 = some (m', out) ∧
        Replaces s.manager ⟨⟨0x8000, 0x2000⟩, 0⟩ m' out := by
  let ops : List ManagerOp := [.oalloc 2, .oalloc 1, .oalloc 1]
  have hsome : twoZones.isSome := by decide +kernel
  obtain ⟨m, hm⟩ := Option.isSome_iff_exists.1 hsome
  have hrun : ∀ m ∈ twoZones, Along (step Zone.pageLayout) Legal ⟨m, []⟩ ops ∧
      (run (step Zone.pageLayout) ⟨m, []⟩ ops).isSome ∧
      ∀ s ∈ run (step Zone.pageLayout) ⟨m, []⟩ ops,
        (⟨⟨0x8000, 0x2000⟩, 0⟩ : ZoneAllocation) ∈ s.held ∧
        ∀ r ∈ s.manager.orealloc Zone.pageLayout ⟨⟨0x8000, 0x2000⟩, 0⟩ 2,
          r.2 = some ⟨⟨0x10000, 0x4000⟩, 1⟩ ∧ ∃ z ∈ r.1.zones[0]?, ⟨0x8000, 0x2000⟩ ∈ z.live := by
    decide +kernel
  obtain ⟨hlegal, hsome', hall⟩ := hrun m hm
  obtain ⟨s, hs⟩ := Option.isSome_iff_exists.1 hsome'
  obtain ⟨hheld, hre⟩ := hall s hs
  refine ⟨m, s, hm, hlegal, hs, hheld, ?_⟩
  rintro ⟨m', out, he, hrep⟩
  obtain ⟨hout, hlive⟩ := hre _ he
  rcases (hrep.live _ hout ⟨⟨0x8000, 0x2000⟩, 0⟩).1 hlive with heq | ⟨hne, -⟩
  · exact absurd (congrArg ZoneAllocation.zindex heq) (by decide)
  · exact hne rfl

/-- A page with one byte written grows over its free neighbour in the first zone. -/
theorem run_replaces_sample :
    ∃ m s m' out, twoZones = some m ∧
      run (step Zone.pageLayout) ⟨m, []⟩ [.oallocAt 0x6000 0, .oalloc 1,
        .write ⟨⟨0x6000, 0x1000⟩, 0⟩ 0 42] = some s ∧
      s.manager.orealloc Zone.pageLayout ⟨⟨0x6000, 0x1000⟩, 0⟩ 1 = some (m', out) ∧
      Replaces s.manager ⟨⟨0x6000, 0x1000⟩, 0⟩ m' out := by
  let ops : List ManagerOp := [.oallocAt 0x6000 0, .oalloc 1, .write ⟨⟨0x6000, 0x1000⟩, 0⟩ 0 42]
  have hsome : twoZones.isSome := by decide +kernel
  obtain ⟨m, hm⟩ := Option.isSome_iff_exists.1 hsome
  have hall : ∀ m ∈ twoZones, Along (step Zone.pageLayout) Legal ⟨m, []⟩ ops ∧
      Along (step Zone.pageLayout) Guarded ⟨m, []⟩ ops ∧
      (run (step Zone.pageLayout) ⟨m, []⟩ ops).isSome ∧
      ∀ s ∈ run (step Zone.pageLayout) ⟨m, []⟩ ops,
        (⟨⟨0x6000, 0x1000⟩, 0⟩ : ZoneAllocation) ∈ s.held ∧
        RoomIn s ⟨⟨0x6000, 0x1000⟩, 0⟩ (fun _ => 1) ∧
        Served s.manager ⟨⟨0x6000, 0x1000⟩, 0⟩ fun _ => 1 := by decide +kernel
  obtain ⟨hlegal, hc, hsome', hserved⟩ := hall m hm
  obtain ⟨s, hs⟩ := Option.isSome_iff_exists.1 hsome'
  obtain ⟨hheld, hroom, hserve⟩ := hserved s hs
  obtain ⟨m', out, he, hiff⟩ :=
    (run_replaces (by simp) hm ops hlegal hc hs _ hheld).1 1 hroom
  exact ⟨m, s, m', out, hm, hs, he, hiff.2 hserve⟩

end PhysMem
end AuroraOs
