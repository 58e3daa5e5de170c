import AuroraOs.Mem.ZoneManagerAt
import AuroraOs.Mem.AllocSize

/-!
# Zeroed allocations

`allocz`, `oallocz`, `allocz_at` and `oallocz_at` of the zone manager: an allocation, and zeros in the
block.  `oallocz` passes its order to `alloc`, which takes it for a size.
-/

namespace AuroraOs

open Blocks Machine BuddyAllocator

/-- `memset` of a block: the nodes that lie in it are what its bytes are. -/
def Zone.memset (L : NodeLayout) (z : Zone) (out : Allocation) (data : BitVec 8) : Zone :=
  let bytes := AuroraOs.memset z.bytes out.addr out.size data
  ⟨z.allocer.reload L bytes out, z.live, bytes⟩

namespace ZoneManager

variable (L : NodeLayout) (m : ZoneManager)

/-- `memset` of a block, by its address. -/
def memset (out : ZoneAllocation) (data : BitVec 8) : ZoneManager :=
  { m with zones := m.zones.map fun z =>
      if z.allocer.containsAddr out.mem.addr then z.memset L out.mem data else z }

/-- The end of the zeroing calls. -/
def zeroOut (r : ZoneManager × Option ZoneAllocation) : ZoneManager × Option ZoneAllocation :=
  match r.2 with
  | none => r
  | some out => (r.1.memset L out 0, some out)

/-- `allocz`. -/
def allocz (size : ℕ) : Option (ZoneManager × Option ZoneAllocation) := (m.alloc L size).map (zeroOut L)

/-- `oallocz`. -/
def oallocz (order : ℕ) : Option (ZoneManager × Option ZoneAllocation) :=
  (m.alloc L order).map (zeroOut L)

/-- `allocz_at`. -/
def alloczAt (addr size : ℕ) : Option (ZoneManager × Option ZoneAllocation) :=
  (m.allocAt L addr size).map (zeroOut L)

/-- `oallocz_at`. -/
def oalloczAt (addr order : ℕ) : Option (ZoneManager × Option ZoneAllocation) :=
  (m.oallocAt L addr order).map (zeroOut L)

end ZoneManager

/-! ### What the zeros change -/

/-- The same allocator, but for the nodes that overlap a block. -/
structure BuddyAllocator.SameBut (out : Block) (b b' : BuddyAllocator) : Prop where
  fields : ∃ mem N, b' = { b with lists := { b.lists with mem := mem }, nodeSize := N }
  nodes : ∀ p, ¬ (p < out.addr + out.size ∧ out.addr < p + NODE_SIZE) →
    b'.lists.mem p = b.lists.mem p ∧ b'.nodeSize p = b.nodeSize p

/-- A zone after zeros were written to a block: they are there if the zone contains it, and nothing else has
changed.  If the block is live in the zone, the zone has the free blocks that it had. -/
structure Zone.Zeroed (out : Allocation) (z z' : Zone) : Prop where
  live : z'.live = z.live
  allocer : SameBut out z.allocer z'.allocer
  outside : ∀ x, ¬ out.Has x → z'.bytes x = z.bytes x
  zero : z.allocer.containsAddr out.addr = true → ∀ x, out.Has x → z'.bytes x = 0
  free : ∀ b, Zone.Inv b z → out ∈ z.live →
    Zone.Inv b z' ∧ ∀ k, z'.allocer.freeNodes k = z.allocer.freeNodes k

namespace Zone

variable {L : NodeLayout} {z : Zone} {out : Allocation}

theorem zeroed_refl (hno : z.allocer.containsAddr out.addr = false) : Zeroed out z z where
  live := rfl
  allocer := ⟨⟨z.allocer.lists.mem, z.allocer.nodeSize, rfl⟩, fun _ _ => ⟨rfl, rfl⟩⟩
  outside := fun _ _ => rfl
  zero := fun h => absurd h (by rw [hno]; decide)
  free := fun _ h _ => ⟨h, fun _ => rfl⟩

theorem zeroed_memset : Zeroed out z (z.memset L out 0) where
  live := rfl
  allocer := ⟨⟨_, _, rfl⟩, fun p hp => ⟨if_neg hp, if_neg hp⟩⟩
  outside := fun x hx => (memset_apply _ _ _ _ _).trans (if_neg hx)
  zero := fun _ x hx => (memset_apply _ _ _ _ _).trans (if_pos hx)
  free := fun b h hmem => by
    obtain ⟨⟨seqs, h₁⟩, hsame, hl⟩ := h
    have h₂ : BuddyAllocator.Inv (z.memset L out 0).allocer seqs z.live :=
      h₁.reload hmem ⟨le_rfl, le_rfl⟩
    have hs : Same z.allocer (z.memset L out 0).allocer := same_update _ _ _ _ _
    exact ⟨⟨⟨seqs, h₂⟩, hsame.trans hs, hs.largest hl⟩, fun k =>
      (h₂.freeNodes_eq k).trans (h₁.freeNodes_eq k).symm⟩

end Zone

namespace ZoneManager

variable {L : NodeLayout} {m m' : ZoneManager} {out : ZoneAllocation} {order : ℕ}
  {call : Option (ZoneManager × Option ZoneAllocation)}

/-- The block is live in a zone that contains it. -/
def Placed (m : ZoneManager) (out : ZoneAllocation) : Prop :=
  ∃ z ∈ m.zones, out.mem ∈ z.live ∧ z.allocer.containsAddr out.mem.addr = true

/-- A block of the manager was filled with zeros. -/
structure Zeroes (m : ZoneManager) (out : ZoneAllocation) (m' : ZoneManager) : Prop where
  selnum : m'.selnum = m.selnum
  zones : List.Forall₂ (Zone.Zeroed out.mem) m.zones m'.zones
  placed : Placed m out

/-- A zeroing call does what its plain counterpart does, and fills the block with zeros. -/
def Agrees (plain zeroing : Option (ZoneManager × Option ZoneAllocation)) : Prop :=
  match plain with
  | none => zeroing = none
  | some (m, none) => zeroing = some (m, none)
  | some (m, some out) => ∃ m', zeroing = some (m', some out) ∧ Zeroes m out m'

theorem zeroes_memset (hplaced : Placed m out) : Zeroes m out (m.memset L out 0) := by
  refine ⟨rfl, ?_, hplaced⟩
  show List.Forall₂ _ m.zones (m.zones.map _)
  rw [List.forall₂_map_right_iff, List.forall₂_same]
  intro z _
  split_ifs with hin
  · exact Zone.zeroed_memset
  · exact Zone.zeroed_refl (by simpa using hin)

/-- A call agrees with its zeroing counterpart if its blocks are placed. -/
theorem agrees_zeroOut (hplaced : ∀ m' out, call = some (m', some out) → Placed m' out) :
    Agrees call (call.map (zeroOut L)) := by
  unfold Agrees
  split
  · rfl
  · rfl
  · next m' out => exact ⟨_, rfl, zeroes_memset (hplaced m' out rfl)⟩

end ZoneManager

/-! ### Where the blocks are -/

namespace BuddyAllocator

variable {b b' : BuddyAllocator} {addr order size : ℕ} {node : Ptr}

theorem onOrder_same {op : LinkedList.ListOp ℕ} {r : Option Ptr} (h : b.onOrder order op = some (b', r)) :
    Same b b' := by
  unfold onOrder at h
  split_ifs at h
  obtain ⟨r', -, he⟩ := Option.map_eq_some_iff.1 h
  obtain rfl := (Prod.mk.inj he).1
  exact ⟨rfl, rfl, rfl, rfl, rfl⟩

theorem removeNode_same (h : b.removeNode order node = some b') : Same b b' := by
  obtain ⟨⟨b₁, r⟩, h₁, rfl⟩ := Option.map_eq_some_iff.1 h
  exact onOrder_same h₁

theorem push_same (h : b.push order node = some b') : Same b b' := by
  obtain ⟨⟨b₁, r⟩, h₁, rfl⟩ := Option.map_eq_some_iff.1 h
  exact onOrder_same h₁

theorem nodeNew_same (h : b.nodeNew addr size = some (b', node)) : Same b b' := by
  unfold nodeNew at h
  split_ifs at h
  obtain ⟨rfl, -⟩ := Prod.mk.inj (Option.some.inj h)
  exact ⟨rfl, rfl, rfl, rfl, rfl⟩

theorem cutAt_same {minAddr maxAddr : ℕ} (h : b.cutAt minAddr maxAddr order = some b') : Same b b' := by
  obtain ⟨node, -, h⟩ := Option.bind_eq_some_iff.1 h
  obtain ⟨b₁, h₁, h⟩ := Option.bind_eq_some_iff.1 h
  obtain ⟨⟨b₂, node₂⟩, h₂, h⟩ := Option.bind_eq_some_iff.1 h
  obtain ⟨b₃, h₃, h₄⟩ := Option.bind_eq_some_iff.1 h
  have hsize : Same b₁ (b₁.setSize node (b.getOrderSize order)) := ⟨rfl, rfl, rfl, rfl, rfl⟩
  exact (removeNode_same h₁).trans (hsize.trans ((nodeNew_same h₂).trans
    ((push_same h₃).trans (push_same h₄))))

theorem splitOrderAt_same (h : b.splitOrderAt addr order = some b') : Same b b' := by
  fun_induction splitOrderAt b addr order generalizing b' with
  | case1 =>
    obtain rfl := Option.some.inj h
    exact ⟨rfl, rfl, rfl, rfl, rfl⟩
  | case2 =>
    obtain rfl := Option.some.inj h
    exact ⟨rfl, rfl, rfl, rfl, rfl⟩
  | case3 =>
    rename_i ih
    obtain ⟨b₁, h₁, h⟩ := Option.bind_eq_some_iff.1 h
    exact (ih h₁).trans (cutAt_same h)

/-- Whatever `oalloc_at` does, the zone stays where it is, and the block is at the address. -/
theorem oallocAt_same {out : Option Allocation} (h : b.oallocAt addr order = some (b', out)) :
    Same b b' ∧ ∀ a ∈ out, a.addr = addr := by
  by_cases hc : Checked b addr order
  swap
  · rw [oallocAt_of_not_checked hc] at h
    obtain ⟨rfl, rfl⟩ := Prod.mk.inj (Option.some.inj h)
    exact ⟨⟨rfl, rfl, rfl, rfl, rfl⟩, fun _ ha => nomatch ha⟩
  obtain ⟨hmax, hu, halloc, hcap⟩ := hc
  rw [oallocAt, if_neg (by omega)] at h
  simp only [hu, Bool.true_eq_false, if_false, halloc, Bool.false_eq_true, false_or] at h
  rw [if_neg (by omega)] at h
  obtain ⟨b₁, h₁, h⟩ := Option.bind_eq_some_iff.1 h
  obtain ⟨node, -, h⟩ := Option.bind_eq_some_iff.1 h
  obtain ⟨b₂, h₂, h⟩ := Option.bind_eq_some_iff.1 h
  obtain ⟨rfl, rfl⟩ := Prod.mk.inj (Option.some.inj h)
  have hbit : Same b₂ (b₂.setIsAlloced addr true) := by
    unfold setIsAlloced
    split_ifs <;> exact ⟨rfl, rfl, rfl, rfl, rfl⟩
  have hsame := (splitOrderAt_same h₁).trans ((removeNode_same h₂).trans hbit)
  refine ⟨⟨hsame.start, hsame.metaStart, hsame.minOrderSize, hsame.minOrderBits, hsame.maxOrder⟩, ?_⟩
  rintro a ⟨⟩
  rfl

/-- The order of a number is below it, so that `oallocz` asks for smaller blocks than it should. -/
theorem getOrder_lt (hg : Geometry b) (hpos : 0 < order) (h : order < usizeMod) :
    b.getOrder order < order := by
  have hbits := hg.le_bits
  unfold getOrder
  split_ifs with hsmall
  · exact hpos
  rcases Nat.lt_or_ge (2 ^ 63) order with hbig | hle
  · rw [log2Up_of_lt hbig h]
    omega
  · rcases Nat.eq_or_lt_of_le hpos with rfl | h1
    · exact absurd (show log2Up 1 ≤ b.minOrderBits from le_trans (by decide) hbits) hsmall
    · have hpow := (log2Up_bounds h1 hle).2
      have hlt := Nat.lt_two_pow_self (n := log2Up order - 1)
      have hsplit : 2 ^ log2Up order = 2 * 2 ^ (log2Up order - 1) := by
        rw [← pow_succ', Nat.sub_add_cancel (by omega)]
      omega

theorem getOrder_le (hg : Geometry b) (h : order < usizeMod) : b.getOrder order ≤ order := by
  rcases Nat.eq_zero_or_pos order with rfl | hpos
  · rw [getOrder, if_pos (Nat.zero_le _ |>.trans' (by decide))]
  · exact (getOrder_lt hg hpos h).le

theorem NoBlock.mono {order' : ℕ} (h : NoBlock b order) (hle : order ≤ order') : NoBlock b order' :=
  fun k hk hle' => h k hk (hle.trans hle')

end BuddyAllocator

namespace ZoneManager

variable {L : NodeLayout} {m m' : ZoneManager} {out : ZoneAllocation} {addr order size : ℕ}

/-- A block that is handed out at an address is placed, in any state. -/
theorem placed_of_contains {f : BuddyAllocator → Option (BuddyAllocator × Option Allocation)}
    (hf : ∀ b b' out, f b = some (b', out) → Same b b' ∧ ∀ a ∈ out, a.addr = addr)
    (h : m.allocerActionContains L addr f = some (m', some out)) : Placed m' out := by
  unfold allocerActionContains at h
  split at h
  · next z i hat =>
    obtain ⟨hz, hin⟩ := PhysMem.zoneAt_spec hat
    obtain ⟨⟨z', out'⟩, hask, h⟩ := Option.bind_eq_some_iff.1 h
    obtain ⟨rfl, hout⟩ := Prod.mk.inj (Option.some.inj h)
    obtain ⟨a, rfl, rfl⟩ := Option.map_eq_some_iff.1 hout
    obtain ⟨⟨b', out''⟩, hcall, he⟩ := Option.map_eq_some_iff.1 hask
    obtain ⟨hsame, haddr⟩ := hf _ _ _ hcall
    cases out'' with
    | none => cases he
    | some a' =>
      obtain ⟨rfl, hout'⟩ := Prod.mk.inj he
      obtain rfl := Option.some.inj hout'
      refine ⟨z.allocated L (b', some a'), ?_, List.mem_cons_self, ?_⟩
      · exact List.mem_of_getElem? (List.getElem?_set_self (List.getElem?_eq_some_iff.1 hz).1)
      · rw [BuddyAllocator.containsAddr, decide_eq_true_iff] at hin ⊢
        show a'.addr ≥ b'.start ∧ a'.addr < b'.metaStart
        rwa [haddr a' rfl, hsame.start, hsame.metaStart]
  · split_ifs at h
    cases h

/-- `alloc_at` and `oalloc_at` agree with their zeroing counterparts in any state. -/
theorem agrees_oalloczAt : Agrees (m.oallocAt L addr order) (m.oalloczAt L addr order) :=
  agrees_zeroOut fun _ _ h => placed_of_contains (fun _ _ _ hb => oallocAt_same hb) h

theorem agrees_alloczAt : Agrees (m.allocAt L addr size) (m.alloczAt L addr size) := by
  refine agrees_zeroOut fun _ _ h => placed_of_contains (fun b b' out hb => ?_) h
  unfold BuddyAllocator.allocAt at hb
  split_ifs at hb
  · obtain ⟨rfl, rfl⟩ := Prod.mk.inj (Option.some.inj hb)
    exact ⟨⟨rfl, rfl, rfl, rfl, rfl⟩, fun _ ha => nomatch ha⟩
  · exact oallocAt_same hb

/-- Zones that all have nothing to give. -/
theorem allocerAction_none {f : BuddyAllocator → Option (BuddyAllocator × Option Allocation)}
    (hpos : m.zones ≠ []) (hf : ∀ z ∈ m.zones, z.ask L f = some (z, none)) :
    ∃ tried, m.allocerAction L f = some (⟨m.zones, (m.selnum + 1) % usizeMod⟩, tried, none) := by
  have hanswers : ∀ z ∈ m.zones, Zone.Answers L f z := fun z hz =>
    ⟨z, none, hf z hz, rfl, fun _ h => h, fun _ => rfl⟩
  obtain ⟨m', tried, out, he, -, -, hnone, hsome⟩ := allocerAction_spec hpos hanswers
  obtain rfl : out = none := by
    by_contra hne
    obtain ⟨a, ha⟩ := Option.ne_none_iff_exists'.1 hne
    obtain ⟨z, z', hz, hask, -⟩ := hsome a ha
    rw [hf z (List.mem_of_getElem? hz)] at hask
    cases hask
  refine ⟨tried, ?_⟩
  have hzones := (hnone rfl).1
  have hsel : m'.selnum = (m.selnum + 1) % usizeMod := by
    simp only [allocerAction] at he
    split_ifs at he
    obtain ⟨r, -, hr⟩ := Option.bind_eq_some_iff.1 he
    rw [← (Prod.mk.inj (Option.some.inj hr)).1]
  rw [he, ← hzones, ← hsel]

end ZoneManager

namespace PhysMem

open ZoneManager

variable {L : NodeLayout} {A : AlignVirt} {regions : List UsableMem} {m : ZoneManager} {s : PhysMem}
  {bs : List BuddyAllocator} {order : ℕ}

/-- What callers hold is placed. -/
theorem Inv.placed (h : Inv bs s) {out : ZoneAllocation} (hout : out ∈ s.held) :
    Placed s.manager out := by
  obtain ⟨z, hz, hlive⟩ := h.held out hout
  obtain ⟨b, ⟨seqs, h₁⟩, -⟩ := h.zone hz
  obtain ⟨hlo, hhi, hpos, -⟩ := h₁.live_mem hlive
  exact ⟨z, List.mem_of_getElem? hz, hlive, decide_eq_true ⟨hlo, by omega⟩⟩

theorem Inv.agrees_allocz (h : Inv bs s) (size : ℕ) :
    Agrees (s.manager.alloc L size) (s.manager.allocz L size) := by
  refine agrees_zeroOut fun m' out he => ?_
  obtain ⟨r, hr, h'⟩ := h.alloc (L := L) size
  obtain rfl := Option.some.inj (he.symm.trans hr)
  exact h'.placed List.mem_cons_self

/-- The block that `alloc` or `oalloc` of the manager takes comes from one zone. -/
theorem Inv.taken (h : Inv bs s) {f : BuddyAllocator → Option (BuddyAllocator × Option Allocation)}
    (hf : ∀ z ∈ s.manager.zones, Zone.Answers L f z) {m' : ZoneManager} {tried : List ℕ}
    {out : ZoneAllocation} (he : s.manager.allocerAction L f = some (m', tried, some out)) :
    ∃ z b', s.manager.zones[out.zindex]? = some z ∧ f z.allocer = some (b', some out.mem) := by
  obtain ⟨m₁, tried₁, out₁, he₁, -, -, -, hsome⟩ := allocerAction_spec h.zones_ne_nil hf
  rw [he, Option.some.injEq, Prod.mk.injEq, Prod.mk.injEq] at he₁
  obtain ⟨z, z', hz, hask, -⟩ := hsome out he₁.2.2.symm
  obtain ⟨⟨b', out'⟩, hcall, hr⟩ := Option.map_eq_some_iff.1 hask
  cases out' with
  | none => cases hr
  | some a => exact ⟨z, b', hz, by rw [hcall, ← (Prod.mk.inj hr).2]⟩

theorem Inv.size_of_oalloc (h : Inv bs s) {i k : ℕ} {z : Zone} {b' : BuddyAllocator} {a : Allocation}
    (hz : s.manager.zones[i]? = some z) (he : z.allocer.oalloc k = some (b', some a)) :
    a.size = 2 ^ (z.allocer.minOrderBits + k) := by
  obtain ⟨b, ⟨seqs, h₁⟩, -⟩ := h.zone hz
  obtain ⟨b₁, seqs', out, he₁, -, -, -, hsize, -⟩ := oalloc_spec h₁ k
  rw [he] at he₁
  exact hsize a (Prod.mk.inj (Option.some.inj he₁)).2.symm

/-- `alloc` and `oalloc` with the same number hand out different blocks. -/
theorem Inv.alloc_ne_oalloc (h : Inv bs s) (horder : order < usizeMod) {m₁ m₂ : ZoneManager}
    {tried₁ tried₂ : List ℕ} {out₁ out₂ : ZoneAllocation}
    (he₁ : s.manager.allocerAction L (fun allocer => allocer.alloc order) = some (m₁, tried₁, some out₁))
    (he₂ : s.manager.allocerAction L (fun allocer => allocer.oalloc order)
      = some (m₂, tried₂, some out₂)) : out₁ ≠ out₂ := by
  rintro rfl
  obtain ⟨z, b₁, hz, hcall₁⟩ := h.taken
    (fun z hz => (h.zone_of_mem hz).choose_spec.answers_alloc order) he₁
  obtain ⟨z₂, b₂, hz₂, hcall₂⟩ := h.taken
    (fun z hz => (h.zone_of_mem hz).choose_spec.answers_oalloc order) he₂
  obtain rfl := Option.some.inj (hz.symm.trans hz₂)
  have hpos := pos_of_alloc hcall₁
  rw [BuddyAllocator.alloc, if_neg hpos.ne'] at hcall₁
  have hsize := (h.size_of_oalloc hz hcall₁).symm.trans (h.size_of_oalloc hz hcall₂)
  obtain ⟨b, ⟨seqs, h₁⟩, -⟩ := h.zone hz
  have hlt := getOrder_lt h₁.core.geom hpos horder
  have heq : z.allocer.minOrderBits + z.allocer.getOrder order = z.allocer.minOrderBits + order :=
    Nat.pow_right_injective le_rfl hsize
  omega

/-- **`oallocz` agrees with `oalloc`** exactly where neither finds anything. -/
theorem Inv.agrees_oallocz_iff (h : Inv bs s) (horder : order < usizeMod) :
    Agrees (s.manager.oalloc L order) (s.manager.oallocz L order) ↔
      ∀ z ∈ s.manager.zones, NoBlock z.allocer (z.allocer.getOrder order) := by
  have hgeom : ∀ z ∈ s.manager.zones, Geometry z.allocer := fun z hz => by
    obtain ⟨b, ⟨seqs, h₁⟩, -⟩ := h.zone_of_mem hz
    exact h₁.core.geom
  have hno : ∀ k, ∀ z ∈ s.manager.zones, NoBlock z.allocer k ↔
      z.ask L (fun allocer => allocer.oalloc k) = some (z, none) := fun k z hz => by
    obtain ⟨b, ⟨seqs, h₁⟩, -⟩ := h.zone_of_mem hz
    rw [Zone.ask_eq_none_iff, h₁.noBlock_iff]
  constructor
  · intro hagree
    by_contra hblock
    obtain ⟨m', tried, out, hsearch⟩ := h.searches (L := L) order
    obtain ⟨m₁, tried₁, out₁, he₁, -, -, hnone₁, -⟩ := allocerAction_spec (L := L) h.zones_ne_nil
      fun z hz => (h.zone_of_mem hz).choose_spec.answers_alloc order
    have hzero : s.manager.oallocz L order = some (zeroOut L (m₁, out₁)) := by
      rw [oallocz, ZoneManager.alloc, he₁]
      rfl
    rw [hsearch.result, hzero] at hagree
    cases out₁ with
    | some a₁ =>
      -- the block is too small to be one of `oalloc`
      cases out with
      | none => cases hagree
      | some a =>
        obtain ⟨m₂, heq, -⟩ := hagree
        refine h.alloc_ne_oalloc horder he₁ hsearch.action ?_
        exact Option.some.inj (Prod.mk.inj (Option.some.inj heq)).2
    | none =>
      -- `alloc` found nothing, so it was asked for no bytes, and `oalloc` for a page
      have hask := (hnone₁ rfl).2
      rcases Nat.eq_zero_or_pos order with rfl | hpos
      · have hzero : ∀ z : Zone, z.allocer.getOrder 0 = 0 := fun z => if_pos (Nat.zero_le _)
        cases out with
        | none =>
          refine hblock fun z hz => ?_
          rw [hzero]
          exact hsearch.none_iff.1 rfl z hz
        | some a =>
          obtain ⟨m₂, heq, -⟩ := hagree
          cases heq
      · refine hblock fun z hz => (hno _ z hz).2 ?_
        have halloc : z.allocer.alloc order = z.allocer.oalloc (z.allocer.getOrder order) :=
          if_neg hpos.ne'
        rw [Zone.ask_eq_none_iff, ← halloc]
        exact Zone.ask_eq_none_iff.1 (hask z hz)
  · intro hall
    obtain ⟨tried, he⟩ := allocerAction_none (L := L) h.zones_ne_nil fun z hz =>
      (hno order z hz).1 ((hall z hz).mono (getOrder_le (hgeom z hz) horder))
    obtain ⟨tried', he'⟩ := allocerAction_none (L := L)
      (f := fun allocer => allocer.alloc order) h.zones_ne_nil fun z hz => by
        rw [Zone.ask_eq_none_iff, BuddyAllocator.alloc]
        split_ifs
        · rfl
        · exact Zone.ask_eq_none_iff.1 ((hno _ z hz).1 (hall z hz))
    rw [ZoneManager.oalloc, he, oallocz, ZoneManager.alloc, he']
    rfl

end PhysMem
end AuroraOs
