import AuroraOs.Lib.Machine
import AuroraOs.Mem.BuddyInvariant

/-!
# Runs of the buddy allocator

From the blocks that `new` lays out, and over any sequence of `alloc`, `oalloc` and `dealloc` of
live allocations: the free blocks and the live allocations partition the managed memory.
-/

namespace AuroraOs

open Blocks LinkedList Machine

namespace BuddyAllocator

variable {b b' : BuddyAllocator} {a k : ℕ} {seqs : ℕ → List Ptr} {live live' : List Allocation}

/-! ### The initial blocks -/

/-- The block that `init_orders` lays out at a page: a power of two of pages, standing at a multiple
of its size, within the memory. -/
theorem initLen_spec (h : Geometry b) (hlo : b.start ≤ a) (hhi : a < b.metaStart)
    (hpage : b.minOrderSize ∣ a) :
    ∃ k, min (alignOf a) (2 ^ log2 (b.metaStart - a)) = 2 ^ (b.minOrderBits + k) ∧
      2 ^ (b.minOrderBits + k) ∣ a ∧ a + 2 ^ (b.minOrderBits + k) ≤ b.metaStart ∧
      b.minOrderBits + k < 64 := by
  have hmeta := h.meta_lt
  have hpos : 0 < a := (h.start_pos (by omega)).trans_le hlo
  obtain ⟨i, hi⟩ := alignOf_eq_two_pow a
  rw [h.size_eq] at hpage
  have hbi : b.minOrderBits ≤ i := by
    have hd := dvd_alignOf hpos (by omega) hpage
    rw [hi] at hd
    exact (Nat.pow_dvd_pow_iff_le_right (by decide)).1 hd
  set n := log2 (b.metaStart - a) with hn
  have hle : 2 ^ n ≤ b.metaStart - a := two_pow_log2_le (by omega)
  have hbn : b.minOrderBits ≤ n := by
    have hd : 2 ^ b.minOrderBits ∣ b.metaStart - a := Nat.dvd_sub (h.size_eq ▸ h.dvd_meta) hpage
    have hlt := (Nat.le_of_dvd (by omega) hd).trans_lt (lt_two_pow_log2_succ _)
    have := (Nat.pow_lt_pow_iff_right (by decide)).1 hlt
    omega
  have hn64 : n < 64 := by
    have : 2 ^ n < 2 ^ 64 := by simp only [usizeMod] at hmeta; omega
    exact (Nat.pow_lt_pow_iff_right (by decide)).1 this
  have hmin : min (alignOf a) (2 ^ n) = 2 ^ min i n := by
    rw [hi]
    rcases le_total i n with hin | hin
    · rw [min_eq_left hin, min_eq_left (Nat.pow_le_pow_right (by decide) hin)]
    · rw [min_eq_right hin, min_eq_right (Nat.pow_le_pow_right (by decide) hin)]
  refine ⟨min i n - b.minOrderBits, ?_⟩
  rw [show b.minOrderBits + (min i n - b.minOrderBits) = min i n by omega]
  have hdvd : 2 ^ min i n ∣ a :=
    (pow_dvd_pow 2 (min_le_left i n)).trans (hi ▸ alignOf_dvd a)
  have hfit : 2 ^ min i n ≤ 2 ^ n := Nat.pow_le_pow_right (by decide) (min_le_right i n)
  exact ⟨hmin, hdvd, by omega, by omega⟩

/-- The memory up to `a` grows by a block in hand. -/
theorem Core.grow {s : ℕ} (h : Core b a seqs []) (hlo : b.start ≤ a) (hhi : a + s ≤ b.metaStart) :
    Core b (a + s) seqs [⟨a, s⟩] := by
  refine ⟨h.geom, hhi, h.lists, h.high, h.free, ?_⟩
  have ht := h.tiles.snoc (s := s) hlo
  rw [List.append_nil] at ht
  exact ht.perm (List.perm_append_singleton _ _).symm

/-- The blocks are as large as their addresses and the end of the memory allow. -/
def Greedy (b : BuddyAllocator) (seqs : ℕ → List Ptr) : Prop :=
  ∀ k, ∀ p ∈ seqs k, 2 ^ (b.minOrderBits + k) = min (alignOf p) (2 ^ log2 (b.metaStart - p))

/-- There is a block of the largest order. -/
def Reached (b : BuddyAllocator) (seqs : ℕ → List Ptr) : Prop :=
  0 < b.maxOrder → seqs b.maxOrder ≠ []

/-- **`init_orders`** tiles the memory from `a` on. -/
theorem initOrders_spec (h : Core b a seqs []) (hg : Greedy b seqs) (hr : Reached b seqs)
    (hlo : b.start ≤ a) (hpage : b.minOrderSize ∣ a)
    (he : initOrders b.metaStart b a = some b') :
    ∃ L N M seqs', b' = { b with lists := L, nodeSize := N, maxOrder := M } ∧
      Core b' b'.metaStart seqs' [] ∧ Greedy b' seqs' ∧ Reached b' seqs' := by
  -- induction on what is left of the memory
  induction hn : b.metaStart - a using Nat.strong_induction_on generalizing b a seqs with
  | _ n ih =>
    rw [initOrders] at he
    by_cases hlt : a < b.metaStart
    · obtain ⟨k, hlen, hdvd, hfit, hk64⟩ := initLen_spec h.geom hlo hlt hpage
      have hpos : 0 < 2 ^ (b.minOrderBits + k) := by positivity
      obtain ⟨L₁, he₁, h₁, -⟩ := nodeNew_spec (h.grow hlo hfit) hpos (2 ^ (b.minOrderBits + k))
      simp only [dif_pos hlt, hlen, getOrder_two_pow h.geom hk64, he₁, Option.bind_eq_bind,
        Option.bind_some] at he
      set N₁ := Function.update b.nodeSize a (2 ^ (b.minOrderBits + k))
      by_cases hk : k < MAX_ORDER
      · obtain ⟨L₂, he₂, h₂, -⟩ := push_spec h₁ hk (Function.update_self _ _ _) hdvd
        have hg₂ : Greedy b (Function.update seqs k (seqs k ++ [a])) := by
          intro j q hq
          rcases eq_or_ne j k with rfl | hj
          · rw [Function.update_self, List.mem_append, List.mem_singleton] at hq
            rcases hq with hq | rfl
            · exact hg j q hq
            · exact hlen.symm
          · rw [Function.update_of_ne hj] at hq
            exact hg j q hq
        have hr₂ : 0 < max b.maxOrder k →
            Function.update seqs k (seqs k ++ [a]) (max b.maxOrder k) ≠ [] := by
          intro hpos
          rcases le_or_gt b.maxOrder k with hle | hlt
          · rw [max_eq_right hle, Function.update_self]
            simp
          · rw [max_eq_left hlt.le, Function.update_of_ne (by omega)]
            exact hr (by omega)
        rw [if_neg (by omega), he₂, Option.bind_some] at he
        have hmax : (if k > b.maxOrder then { b with lists := L₂, nodeSize := N₁, maxOrder := k }
            else { b with lists := L₂, nodeSize := N₁ })
            = { b with lists := L₂, nodeSize := N₁, maxOrder := max b.maxOrder k } := by
          split_ifs with hgt
          · rw [max_eq_right (by omega)]
          · rw [max_eq_left (by omega)]
        simp only [hmax] at he
        have hpage' : b.minOrderSize ∣ a + 2 ^ (b.minOrderBits + k) := by
          refine dvd_add hpage ?_
          rw [h.geom.size_eq]
          exact pow_dvd_pow 2 (by omega)
        obtain ⟨L, N, M, seqs', hb', h', hg', hr'⟩ := ih _ (by subst hn; simp only; omega) h₂ hg₂
          hr₂ (by simp only; omega) hpage' he rfl
        exact ⟨L, N, M, seqs', hb', h', hg', hr'⟩
      · -- the order is past the end of `olist`
        have hnone : ({ b with lists := L₁, nodeSize := N₁ } : BuddyAllocator).push k a = none := by
          simp [push, onOrder, hk]
        rw [hnone] at he
        split_ifs at he
        simp at he
    · rw [dif_neg hlt, Option.some.injEq] at he
      subst he
      have hle := h.hi_le
      obtain rfl : a = b.metaStart := by omega
      exact ⟨b.lists, b.nodeSize, b.maxOrder, seqs, rfl, h, hg, hr⟩

/-- The bitmap fits behind the managed memory. -/
theorem metaStart_spec {start endAddr n : ℕ} (hdvd : 2 ^ k ∣ start) (hlt : start < endAddr)
    (hend : endAddr < usizeMod) (hk : k ≤ 64) (hn : n = (endAddr - start) / (8 * 2 ^ k) + 1) :
    2 ^ k ∣ alignDown (endAddr - n) (2 ^ k) ∧ start ≤ alignDown (endAddr - n) (2 ^ k) ∧
      alignDown (endAddr - n) (2 ^ k) ≤ endAddr - n := by
  have hpos : 0 < 2 ^ k := by positivity
  have hfit : n ≤ endAddr - start := by
    have : (endAddr - start) / (8 * 2 ^ k) ≤ (endAddr - start) / 2 :=
      Nat.div_le_div_left (by omega) (by decide)
    omega
  rw [alignDown_eq (by omega) hk]
  refine ⟨Nat.dvd_mul_left _ _, ?_, Nat.div_mul_le_self _ _⟩
  obtain ⟨q, rfl⟩ := hdvd
  rw [mul_comm]
  apply Nat.mul_le_mul_right
  rw [Nat.le_div_iff_mul_le hpos, mul_comm]
  omega

/-- Before `init_orders`: no list has a node, and no page is marked. -/
theorem core_empty (hgeom : Geometry b) (hempty : ∀ k, b.lists.list k = LinkedList.new) :
    Core b b.start (fun _ => []) [] := by
  refine ⟨hgeom, hgeom.start_le, ⟨fun k => ?_, by simp⟩, by simp, by simp, ?_⟩
  · rw [hempty k]
    exact repr_new _
  · have hnil : freeBlocks b.minOrderBits (fun _ => []) = [] := by simp [freeBlocks]
    rw [hnil]
    exact tiles_nil

/-- The bytes of the bitmap that `new` clears; the region ends at `endAddr`. -/
def metaSize (b : BuddyAllocator) (endAddr : ℕ) : ℕ :=
  (endAddr - b.start) / (8 * b.minOrderSize % usizeMod) + 1

/-- What `new` fixes: the size of a page, where the memory begins, and the bitmap at the end of the
region. -/
structure LaidOut (A : AlignVirt) (bytes : ℕ → BitVec 8) (startAddr endAddr minOrderSize : ℕ)
    (b : BuddyAllocator) : Prop where
  size_eq : b.minOrderSize = max (alignUp minOrderSize PAGE_SIZE) PAGE_SIZE
  size_lt : 8 * b.minOrderSize < usizeMod
  start_eq : A.alignUp startAddr b.minOrderSize = some b.start
  start_lt : b.start < endAddr
  meta_le : b.metaStart + b.metaSize endAddr ≤ endAddr
  bitmap : ∀ i, b.bitmap i = if i < b.metaSize endAddr then 0#8 else bytes i

/-- The byte of a page is one of those that are cleared. -/
theorem LaidOut.byte_lt {A : AlignVirt} {bytes : ℕ → BitVec 8} {startAddr endAddr minOrderSize addr : ℕ}
    (h : LaidOut A bytes startAddr endAddr minOrderSize b) (haddr : addr < b.metaStart) :
    (addr - b.start) / b.minOrderSize / 8 < b.metaSize endAddr := by
  have hmeta : b.metaStart ≤ endAddr := (Nat.le_add_right _ _).trans h.meta_le
  rw [metaSize, Nat.mod_eq_of_lt h.size_lt, Nat.div_div_eq_div_mul, mul_comm b.minOrderSize]
  exact Nat.lt_succ_of_le (Nat.div_le_div_right (by omega))

section New

variable {A : AlignVirt} {mem : NodeMem} {sizes : Ptr → ℕ} {bytes : ℕ → BitVec 8}
  {startAddr endAddr minOrderSize : ℕ}

/-- `new` lays out the bitmap, and blocks that tile the memory before it. -/
theorem new_laidOut (hend : endAddr < usizeMod)
    (he : new A mem sizes bytes startAddr endAddr minOrderSize = some b) :
    LaidOut A bytes startAddr endAddr minOrderSize b ∧
      ∃ seqs, Core b b.metaStart seqs [] ∧ Greedy b seqs ∧ Reached b seqs := by
  simp only [new, Option.bind_eq_bind] at he
  have hpage : 2 ^ 12 ≤ max (alignUp minOrderSize PAGE_SIZE) PAGE_SIZE := le_max_right _ _
  generalize hm : max (alignUp minOrderSize PAGE_SIZE) PAGE_SIZE = m at he hpage
  cases hs : A.alignUp startAddr m with
  | none => simp [hs] at he
  | some start =>
    rw [hs, Option.bind_some] at he
    split_ifs at he with hlt hzero
    obtain ⟨k, rfl⟩ := A.pow_two hs
    have hdvd := A.dvd hs
    have hk12 : 12 ≤ k := (Nat.pow_le_pow_iff_right (by decide)).1 hpage
    have h8 : 8 * 2 ^ k = 2 ^ (k + 3) := by ring
    have hk61 : k + 3 < 64 := by
      by_contra hge
      refine hzero ?_
      rw [h8]
      exact Nat.mod_eq_zero_of_dvd (pow_dvd_pow 2 (by omega))
    have hlt8 : 8 * 2 ^ k < usizeMod := by
      rw [h8]
      exact Nat.pow_lt_pow_right (by decide) hk61
    rw [log2_two_pow] at he
    obtain ⟨n, hn⟩ : ∃ n, n = (endAddr - start) / (8 * 2 ^ k % usizeMod) + 1 := ⟨_, rfl⟩
    rw [← hn] at he
    obtain ⟨hdvdMeta, hle, hlast⟩ := metaStart_spec hdvd (by omega : start < endAddr) hend (by omega)
      (hn.trans (by rw [Nat.mod_eq_of_lt hlt8]))
    have hfit : n ≤ endAddr := by
      have hdiv : (endAddr - start) / (8 * 2 ^ k) ≤ (endAddr - start) / 2 :=
        Nat.div_le_div_left (by omega) (by decide)
      rw [hn, Nat.mod_eq_of_lt hlt8]
      omega
    generalize alignDown (endAddr - n) (2 ^ k) = metaStart at he hdvdMeta hle hlast
    have hpos : start < metaStart → 0 < start := by
      intro hlt'
      by_contra h0
      obtain rfl : start = 0 := by omega
      rw [initOrders, dif_pos hlt'] at he
      simp [nodeNew] at he
    have hgeom : ∀ B F, Geometry
        ⟨start, metaStart, B, ⟨mem, fun _ => LinkedList.new⟩, sizes, 0, 2 ^ k, k, F⟩ := fun B F =>
      ⟨hpos, hk12, rfl, hdvd, hdvdMeta, hle, by show metaStart < usizeMod; omega, by
        show 0 < MAX_ORDER; decide⟩
    obtain ⟨L, N, M, seqs, rfl, h, hg, hr⟩ :=
      initOrders_spec (core_empty (hgeom _ _) fun _ => rfl) (by simp [Greedy]) (by simp [Reached])
        le_rfl hdvd he
    refine ⟨⟨hm.symm, hlt8, hs, by simp only; omega, ?_, fun i => by rw [metaSize, ← hn]⟩, seqs, h, hg, hr⟩
    rw [metaSize, ← hn]
    simp only
    omega

/-- **`BuddyAllocator::new`**: the blocks tile the managed memory, and no page is marked. -/
theorem new_spec (hend : endAddr < usizeMod)
    (he : new A mem sizes bytes startAddr endAddr minOrderSize = some b) :
    ∃ seqs, Inv b seqs [] ∧ Greedy b seqs ∧ Reached b seqs := by
  obtain ⟨hlaid, seqs, h, hg, hr⟩ := new_laidOut hend he
  refine ⟨seqs, ⟨h, by simp, fun addr h1 h2 h3 => ?_⟩, hg, hr⟩
  -- the page has a bit in the cleared bytes
  rw [isAlloced_eq h1 h2, hlaid.bitmap, if_pos (hlaid.byte_lt h2)]
  simp

end New

/-! ### Runs -/

/-- The calls; only live allocations are freed. -/
inductive BuddyOp
  | alloc (size : ℕ)
  | oalloc (order : ℕ)
  | dealloc (a : Allocation)

/-- A call, with the list of live allocations that the callers hold. -/
def step (s : BuddyAllocator × List Allocation) :
    BuddyOp → Option (BuddyAllocator × List Allocation)
  | .alloc size => (s.1.alloc size).map fun r => (r.1, r.2.toList ++ s.2)
  | .oalloc order => (s.1.oalloc order).map fun r => (r.1, r.2.toList ++ s.2)
  | .dealloc a => (s.1.dealloc a).map fun b => (b, s.2.erase a)

/-- `dealloc` is called on live allocations only. -/
def Legal (s : BuddyAllocator × List Allocation) : BuddyOp → Prop
  | .dealloc a => a ∈ s.2
  | _ => True

instance (s : BuddyAllocator × List Allocation) : (op : BuddyOp) → Decidable (Legal s op)
  | .dealloc a => inferInstanceAs (Decidable (a ∈ s.2))
  | .alloc _ => isTrue trivial
  | .oalloc _ => isTrue trivial

theorem Inv.perm (h : Inv b seqs live) (hp : live.Perm live') : Inv b seqs live' := by
  refine ⟨h.core.congr_held fun x => cover_perm hp, fun a ha => h.live_order a (hp.mem_iff.2 ha),
    fun addr h1 h2 h3 => (h.bitmap addr h1 h2 h3).trans ?_⟩
  simp only [hp.mem_iff]

/-- **One call** goes through and keeps the invariant. -/
theorem step_spec (h : Inv b seqs live) (op : BuddyOp) (hlegal : Legal (b, live) op) :
    ∃ b' seqs' live', step (b, live) op = some (b', live') ∧ Inv b' seqs' live' ∧ Same b b' := by
  cases op with
  | alloc size =>
    obtain ⟨b', seqs', out, he, h', hsame, -⟩ := alloc_spec h size
    exact ⟨b', seqs', _, by simp only [step, he]; rfl, h', hsame⟩
  | oalloc order =>
    obtain ⟨b', seqs', out, he, h', hsame, -⟩ := oalloc_spec h order
    exact ⟨b', seqs', _, by simp only [step, he]; rfl, h', hsame⟩
  | dealloc a =>
    obtain ⟨b', k, he, -, -, -, h', hsame, -⟩ := dealloc_spec (h.perm (List.perm_cons_erase hlegal))
    exact ⟨b', _, _, by simp only [step, he]; rfl, h', hsame⟩

/-- **A run** goes through and keeps the invariant. -/
theorem run_spec (h : Inv b seqs live) (ops : List BuddyOp)
    (hlegal : Along step Legal (b, live) ops) :
    ∃ b' seqs' live', run step (b, live) ops = some (b', live') ∧ Inv b' seqs' live' ∧
      Same b b' := by
  have hstep : ∀ s op, ((∃ seqs, Inv s.1 seqs s.2) ∧ Same b s.1) → Legal s op →
      ∃ s', step s op = some s' ∧ (∃ seqs, Inv s'.1 seqs s'.2) ∧ Same b s'.1 := by
    rintro ⟨b₁, live₁⟩ op ⟨⟨seqs₁, h₁⟩, hs₁⟩ hop
    obtain ⟨b₂, seqs₂, live₂, he₂, h₂, hs₂⟩ := step_spec h₁ op hop
    exact ⟨_, he₂, ⟨seqs₂, h₂⟩, hs₁.trans hs₂⟩
  obtain ⟨⟨b', live'⟩, he, ⟨seqs', h'⟩, hsame⟩ :=
    run_inv _ hstep ⟨⟨seqs, h⟩, same_update b _ _ _ _⟩ hlegal
  exact ⟨b', seqs', live', he, h', hsame⟩

/-! ### The partition -/

/-- The free blocks, as the nodes on the lists describe them. -/
def freeList (b : BuddyAllocator) (seqs : ℕ → List Ptr) : List Block :=
  (List.range MAX_ORDER).flatMap fun k => (seqs k).map fun p => ⟨p, b.nodeSize p⟩

/-- The free blocks and the live allocations partition the managed memory. -/
structure Partition (b : BuddyAllocator) (seqs : ℕ → List Ptr) (live : List Allocation) : Prop where
  lists : ∀ k < MAX_ORDER, Represents b.lists.mem (b.lists.list k) (seqs k)
  disjoint : (freeList b seqs ++ live).Pairwise Block.Disjoint
  covers : ∀ x, (∃ c ∈ freeList b seqs ++ live, c.Has x) ↔ b.start ≤ x ∧ x < b.metaStart
  free : ∀ k, ∀ p ∈ seqs k, b.nodeSize p = b.minOrderSize * 2 ^ k ∧ b.nodeSize p ∣ p
  once : ((List.range MAX_ORDER).flatMap seqs).Nodup
  block : ∀ a ∈ live, ∃ k, a.size = b.minOrderSize * 2 ^ k ∧ a.size ∣ a.addr
  bitmap : ∀ addr, b.start ≤ addr → addr < b.metaStart → b.minOrderSize ∣ addr →
    (b.isAlloced addr = true ↔ ∃ a ∈ live, a.addr = addr)

theorem Inv.freeList_eq (h : Inv b seqs live) : freeList b seqs = freeBlocks b.minOrderBits seqs := by
  refine List.flatMap_congr fun k _ => List.map_congr_left fun p hp => ?_
  rw [(h.core.free k p hp).1]

theorem Inv.partition (h : Inv b seqs live) : Partition b seqs live := by
  have htiles : Tiles b.start b.metaStart (freeList b seqs ++ live) := h.freeList_eq ▸ h.core.tiles
  refine ⟨fun k _ => (h.core.lists.repr k).represents, packed_iff_pairwise.1 htiles.packed, ?_, ?_,
    ?_, ?_, h.bitmap⟩
  · intro x
    rw [← cover_pos_iff, htiles x]
    split_ifs with hx <;> simp [hx]
  · intro k p hp
    obtain ⟨hs, hd⟩ := h.core.free k p hp
    rw [hs, h.core.geom.size_eq, ← pow_add]
    exact ⟨rfl, hd⟩
  · refine List.nodup_flatMap.2 ⟨fun k _ => (h.core.lists.repr k).nodup, ?_⟩
    refine List.nodup_range.imp fun {i j} hij => ?_
    intro x hi hj
    exact h.core.lists.disj _ _ hij x hi hj
  · intro a ha
    obtain ⟨k, -, hs, hd⟩ := h.live_order a ha
    exact ⟨k, by rw [hs, h.core.geom.size_eq, ← pow_add], hd⟩

/-- **The partition**: for any memory that `new` accepts, every run of `alloc`, `oalloc` and
`dealloc` of live allocations goes through, and leaves the free blocks and the live allocations
partitioning the memory that `new` set up. -/
theorem run_partition {A : AlignVirt} {mem : NodeMem} {sizes : Ptr → ℕ} {bytes : ℕ → BitVec 8}
    {startAddr endAddr minOrderSize : ℕ} (hend : endAddr < usizeMod)
    (hnew : new A mem sizes bytes startAddr endAddr minOrderSize = some b) (ops : List BuddyOp)
    (hlegal : Along step Legal (b, []) ops) :
    ∃ b' seqs live, run step (b, []) ops = some (b', live) ∧ Partition b' seqs live ∧
      b'.start = b.start ∧ b'.metaStart = b.metaStart ∧ b'.minOrderSize = b.minOrderSize := by
  obtain ⟨seqs, h, -, -⟩ := new_spec hend hnew
  obtain ⟨b', seqs', live, he, h', hsame⟩ := run_spec h ops hlegal
  exact ⟨b', seqs', live, he, h'.partition, hsame.start, hsame.metaStart, hsame.minOrderSize⟩

/-- `VirtAddr::align_up` on addresses that do not overflow. -/
def alignVirt : AlignVirt where
  alignUp addr align :=
    let r := (addr + align - 1) / align * align
    if align = 2 ^ Nat.log2 align ∧ addr ≤ r ∧ r < usizeMod then some r else none
  pow_two h := by
    simp only [Option.ite_none_right_eq_some] at h
    exact ⟨_, h.1.1⟩
  dvd h := by
    simp only [Option.ite_none_right_eq_some, Option.some.injEq] at h
    exact h.2 ▸ Nat.dvd_mul_left _ _
  le h := by
    simp only [Option.ite_none_right_eq_some, Option.some.injEq] at h
    exact h.2 ▸ h.1.2.1
  lt h := by
    simp only [Option.ite_none_right_eq_some, Option.some.injEq] at h
    exact h.2 ▸ h.1.2.2

/-- Six pages at `0x3000`: a block of four pages is split, handed out, freed, and two single pages
are handed out. -/
theorem run_partition_sample :
    ∃ b b' seqs, new alignVirt (fun _ => ⟨7, 7⟩) (fun _ => 7) (fun _ => 7) 12000 40000 1 = some b ∧
      run step (b, []) [.alloc 5000, .oalloc 2, .dealloc ⟨16384, 8192⟩, .alloc 4096, .oalloc 0]
        = some (b', [⟨32768, 4096⟩, ⟨12288, 4096⟩]) ∧
      Partition b' seqs [⟨32768, 4096⟩, ⟨12288, 4096⟩] := by
  let ops : List BuddyOp :=
    [.alloc 5000, .oalloc 2, .dealloc ⟨16384, 8192⟩, .alloc 4096, .oalloc 0]
  have hsome : (new alignVirt (fun _ => ⟨7, 7⟩) (fun _ => 7) (fun _ => 7) 12000 40000 1).isSome := by
    decide +kernel
  obtain ⟨b, hb⟩ := Option.isSome_iff_exists.1 hsome
  have hlegal : ∀ b ∈ new alignVirt (fun _ => ⟨7, 7⟩) (fun _ => 7) (fun _ => 7) 12000 40000 1,
      Along step Legal (b, []) ops := by decide +kernel
  have hlive : ∀ b ∈ new alignVirt (fun _ => ⟨7, 7⟩) (fun _ => 7) (fun _ => 7) 12000 40000 1,
      ∀ s ∈ run step (b, []) ops, s.2 = [⟨32768, 4096⟩, ⟨12288, 4096⟩] := by decide +kernel
  obtain ⟨b', seqs, live, hrun, hp, -⟩ :=
    run_partition (by decide : 40000 < usizeMod) hb ops (hlegal b hb)
  obtain rfl : live = _ := hlive b hb _ hrun
  exact ⟨b, b', seqs, hb, hrun, hp⟩

end BuddyAllocator
end AuroraOs
