import AuroraOs.Mem.PhysAlloc

/-!
# What the buddy allocator keeps

`BuddyAllocator.Inv b seqs live`: the lists of `b` hold the sequences `seqs`, one an order, and the
blocks on them together with the live allocations tile the managed memory.  Every block of order
`k` has `2 ^ k` times the size of a page and stands at a multiple of its size; the bitmap marks the
live allocations.
-/

namespace AuroraOs

open Blocks LinkedList

namespace BuddyAllocator

variable {b b' : BuddyAllocator} {addr addr' : ℕ} {v : Bool}

/-! ### The bitmap -/

theorem bit_eq (byte : BitVec 8) {j : ℕ} (hj : j < 8) :
    decide (byte &&& (1#8 <<< j) > 0) = byte.getLsbD j := by
  rw [← BitVec.twoPow_eq, BitVec.and_twoPow]
  cases h : byte.getLsbD j
  · simp
  · simp [BitVec.lt_def, Nat.mod_eq_of_lt (show 2 ^ j < 256 from Nat.pow_lt_pow_right (by decide) hj)]

/-- The bit of a page. -/
theorem isAlloced_eq (h : b.start ≤ addr) (h' : addr < b.metaStart) :
    b.isAlloced addr = (b.bitmap ((addr - b.start) / b.minOrderSize / 8)).getLsbD
      ((addr - b.start) / b.minOrderSize % 8) := by
  rw [isAlloced, if_neg (by omega)]
  exact bit_eq _ (Nat.mod_lt _ (by decide))

theorem isAlloced_setIsAlloced (h : b.start ≤ addr) (h' : addr < b.metaStart)
    (k : b.start ≤ addr') (k' : addr' < b.metaStart)
    (hne : (addr' - b.start) / b.minOrderSize = (addr - b.start) / b.minOrderSize → addr' = addr) :
    (b.setIsAlloced addr v).isAlloced addr' = if addr' = addr then v else b.isAlloced addr' := by
  rw [isAlloced_eq k k', setIsAlloced, if_neg (by omega)]
  rw [isAlloced_eq (by exact k) (by exact k')]
  simp only [Function.update_apply]
  set i := (addr - b.start) / b.minOrderSize
  set j := (addr' - b.start) / b.minOrderSize
  by_cases hij : j = i
  · rw [if_pos (by rw [hij]), if_pos (hne hij), hij]
    cases v <;> simp [Nat.mod_lt]
  · have hadd : addr' ≠ addr := fun h => hij (by simp only [i, j, h])
    rw [if_neg hadd]
    by_cases h8 : j / 8 = i / 8
    · have hmod : j % 8 ≠ i % 8 := by omega
      have hj : j % 8 < 8 := Nat.mod_lt _ (by decide)
      rw [if_pos h8, h8]
      cases v <;> simp [hj] <;> omega
    · rw [if_neg h8]

/-! ### The lists -/

/-- The blocks on the lists. -/
def freeBlocks (bits : ℕ) (seqs : ℕ → List Ptr) : List Block :=
  (List.range MAX_ORDER).flatMap fun k => (seqs k).map fun p => ⟨p, 2 ^ (bits + k)⟩

/-- What `new` fixes once and for all. -/
structure Geometry (b : BuddyAllocator) : Prop where
  start_pos : b.start < b.metaStart → 0 < b.start
  le_bits : 12 ≤ b.minOrderBits
  size_eq : b.minOrderSize = 2 ^ b.minOrderBits
  dvd_start : b.minOrderSize ∣ b.start
  dvd_meta : b.minOrderSize ∣ b.metaStart
  start_le : b.start ≤ b.metaStart
  meta_lt : b.metaStart < usizeMod
  maxOrder_lt : b.maxOrder < MAX_ORDER

theorem Geometry.update (h : Geometry b) (B : ℕ → BitVec 8) (L : LinkedList.Lists ℕ)
    (N : Ptr → ℕ) (F : ℕ) :
    Geometry { b with bitmap := B, lists := L, nodeSize := N, freeSpace := F } :=
  ⟨h.1, h.2, h.3, h.4, h.5, h.6, h.7, h.8⟩

/-- The lists hold `seqs`, and their blocks together with the `held` ones tile the memory from
`start` to `hi`. -/
structure Core (b : BuddyAllocator) (hi : ℕ) (seqs : ℕ → List Ptr) (held : List Block) : Prop where
  geom : Geometry b
  hi_le : hi ≤ b.metaStart
  lists : LinkedList.Inv b.lists seqs
  high : ∀ k, b.maxOrder < k → seqs k = []
  free : ∀ k, ∀ p ∈ seqs k, b.nodeSize p = 2 ^ (b.minOrderBits + k) ∧
    2 ^ (b.minOrderBits + k) ∣ p
  tiles : Tiles b.start hi (freeBlocks b.minOrderBits seqs ++ held)

variable {hi k p s : ℕ} {seqs seqs' : ℕ → List Ptr} {held held' : List Block} {ps : List Ptr}

theorem mem_freeBlocks {bits : ℕ} {c : Block} : c ∈ freeBlocks bits seqs ↔
    ∃ k < MAX_ORDER, c.addr ∈ seqs k ∧ c.size = 2 ^ (bits + k) := by
  simp only [freeBlocks, List.mem_flatMap, List.mem_range, List.mem_map]
  constructor
  · rintro ⟨k, hk, p, hp, rfl⟩
    exact ⟨k, hk, hp, rfl⟩
  · rintro ⟨k, hk, hp, hs⟩
    exact ⟨k, hk, c.addr, hp, by rw [← hs]⟩

/-- Taking a node off a list, or putting it on one. -/
theorem freeBlocks_perm {bits : ℕ} (hk : k < MAX_ORDER) (hs : (seqs' k).Perm (p :: seqs k))
    (hne : ∀ j, j ≠ k → seqs' j = seqs j) :
    (freeBlocks bits seqs').Perm (⟨p, 2 ^ (bits + k)⟩ :: freeBlocks bits seqs) := by
  refine flatMap_perm_cons (i := k) List.nodup_range (List.mem_range.2 hk) (hs.map _) ?_
  intro j _ hj
  rw [hne j hj]

theorem Core.order_lt (h : Core b hi seqs held) (hp : p ∈ seqs k) : k ≤ b.maxOrder := by
  by_contra hk
  rw [h.high k (by omega)] at hp
  simp at hp

/-- A held block is not on a list. -/
theorem Core.fresh (h : Core b hi seqs (⟨p, s⟩ :: held)) (hs : 0 < s) : Fresh seqs p := by
  have hin := h.tiles.subset (b := ⟨p, s⟩) (by simp) hs
  have hhi := h.hi_le
  refine ⟨fun hn => ?_, fun k hk => ?_⟩
  · subst hn
    simp only at hin
    have hpos := h.geom.start_pos (by omega)
    exact absurd (hpos.trans_le hin.1) (lt_irrefl _)
  · have hpacked : Packed (⟨p, s⟩ :: (freeBlocks b.minOrderBits seqs ++ held)) :=
      h.tiles.packed.perm List.perm_middle
    have hlt := (h.order_lt hk).trans_lt h.geom.maxOrder_lt
    have hmem : (⟨p, 2 ^ (b.minOrderBits + k)⟩ : Block) ∈ freeBlocks b.minOrderBits seqs :=
      mem_freeBlocks.2 ⟨k, hlt, hk, rfl⟩
    exact hpacked.addr_ne hs (List.mem_append_left held hmem) (by positivity) rfl

theorem Core.congr_held (h : Core b hi seqs held) (hc : ∀ x, cover held x = cover held' x) :
    Core b hi seqs held' :=
  ⟨h.geom, h.hi_le, h.lists, h.high, h.free, fun x => by
    rw [cover_append, ← hc, ← cover_append, h.tiles x]⟩

/-- The nodes whose bytes meet the blocks are as they were. -/
def Untouched (b b' : BuddyAllocator) (held : List Block) : Prop :=
  ∀ c ∈ held, ∀ x, c.Has x → ∀ p, p ≤ x → x < p + NODE_SIZE →
    b'.lists.mem p = b.lists.mem p ∧ b'.nodeSize p = b.nodeSize p

theorem Untouched.refl (b : BuddyAllocator) (held : List Block) : Untouched b b held :=
  fun _ _ _ _ _ _ _ => ⟨rfl, rfl⟩

theorem Untouched.trans {b'' : BuddyAllocator} (h : Untouched b b' held)
    (h' : Untouched b' b'' held) : Untouched b b'' held := by
  intro c hc x hx p hp hpx
  obtain ⟨h1, h2⟩ := h c hc x hx p hp hpx
  obtain ⟨h3, h4⟩ := h' c hc x hx p hp hpx
  exact ⟨h3.trans h1, h4.trans h2⟩

theorem Untouched.mono (h : Untouched b b' held) (hsub : held' ⊆ held) : Untouched b b' held' :=
  fun c hc => h c (hsub hc)

/-- Writing to the nodes on the lists and to those of blocks in hand leaves the other held blocks
alone. -/
theorem Core.untouched (inHand : List Block) (h : Core b hi seqs (inHand ++ held))
    (hw : ∀ p, (∀ k, p ∉ seqs k) → (∀ d ∈ inHand, d.addr = p → d.size < NODE_SIZE) →
      b'.lists.mem p = b.lists.mem p ∧ b'.nodeSize p = b.nodeSize p) :
    Untouched b b' held := by
  have hpacked := h.tiles.packed
  rw [← List.append_assoc] at hpacked
  -- the node would lie in a block that is not held
  have hapart : ∀ c ∈ held, ∀ x, c.Has x → ∀ d ∈ freeBlocks b.minOrderBits seqs ++ inHand,
      ¬ d.Has x := by
    intro c hc x hx d hd hdx
    have h1 := hpacked x
    have h2 : 0 < cover held x := cover_pos_iff.2 ⟨c, hc, hx⟩
    have h3 : 0 < cover (freeBlocks b.minOrderBits seqs ++ inHand) x := cover_pos_iff.2 ⟨d, hd, hdx⟩
    rw [cover_append] at h1
    omega
  intro c hc x hx p hp hpx
  refine hw p (fun k hk => ?_) (fun d hd hdp => ?_)
  · have hklt : k < MAX_ORDER := by
      by_contra hge
      rw [h.high k (by have := h.geom.maxOrder_lt; omega)] at hk
      simp at hk
    have hsize : 2 ^ 12 ≤ 2 ^ (b.minOrderBits + k) :=
      Nat.pow_le_pow_right (by decide) (by have := h.geom.le_bits; omega)
    refine hapart c hc x hx ⟨p, 2 ^ (b.minOrderBits + k)⟩
      (List.mem_append_left _ (mem_freeBlocks.2 ⟨k, hklt, hk, rfl⟩)) ⟨hp, ?_⟩
    simp only [NODE_SIZE] at hpx ⊢
    omega
  · by_contra hge
    refine hapart c hc x hx d (List.mem_append_right _ hd) ⟨by omega, by omega⟩

/-- What an operation on a list leaves alone. -/
theorem Core.untouched_step (inHand : List Block) (op : ListOp ℕ) {L : LinkedList.Lists ℕ}
    {r : Option Ptr} (h : Core b hi seqs (inHand ++ held)) (hlegal : LinkedList.Legal seqs op)
    (he : LinkedList.step b.lists op = some (L, r))
    (hin : ∀ p, (∀ k, p ∉ seqs k) → (∀ d ∈ inHand, d.addr = p → d.size < NODE_SIZE) →
      ∀ k, p ∉ (LinkedList.specStep seqs op).1 k) :
    Untouched b { b with lists := L } held :=
  h.untouched inHand fun _ hp hd => ⟨step_frame h.lists hlegal he hp (hin _ hp hd), rfl⟩

/-- A block of some order has room for a node. -/
theorem Geometry.node_le (h : Geometry b) (k : ℕ) : NODE_SIZE ≤ 2 ^ (b.minOrderBits + k) := by
  have hsize : 2 ^ 12 ≤ 2 ^ (b.minOrderBits + k) :=
    Nat.pow_le_pow_right (by decide) (by have := h.le_bits; omega)
  simp only [NODE_SIZE]
  omega

/-- A node leaves its list, and its block is held. -/
theorem Core.take {L : LinkedList.Lists ℕ} (h : Core b hi seqs held) (hs : (seqs k).Perm (p :: ps))
    (hL : LinkedList.Inv L (Function.update seqs k ps)) :
    Core { b with lists := L } hi (Function.update seqs k ps)
      (⟨p, 2 ^ (b.minOrderBits + k)⟩ :: held) := by
  have hp : p ∈ seqs k := hs.mem_iff.2 List.mem_cons_self
  have hk := (h.order_lt hp).trans_lt h.geom.maxOrder_lt
  refine ⟨h.geom.update _ _ _ _, h.hi_le, hL, ?_, ?_, ?_⟩
  · intro j hj
    have hjk : j ≠ k := fun hjk => by
      have := h.order_lt hp
      simp only at hj
      omega
    rw [Function.update_of_ne hjk]
    exact h.high j hj
  · intro j q hq
    rcases eq_or_ne j k with rfl | hjk
    · rw [Function.update_self] at hq
      exact h.free j q (hs.mem_iff.2 (List.mem_cons_of_mem p hq))
    · rw [Function.update_of_ne hjk] at hq
      exact h.free j q hq
  · have hperm : (freeBlocks b.minOrderBits seqs).Perm
        (⟨p, 2 ^ (b.minOrderBits + k)⟩ :: freeBlocks b.minOrderBits (Function.update seqs k ps)) :=
      freeBlocks_perm hk (by simpa using hs) fun j hj => (Function.update_of_ne hj _ _).symm
    exact h.tiles.perm ((hperm.append_right held).trans List.perm_middle.symm)

/-- A held block goes on the list of its order, which may be a new one. -/
theorem Core.put {L : LinkedList.Lists ℕ}
    (h : Core b hi seqs (⟨p, 2 ^ (b.minOrderBits + k)⟩ :: held)) (hk : k < MAX_ORDER)
    (hsize : b.nodeSize p = 2 ^ (b.minOrderBits + k)) (hdvd : 2 ^ (b.minOrderBits + k) ∣ p)
    (hs : ps.Perm (p :: seqs k)) (hL : LinkedList.Inv L (Function.update seqs k ps)) :
    Core { b with lists := L, maxOrder := max b.maxOrder k } hi (Function.update seqs k ps) held := by
  have hg := h.geom
  refine ⟨⟨hg.1, hg.2, hg.3, hg.4, hg.5, hg.6, hg.7, max_lt hg.8 hk⟩, h.hi_le, hL, ?_, ?_, ?_⟩
  · intro j hj
    simp only [max_lt_iff] at hj
    rw [Function.update_of_ne (by omega)]
    exact h.high j hj.1
  · intro j q hq
    rcases eq_or_ne j k with rfl | hjk
    · rw [Function.update_self] at hq
      rcases List.mem_cons.1 (hs.mem_iff.1 hq) with rfl | hq
      · exact ⟨hsize, hdvd⟩
      · exact h.free j q hq
    · rw [Function.update_of_ne hjk] at hq
      exact h.free j q hq
  · refine h.tiles.perm (List.perm_middle.trans ?_)
    refine ((freeBlocks_perm hk (by simpa using hs) fun j hj => ?_).append_right held).symm
    rw [Function.update_of_ne hj]

/-- Taking the first node off a list. -/
theorem popFront_spec (h : Core b hi seqs held) (hs : seqs k = p :: ps) :
    ∃ L, b.popFront k = some ({ b with lists := L }, p) ∧
      Core { b with lists := L } hi (Function.update seqs k ps)
        (⟨p, 2 ^ (b.minOrderBits + k)⟩ :: held) ∧
      Untouched b { b with lists := L } held := by
  have hp : p ∈ seqs k := by simp [hs]
  have hk := (h.order_lt hp).trans_lt h.geom.maxOrder_lt
  obtain ⟨L, he, hL⟩ := step_refines h.lists (.popFront k) trivial
  have huntouched : Untouched b { b with lists := L } held := by
    refine h.untouched_step [] (.popFront k) trivial he fun q hq _ j => ?_
    rcases eq_or_ne j k with rfl | hj
    · simpa [specStep] using fun hm => hq j (List.mem_of_mem_tail hm)
    · simpa [specStep, Function.update_of_ne hj] using hq j
  simp only [specStep, hs, List.tail_cons, List.head?_cons] at he hL
  exact ⟨L, by simp [popFront, onOrder, hk, he], h.take (by rw [hs]) hL, huntouched⟩

/-- Taking any node off its list. -/
theorem removeNode_spec (h : Core b hi seqs held) (hp : p ∈ seqs k) :
    ∃ L, b.removeNode k p = some { b with lists := L } ∧
      Core { b with lists := L } hi (Function.update seqs k ((seqs k).erase p))
        (⟨p, 2 ^ (b.minOrderBits + k)⟩ :: held) ∧
      Untouched b { b with lists := L } held := by
  have hk := (h.order_lt hp).trans_lt h.geom.maxOrder_lt
  obtain ⟨L, he, hL⟩ := step_refines h.lists (.removeNode k p) hp
  have huntouched : Untouched b { b with lists := L } held := by
    refine h.untouched_step [] (.removeNode k p) hp he fun q hq _ j => ?_
    rcases eq_or_ne j k with rfl | hj
    · simpa [specStep] using fun hm => hq j (List.mem_of_mem_erase hm)
    · simpa [specStep, Function.update_of_ne hj] using hq j
  simp only [specStep] at he hL
  exact ⟨L, by simp [removeNode, onOrder, hk, he], h.take (List.perm_cons_erase hp) hL, huntouched⟩

/-- Putting a held block on the list of its order. -/
theorem pushFront_spec (h : Core b hi seqs (⟨p, 2 ^ (b.minOrderBits + k)⟩ :: held))
    (hk : k ≤ b.maxOrder) (hsize : b.nodeSize p = 2 ^ (b.minOrderBits + k))
    (hdvd : 2 ^ (b.minOrderBits + k) ∣ p) :
    ∃ L, b.pushFront k p = some { b with lists := L } ∧
      Core { b with lists := L } hi (Function.update seqs k (p :: seqs k)) held ∧
      Untouched b { b with lists := L } held := by
  have hk' := hk.trans_lt h.geom.maxOrder_lt
  obtain ⟨L, he, hL⟩ := step_refines h.lists (.pushFront k p) (h.fresh (by positivity))
  have huntouched : Untouched b { b with lists := L } held := by
    refine h.untouched_step [⟨p, 2 ^ (b.minOrderBits + k)⟩] (.pushFront k p)
      (h.fresh (by positivity)) he fun q hq hd j => ?_
    have hqp : q ≠ p := fun hqp =>
      absurd (h.geom.node_le k) (not_le.2 (hd _ List.mem_cons_self hqp.symm))
    rcases eq_or_ne j k with rfl | hj
    · simpa [specStep] using ⟨hqp, hq j⟩
    · simpa [specStep, Function.update_of_ne hj] using hq j
  simp only [specStep] at he hL
  have hput := h.put hk' hsize hdvd (List.Perm.refl _) hL
  rw [max_eq_left hk] at hput
  exact ⟨L, by simp [pushFront, onOrder, hk', he], hput, huntouched⟩

/-- Putting a held block at the end of the list of its order; the order may be a new one. -/
theorem push_spec (h : Core b hi seqs (⟨p, 2 ^ (b.minOrderBits + k)⟩ :: held)) (hk : k < MAX_ORDER)
    (hsize : b.nodeSize p = 2 ^ (b.minOrderBits + k)) (hdvd : 2 ^ (b.minOrderBits + k) ∣ p) :
    ∃ L, b.push k p = some { b with lists := L } ∧
      Core { b with lists := L, maxOrder := max b.maxOrder k } hi
        (Function.update seqs k (seqs k ++ [p])) held ∧
      Untouched b { b with lists := L } held := by
  obtain ⟨L, he, hL⟩ := step_refines h.lists (.push k p) (h.fresh (by positivity))
  have huntouched : Untouched b { b with lists := L } held := by
    refine h.untouched_step [⟨p, 2 ^ (b.minOrderBits + k)⟩] (.push k p) (h.fresh (by positivity)) he
      fun q hq hd j => ?_
    have hqp : q ≠ p := fun hqp =>
      absurd (h.geom.node_le k) (not_le.2 (hd _ List.mem_cons_self hqp.symm))
    rcases eq_or_ne j k with rfl | hj
    · simpa [specStep] using ⟨hq j, hqp⟩
    · simpa [specStep, Function.update_of_ne hj] using hq j
  simp only [specStep] at he hL
  exact ⟨L, by simp [push, onOrder, hk, he],
    h.put hk hsize hdvd (List.perm_append_singleton p _) hL, huntouched⟩

/-- Putting a held block at the end of the list of its order, when there are blocks as large. -/
theorem push_le_spec (h : Core b hi seqs (⟨p, 2 ^ (b.minOrderBits + k)⟩ :: held))
    (hk : k ≤ b.maxOrder) (hsize : b.nodeSize p = 2 ^ (b.minOrderBits + k))
    (hdvd : 2 ^ (b.minOrderBits + k) ∣ p) :
    ∃ L, b.push k p = some { b with lists := L } ∧
      Core { b with lists := L } hi (Function.update seqs k (seqs k ++ [p])) held ∧
      Untouched b { b with lists := L } held := by
  obtain ⟨L, he, h', hu⟩ := push_spec h (hk.trans_lt h.geom.maxOrder_lt) hsize hdvd
  rw [max_eq_left hk] at h'
  exact ⟨L, he, h', hu⟩

/-- The lists do not depend on the links of a node outside of them. -/
theorem inv_write {s : LinkedList.Lists ℕ} {links : DoublyLinked.Links Ptr}
    (h : LinkedList.Inv s seqs) (hp : ∀ k, p ∉ seqs k) :
    LinkedList.Inv { s with mem := Function.update s.mem p links } seqs := by
  refine ⟨fun i => (h.repr i).congr fun x hx => ?_, h.disj⟩
  exact Function.update_of_ne (by rintro rfl; exact hp i hx) _ _

/-- Writing the size of a held block. -/
theorem setSize_spec (h : Core b hi seqs (⟨p, s⟩ :: held)) (hs : 0 < s) (n : ℕ) :
    Core (b.setSize p n) hi seqs (⟨p, s⟩ :: held) ∧
      (NODE_SIZE ≤ s → Untouched b (b.setSize p n) held) := by
  have hf := (h.fresh hs).2
  refine ⟨⟨h.geom.update _ _ _ _, h.hi_le, h.lists, h.high, fun k q hq => ?_, h.tiles⟩,
    fun hn => h.untouched [⟨p, s⟩] fun q _ hd => ?_⟩
  · have hqp : q ≠ p := by rintro rfl; exact hf k hq
    simpa [setSize, Function.update_of_ne hqp] using h.free k q hq
  · have hqp : q ≠ p := fun hqp => absurd hn (not_le.2 (hd _ List.mem_cons_self hqp.symm))
    exact ⟨rfl, Function.update_of_ne hqp _ _⟩

/-- Writing a node at the start of a held block. -/
theorem nodeNew_spec (h : Core b hi seqs (⟨p, s⟩ :: held)) (hs : 0 < s) (n : ℕ) :
    ∃ L, b.nodeNew p n
        = some ({ b with lists := L, nodeSize := Function.update b.nodeSize p n }, p) ∧
      Core { b with lists := L, nodeSize := Function.update b.nodeSize p n } hi seqs
        (⟨p, s⟩ :: held) ∧
      (NODE_SIZE ≤ s → Untouched b
        { b with lists := L, nodeSize := Function.update b.nodeSize p n } held) := by
  have hf := h.fresh hs
  have h' := (setSize_spec h hs n).1
  refine ⟨_, by simp only [nodeNew, if_neg hf.1]; rfl, ⟨h.geom.update _ _ _ _, h.hi_le,
    inv_write h.lists hf.2, h.high, h'.free, h.tiles⟩, fun hn => ?_⟩
  refine h.untouched [⟨p, s⟩] fun q _ hd => ?_
  have hqp : q ≠ p := fun hqp => absurd hn (not_le.2 (hd _ List.mem_cons_self hqp.symm))
  exact ⟨Function.update_of_ne hqp _ _, Function.update_of_ne hqp _ _⟩

/-! ### Splitting -/

theorem xor_two_pow {n : ℕ} (h : 2 ^ (n + 1) ∣ p) : p ^^^ 2 ^ n = p + 2 ^ n := by
  obtain ⟨q, rfl⟩ := h
  have hlt : 2 ^ n < 2 ^ (n + 1) := Nat.pow_lt_pow_right (by decide) (by omega)
  apply Nat.eq_of_testBit_eq
  intro i
  rw [Nat.testBit_xor, Nat.testBit_two_pow_mul_add _ hlt, Nat.testBit_two_pow_mul,
    Nat.testBit_two_pow]
  by_cases hi : i < n + 1
  · have : ¬ n < i := by omega
    simp [hi, this]
  · have : n ≠ i := by omega
    simp [hi, this]
    omega

/-- A block is not its own buddy. -/
theorem xor_ne (p : ℕ) (hs : 0 < s) : p ^^^ s ≠ p := by
  intro hx
  have := congrArg (p ^^^ ·) hx
  simp only [← Nat.xor_assoc, Nat.xor_self, Nat.zero_xor] at this
  omega

/-- Cutting the first block of an order in two. -/
theorem splitFront_spec (h : Core b hi seqs held) (hs : seqs (k + 1) = p :: ps) :
    ∃ L N, b.splitFront (k + 1) = some { b with lists := L, nodeSize := N } ∧
      Core { b with lists := L, nodeSize := N } hi
        (Function.update (Function.update seqs (k + 1) ps) k
          (p :: (p + 2 ^ (b.minOrderBits + k)) :: seqs k)) held ∧
      Untouched b { b with lists := L, nodeSize := N } held := by
  obtain ⟨hsize, hdvd⟩ := h.free (k + 1) p (by simp [hs])
  have hk : k + 1 ≤ b.maxOrder := h.order_lt (p := p) (by simp [hs])
  rw [← add_assoc] at hsize hdvd
  have hhalf : b.nodeSize p >>> 1 = 2 ^ (b.minOrderBits + k) := by
    rw [hsize, Nat.shiftRight_eq_div_pow, pow_succ]
    simp
  have hpos : 0 < 2 ^ (b.minOrderBits + k) := by positivity
  have hdvd' : 2 ^ (b.minOrderBits + k) ∣ p := (pow_dvd_pow 2 (by omega)).trans hdvd
  obtain ⟨L₁, he₁, h₁, hu₁⟩ := popFront_spec h hs
  obtain ⟨h₂, hu₂⟩ := setSize_spec h₁ (by positivity) (2 ^ (b.minOrderBits + k))
  -- the two halves in hand, the upper one on top
  have h₃ : Core ({ b with lists := L₁ }.setSize p (2 ^ (b.minOrderBits + k))) hi
      (Function.update seqs (k + 1) ps) (⟨p + 2 ^ (b.minOrderBits + k), 2 ^ (b.minOrderBits + k)⟩ ::
        ⟨p, 2 ^ (b.minOrderBits + k)⟩ :: held) := by
    refine h₂.congr_held fun x => ?_
    rw [cover_perm (List.Perm.swap _ _ _), ← cover_cut, ← two_mul, ← pow_succ', add_assoc]
  obtain ⟨L₄, he₄, h₄, hu₄⟩ := nodeNew_spec h₃ hpos (2 ^ (b.minOrderBits + k))
  obtain ⟨L₅, he₅, h₅, hu₅⟩ := pushFront_spec (k := k) h₄ (by show k ≤ b.maxOrder; omega)
    (Function.update_self _ _ _) ((Nat.dvd_add_right hdvd').2 dvd_rfl)
  have hne : p ≠ p + 2 ^ (b.minOrderBits + k) := by omega
  obtain ⟨L₆, he₆, h₆, hu₆⟩ := pushFront_spec (k := k) h₅ (by show k ≤ b.maxOrder; omega)
    ((Function.update_of_ne hne _ _).trans (Function.update_self _ _ _)) hdvd'
  have hroom := h.geom.node_le k
  have hroom' := h.geom.node_le (k + 1)
  rw [Function.update_idem, Function.update_self, Function.update_of_ne (by omega)] at h₆
  refine ⟨L₆, _, ?_, h₆, ?_⟩
  · have hsize₁ : ({ b with lists := L₁ } : BuddyAllocator).nodeSize p >>> 1
        = 2 ^ (b.minOrderBits + k) := hhalf
    have hxor := xor_two_pow hdvd
    simp only [splitFront, he₁, Option.bind_eq_bind, Option.bind_some, hsize₁]
    have hself : ({ b with lists := L₁ }.setSize p (2 ^ (b.minOrderBits + k))).nodeSize p
        = 2 ^ (b.minOrderBits + k) := Function.update_self _ _ _
    rw [hself, hxor]
    simp only [he₄, Option.bind_some, Nat.add_sub_cancel]
    simp only [he₅, Option.bind_some]
    exact he₆
  · exact hu₁.trans ((hu₂ hroom').trans (((hu₄ hroom).trans
      hu₅).mono (List.subset_cons_self _ _) |>.trans hu₆))

theorem orderLen_eq (h : Core b hi seqs held) (hk : k ≤ b.maxOrder) :
    b.orderLen k = some (seqs k).length := by
  rw [orderLen, if_pos (hk.trans_lt h.geom.maxOrder_lt), (h.lists.repr k).len_eq]

/-- No two free blocks of one order below `M` are the halves of a larger block. -/
def Apart (bits M : ℕ) (seqs : ℕ → List Ptr) : Prop :=
  ∀ k < M, ∀ p ∈ seqs k, 2 ^ (bits + k + 1) ∣ p → p + 2 ^ (bits + k) ∉ seqs k

theorem Apart.mono {bits M : ℕ} (h : Apart bits M seqs) (hsub : ∀ k, seqs' k ⊆ seqs k) :
    Apart bits M seqs' :=
  fun k hk p hp hd hq => h k hk p (hsub k hp) hd (hsub k hq)

theorem Apart.update {bits M : ℕ} (h : Apart bits M seqs) (hsub : ps ⊆ seqs k) :
    Apart bits M (Function.update seqs k ps) := by
  refine h.mono fun j => ?_
  rcases eq_or_ne j k with rfl | hj
  · rwa [Function.update_self]
  · rw [Function.update_of_ne hj]
    exact List.Subset.refl _

/-- A block that leaves its list and comes back as its upper half. -/
theorem Core.apart_split {M : ℕ} (h : Core b hi seqs held) (hs : seqs (k + 1) = p :: ps)
    (ha : Apart b.minOrderBits M (Function.update seqs (k + 1) ps)) :
    Apart b.minOrderBits M (Function.update (Function.update seqs (k + 1) ps) k
      ((p + 2 ^ (b.minOrderBits + k)) :: seqs k)) := by
  have hp : p ∈ seqs (k + 1) := by simp [hs]
  have hnot : p ∉ seqs k := fun hmem => h.lists.disj k (k + 1) (by omega) p hmem hp
  have hdvd : 2 ^ (b.minOrderBits + k + 1) ∣ p := (h.free _ p hp).2
  have hpos : 0 < 2 ^ (b.minOrderBits + k) := by positivity
  have hk : (Function.update seqs (k + 1) ps) k = seqs k := Function.update_of_ne (by omega) _ _
  intro j hj q hq hd hq'
  rcases eq_or_ne j k with rfl | hjk
  · rw [Function.update_self] at hq hq'
    rcases List.mem_cons.1 hq with rfl | hq
    · have := Nat.le_of_dvd hpos ((Nat.dvd_add_right hdvd).1 hd)
      rw [pow_succ] at this
      omega
    · rcases List.mem_cons.1 hq' with he | hq'
      · exact hnot (Nat.add_right_cancel he ▸ hq)
      · exact ha j hj q (hk ▸ hq) hd (hk ▸ hq')
  · rw [Function.update_of_ne hjk] at hq hq'
    exact ha j hj q hq hd hq'

/-- **`split_order`** keeps the tiling.  When it fails it changes nothing; when it succeeds there is a
block of the order below, and the first of them leaves no two halves behind. -/
theorem splitOrder_spec (h : Core b hi seqs held) (order : ℕ) :
    ∃ L N r seqs', b.splitOrder order = some ({ b with lists := L, nodeSize := N }, r) ∧
      Core { b with lists := L, nodeSize := N } hi seqs' held ∧
      Untouched b { b with lists := L, nodeSize := N } held ∧
      (r = false → L = b.lists ∧ N = b.nodeSize ∧ seqs' = seqs) ∧
      (r = true → ∃ p ps, seqs' (order - 1) = p :: ps ∧ (Apart b.minOrderBits b.maxOrder seqs →
        Apart b.minOrderBits b.maxOrder (Function.update seqs' (order - 1) ps))) := by
  -- induction on the number of orders above
  induction hn : b.maxOrder + 1 - order generalizing order with
  | zero =>
    refine ⟨b.lists, b.nodeSize, false, seqs, ?_, h, .refl b held, fun _ => ⟨rfl, rfl, rfl⟩, by simp⟩
    rw [splitOrder, dif_pos (by omega)]
  | succ n ih =>
    rcases Nat.eq_zero_or_pos order with rfl | hpos
    · refine ⟨b.lists, b.nodeSize, false, seqs, ?_, h, .refl b held, fun _ => ⟨rfl, rfl, rfl⟩,
        by simp⟩
      rw [splitOrder, dif_pos (by omega)]
    obtain ⟨k, rfl⟩ : ∃ k, order = k + 1 := ⟨order - 1, by omega⟩
    rw [splitOrder, dif_neg (by omega), orderLen_eq h (by omega)]
    simp only [Option.bind_eq_bind, Option.bind_some, Nat.add_sub_cancel]
    cases hs : seqs (k + 1) with
    | cons p ps =>
      obtain ⟨L, N, he, h', hu⟩ := splitFront_spec h hs
      refine ⟨L, N, true, _, by simp [he], h', hu, by simp, fun _ =>
        ⟨p, _, Function.update_self _ _ _, fun ha => ?_⟩⟩
      rw [Function.update_idem]
      exact h.apart_split hs (ha.update (by simp [hs]))
    | nil =>
      obtain ⟨L, N, r, seqs', he, h', hu, hf, hr⟩ := ih (k + 1 + 1) (by omega)
      simp only [List.length_nil, ne_eq, not_true_eq_false, if_false, he, Option.bind_some]
      cases r with
      | false => exact ⟨L, N, false, seqs', by simp, h', hu, hf, by simp⟩
      | true =>
        obtain ⟨p, ps, hs', ha'⟩ := hr rfl
        obtain ⟨L', N', he', h'', hu'⟩ := splitFront_spec h' (k := k) hs'
        refine ⟨L', N', true, _, by simp [he'], h'', hu.trans hu', by simp, fun _ =>
          ⟨p, _, Function.update_self _ _ _, fun ha => ?_⟩⟩
        rw [Function.update_idem]
        exact h'.apart_split hs' (ha' ha)

/-! ### The allocator -/

/-- The invariant: the free blocks and the live allocations tile the managed memory, the live
allocations are blocks of some order, and the bitmap marks where they start. -/
structure Inv (b : BuddyAllocator) (seqs : ℕ → List Ptr) (live : List Allocation) : Prop where
  core : Core b b.metaStart seqs live
  live_order : ∀ a ∈ live, ∃ k ≤ b.maxOrder, a.size = 2 ^ (b.minOrderBits + k) ∧ a.size ∣ a.addr
  bitmap : ∀ addr, b.start ≤ addr → addr < b.metaStart → b.minOrderSize ∣ addr →
    (b.isAlloced addr = true ↔ ∃ a ∈ live, a.addr = addr)

variable {live : List Allocation} {a : Allocation}

/-- Pages have different bits. -/
theorem Geometry.page_inj (h : Geometry b) (ha : b.start ≤ addr) (ha' : b.start ≤ addr')
    (hd : b.minOrderSize ∣ addr) (hd' : b.minOrderSize ∣ addr')
    (heq : (addr' - b.start) / b.minOrderSize = (addr - b.start) / b.minOrderSize) :
    addr' = addr := by
  have h1 := Nat.div_mul_cancel (Nat.dvd_sub hd h.dvd_start)
  have h2 := Nat.div_mul_cancel (Nat.dvd_sub hd' h.dvd_start)
  rw [heq] at h2
  omega

theorem setIsAlloced_eq (b : BuddyAllocator) (addr : ℕ) (v : Bool) :
    ∃ B, b.setIsAlloced addr v = { b with bitmap := B } := by
  unfold BuddyAllocator.setIsAlloced
  by_cases hc : addr < b.start ∨ addr ≥ b.metaStart
  · exact ⟨b.bitmap, by rw [if_pos hc]⟩
  · exact ⟨_, by rw [if_neg hc]⟩

/-- The bitmap and the counter are not seen by the lists. -/
theorem Core.with_bitmap (h : Core b hi seqs held) (B : ℕ → BitVec 8) (F : ℕ) :
    Core { b with bitmap := B, freeSpace := F } hi seqs held :=
  ⟨h.geom.update _ _ _ _, h.hi_le, h.lists, h.high, h.free, h.tiles⟩

/-- A live allocation lies in the managed memory, at a page. -/
theorem Inv.live_mem (h : Inv b seqs live) (ha : a ∈ live) :
    b.start ≤ a.addr ∧ a.addr + a.size ≤ b.metaStart ∧ 0 < a.size ∧ b.minOrderSize ∣ a.addr := by
  obtain ⟨k, -, hs, hd⟩ := h.live_order a ha
  have hpos : 0 < a.size := by rw [hs]; positivity
  obtain ⟨h1, h2⟩ := h.core.tiles.subset (List.mem_append_right _ ha) hpos
  refine ⟨h1, h2, hpos, dvd_trans ?_ hd⟩
  rw [hs, h.core.geom.size_eq]
  exact pow_dvd_pow 2 (by omega)

/-- The fields that no operation writes. -/
structure Same (b b' : BuddyAllocator) : Prop where
  start : b'.start = b.start
  metaStart : b'.metaStart = b.metaStart
  minOrderSize : b'.minOrderSize = b.minOrderSize
  minOrderBits : b'.minOrderBits = b.minOrderBits
  maxOrder : b'.maxOrder = b.maxOrder

theorem Same.trans {b'' : BuddyAllocator} (h : Same b b') (h' : Same b' b'') : Same b b'' :=
  ⟨h'.1.trans h.1, h'.2.trans h.2, h'.3.trans h.3, h'.4.trans h.4, h'.5.trans h.5⟩

theorem same_update (b : BuddyAllocator) (B : ℕ → BitVec 8) (L : LinkedList.Lists ℕ)
    (N : Ptr → ℕ) (F : ℕ) :
    Same b { b with bitmap := B, lists := L, nodeSize := N, freeSpace := F } :=
  ⟨rfl, rfl, rfl, rfl, rfl⟩

/-- The lists and the sizes are not seen by the other parts of the invariant. -/
theorem Inv.with_core {L : LinkedList.Lists ℕ} {N : Ptr → ℕ} (h : Inv b seqs live)
    (hc : Core { b with lists := L, nodeSize := N } b.metaStart seqs' live) :
    Inv { b with lists := L, nodeSize := N } seqs' live :=
  ⟨hc, h.live_order, h.bitmap⟩

/-- A held block becomes a live allocation when its first page is marked. -/
theorem Core.mark (h : Core b b.metaStart seqs (⟨p, 2 ^ (b.minOrderBits + k)⟩ :: live))
    (hlive : ∀ a ∈ live, ∃ k ≤ b.maxOrder, a.size = 2 ^ (b.minOrderBits + k) ∧ a.size ∣ a.addr)
    (hbit : ∀ addr, b.start ≤ addr → addr < b.metaStart → b.minOrderSize ∣ addr →
      (b.isAlloced addr = true ↔ ∃ a ∈ live, a.addr = addr))
    (hk : k ≤ b.maxOrder) (hdvd : 2 ^ (b.minOrderBits + k) ∣ p) (F : ℕ) :
    ∃ B, b.setIsAlloced p true = { b with bitmap := B } ∧
      Inv { b with bitmap := B, freeSpace := F } seqs (⟨p, 2 ^ (b.minOrderBits + k)⟩ :: live) := by
  have hin := h.tiles.subset (b := ⟨p, 2 ^ (b.minOrderBits + k)⟩) (by simp) (by positivity)
  have hpage : b.minOrderSize ∣ p := by
    rw [h.geom.size_eq]
    exact (pow_dvd_pow 2 (by omega)).trans hdvd
  have hp : b.start ≤ p ∧ p < b.metaStart := by
    have hpos : 0 < 2 ^ (b.minOrderBits + k) := by positivity
    simp only at hin
    omega
  have hset : ∀ addr, b.start ≤ addr → addr < b.metaStart → b.minOrderSize ∣ addr →
      (b.setIsAlloced p true).isAlloced addr = if addr = p then true else b.isAlloced addr :=
    fun addr h1 h2 h3 => isAlloced_setIsAlloced hp.1 hp.2 h1 h2
      (h.geom.page_inj hp.1 h1 hpage h3)
  obtain ⟨B, hB⟩ := setIsAlloced_eq b p true
  rw [hB] at hset
  refine ⟨B, hB, h.with_bitmap B F, ?_, ?_⟩
  · intro a ha
    rcases List.mem_cons.1 ha with rfl | ha
    · exact ⟨k, hk, rfl, hdvd⟩
    · exact hlive a ha
  · intro addr h1 h2 h3
    refine (Eq.congr_left (hset addr h1 h2 h3)).trans ?_
    by_cases hp' : addr = p
    · simp [hp']
    · rw [if_neg hp', hbit addr h1 h2 h3]
      simp [Ne.symm hp']

/-- The first block of an order becomes a live allocation. -/
theorem allocFront_spec (h : Inv b seqs live) (hs : seqs k = p :: ps) :
    ∃ b', b.allocFront k = some (b', ⟨p, 2 ^ (b.minOrderBits + k)⟩) ∧
      Inv b' (Function.update seqs k ps) (⟨p, 2 ^ (b.minOrderBits + k)⟩ :: live) ∧ Same b b' ∧
      Untouched b b' live := by
  obtain ⟨hsize, hdvd⟩ := h.core.free k p (by simp [hs])
  have hk : k ≤ b.maxOrder := h.core.order_lt (p := p) (by simp [hs])
  obtain ⟨L, he, h₁, hu⟩ := popFront_spec h.core hs
  obtain ⟨B, hB, h₂⟩ := h₁.mark h.live_order h.bitmap hk hdvd (b.freeSpace - b.nodeSize p)
  refine ⟨{ b with bitmap := B, lists := L, freeSpace := b.freeSpace - b.nodeSize p }, ?_, h₂,
    same_update b B L _ _, hu⟩
  rw [← hsize]
  simp only [allocFront, he, Option.bind_eq_bind, Option.bind_some, hB]

/-- **`oalloc`**: nothing, or a block of the order asked for, which was free. -/
theorem oalloc_spec (h : Inv b seqs live) (order : ℕ) :
    ∃ b' seqs' out, b.oalloc order = some (b', out) ∧ Inv b' seqs' (out.toList ++ live) ∧
      Same b b' ∧ Untouched b b' live ∧ (∀ a ∈ out, a.size = 2 ^ (b.minOrderBits + order)) ∧
      (out = none → b' = b ∧ seqs' = seqs) ∧
      (Apart b.minOrderBits b.maxOrder seqs → Apart b.minOrderBits b.maxOrder seqs') := by
  by_cases hmax : order > b.maxOrder
  · exact ⟨b, seqs, none, by rw [oalloc, if_pos hmax], h, same_update b _ _ _ _, .refl b live,
      by simp, fun _ => ⟨rfl, rfl⟩, id⟩
  rw [oalloc, if_neg hmax, orderLen_eq h.core (by omega)]
  simp only [Option.bind_eq_bind, Option.bind_some]
  cases hs : seqs order with
  | cons p ps =>
    obtain ⟨b', he, h', hsame, hu⟩ := allocFront_spec h hs
    exact ⟨b', _, some ⟨p, 2 ^ (b.minOrderBits + order)⟩, by simp [he], h', hsame, hu, by simp,
      by simp, fun ha => ha.update (by simp [hs])⟩
  | nil =>
    obtain ⟨L, N, r, seqs', he, hc, hu, hf, hr⟩ := splitOrder_spec h.core (order + 1)
    have h' := h.with_core hc
    simp only [List.length_nil, if_true, he, Option.bind_some]
    cases r with
    | false =>
      obtain ⟨rfl, rfl, rfl⟩ := hf rfl
      exact ⟨b, seqs', none, rfl, h, same_update b _ _ _ _, .refl b live, by simp,
        fun _ => ⟨rfl, rfl⟩, id⟩
    | true =>
      rw [Nat.add_sub_cancel] at hr
      obtain ⟨p, ps, hs', ha'⟩ := hr rfl
      obtain ⟨b', he', h'', hsame, hu'⟩ := allocFront_spec h' hs'
      exact ⟨b', _, some ⟨p, 2 ^ (b.minOrderBits + order)⟩, by simp [he'], h'',
        (same_update b _ _ _ _).trans hsame, hu.trans hu', by simp, by simp, ha'⟩

theorem alloc_spec (h : Inv b seqs live) (size : ℕ) :
    ∃ b' seqs' out, b.alloc size = some (b', out) ∧ Inv b' seqs' (out.toList ++ live) ∧
      Same b b' ∧
      (Apart b.minOrderBits b.maxOrder seqs → Apart b.minOrderBits b.maxOrder seqs') := by
  unfold alloc
  split_ifs
  · exact ⟨b, seqs, none, rfl, h, same_update b _ _ _ _, id⟩
  · obtain ⟨b', seqs', out, he, h', hsame, -, -, -, ha⟩ := oalloc_spec h (b.getOrder size)
    exact ⟨b', seqs', out, he, h', hsame, ha⟩

/-! ### Freeing -/

theorem getOrder_two_pow (h : Geometry b) (hk : b.minOrderBits + k < 64) :
    b.getOrder (2 ^ (b.minOrderBits + k)) = k := by
  have := h.le_bits
  rw [getOrder, log2Up_two_pow (by omega) hk]
  split_ifs <;> omega

/-- The size of a live allocation is a word. -/
theorem Inv.bits_lt (h : Inv b seqs live) (ha : a ∈ live)
    (hs : a.size = 2 ^ (b.minOrderBits + k)) : b.minOrderBits + k < 64 := by
  obtain ⟨-, hhi, -⟩ := h.live_mem ha
  have hmeta := h.core.geom.meta_lt
  have hlt : 2 ^ (b.minOrderBits + k) < 2 ^ 64 := by
    simp only [usizeMod] at hmeta
    omega
  exact (Nat.pow_lt_pow_iff_right (by decide)).1 hlt

/-- The order of a live allocation. -/
theorem Inv.getOrder_eq (h : Inv b seqs live) (ha : a ∈ live)
    (hs : a.size = 2 ^ (b.minOrderBits + k)) : b.getOrder a.size = k := by
  rw [hs, getOrder_two_pow h.core.geom (h.bits_lt ha hs)]

/-- **`insert_node`** never merges: the buddy of a node stands below it or above `start`, and the
loop ends at once in both cases. -/
theorem insertNode_spec (h : Core b hi seqs (⟨p, 2 ^ (b.minOrderBits + k)⟩ :: held))
    (hsize : b.nodeSize p = 2 ^ (b.minOrderBits + k)) (hk : b.minOrderBits + k < 64) :
    b.insertNode p = b.pushFront k p := by
  have hpos : 0 < 2 ^ (b.minOrderBits + k) := by positivity
  have hstart := (h.tiles.subset (b := ⟨p, 2 ^ (b.minOrderBits + k)⟩) (by simp) hpos).1
  have hne := xor_ne p hpos
  rw [insertNode, hsize, getOrder_two_pow h.geom hk]
  unfold insertNodeFrom
  simp only [hsize]
  rw [if_pos]
  rcases lt_or_gt_of_ne hne with hlt | hgt
  · exact .inl hlt
  · exact .inr (.inl (hstart.trans_lt hgt))

/-- **`dealloc`** of a live allocation puts its block back on the list of its order. -/
theorem dealloc_spec (h : Inv b seqs (a :: live)) :
    ∃ b' k, b.dealloc a = some b' ∧ k ≤ b.maxOrder ∧ a.size = 2 ^ (b.minOrderBits + k) ∧
      b.getOrder a.size = k ∧ Inv b' (Function.update seqs k (a.addr :: seqs k)) live ∧
      Same b b' ∧ Untouched b b' live := by
  obtain ⟨hlo, hhi, hpos, hpage⟩ := h.live_mem (List.mem_cons_self)
  obtain ⟨k, hk, hsize, hdvd⟩ := h.live_order a List.mem_cons_self
  have hk64 := h.bits_lt List.mem_cons_self hsize
  obtain ⟨p, s⟩ := a
  simp only at hsize hdvd hlo hhi hpos hpage
  subst hsize
  have hlt : p < b.metaStart := by omega
  have halloc : b.isAlloced p = true := (h.bitmap p hlo hlt hpage).2 ⟨_, List.mem_cons_self, rfl⟩
  have hbit : ∀ addr, b.start ≤ addr → addr < b.metaStart → b.minOrderSize ∣ addr →
      (b.setIsAlloced p false).isAlloced addr = if addr = p then false else b.isAlloced addr :=
    fun addr h1 h2 h3 => isAlloced_setIsAlloced hlo hlt h1 h2
      (h.core.geom.page_inj hlo h1 hpage h3)
  obtain ⟨B, hB⟩ := setIsAlloced_eq b p false
  rw [hB] at hbit
  obtain ⟨L₁, he₁, h₁, hu₁⟩ := nodeNew_spec (h.core.with_bitmap B b.freeSpace) hpos
    (2 ^ (b.minOrderBits + k))
  have h₂ := h₁.with_bitmap B (b.freeSpace + 2 ^ (b.minOrderBits + k))
  have hins := insertNode_spec h₂ (Function.update_self _ _ _) hk64
  obtain ⟨L₃, he₃, h₃, hu₃⟩ := pushFront_spec h₂ hk (Function.update_self _ _ _) hdvd
  refine ⟨_, k, ?_, hk, rfl, getOrder_two_pow h.core.geom hk64,
    ⟨h₃, fun a ha => h.live_order a (List.mem_cons_of_mem _ ha), ?_⟩, same_update b B L₃ _ _,
    (hu₁ (h.core.geom.node_le k)).trans hu₃⟩
  · have hnode : ({ b with bitmap := B } : BuddyAllocator).nodeNew p (2 ^ (b.minOrderBits + k))
        = _ := he₁
    rw [dealloc, if_neg (by simp only; omega), if_neg (by simp [halloc]), hB]
    simp only [hnode, Option.bind_eq_bind, Option.bind_some]
    rw [Function.update_self]
    exact hins.trans he₃
  · intro addr h1 h2 h3
    refine (Eq.congr_left (hbit addr h1 h2 h3)).trans ?_
    have hdisj := h.core.tiles.packed.perm List.perm_middle
    by_cases hp : addr = p
    · subst hp
      simp only [if_true, Bool.false_eq_true, false_iff, not_exists, not_and]
      intro c hc hcp
      exact hdisj.addr_ne hpos (List.mem_append_right _ hc)
        (h.live_mem (List.mem_cons_of_mem _ hc)).2.2.1 hcp.symm
    · rw [if_neg hp, h.bitmap addr h1 h2 h3]
      simp [Ne.symm hp]

end BuddyAllocator
end AuroraOs
