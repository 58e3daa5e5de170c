import AuroraOs.Lib.Dyadic
import AuroraOs.Mem.BuddyRun

/-!
# Coalescing

Freed blocks are never merged with their buddies.  The free lists stay coalesced along a run as long
as no block is freed whose buddy is on the list of its order, and only then; while they are, freeing
everything brings back the blocks that `new` laid out.
-/

namespace AuroraOs

open Blocks LinkedList Machine

namespace BuddyAllocator

variable {b b' : BuddyAllocator} {k n p q : ℕ} {seqs : ℕ → List Ptr} {live : List Allocation}

/-- The free blocks of an order, by their addresses. -/
def freeNodes (b : BuddyAllocator) (order : ℕ) : List Ptr :=
  LinkedList.nodes b.lists.mem (b.lists.list order)

theorem Inv.freeNodes_eq (h : Inv b seqs live) (k : ℕ) : b.freeNodes k = seqs k :=
  (h.core.lists.repr k).nodes_eq

/-! ### Buddies -/

/-- The buddy of a block is the other half of the block of the next order. -/
theorem xor_buddy (h : 2 ^ n ∣ p) :
    2 ^ (n + 1) ∣ p ∧ p ^^^ 2 ^ n = p + 2 ^ n ∨
      ∃ q, 2 ^ (n + 1) ∣ q ∧ p = q + 2 ^ n ∧ p ^^^ 2 ^ n = q := by
  by_cases hd : 2 ^ (n + 1) ∣ p
  · exact .inl ⟨hd, xor_two_pow hd⟩
  · obtain ⟨i, rfl⟩ := h
    have hodd : i % 2 = 1 := by
      by_contra he
      refine hd ?_
      rw [pow_succ]
      exact Nat.mul_dvd_mul_left _ (by omega)
    have hq : 2 ^ (n + 1) ∣ 2 ^ n * (i - 1) := by
      rw [pow_succ]
      exact Nat.mul_dvd_mul_left _ (by omega)
    have hp : 2 ^ n * i = 2 ^ n * (i - 1) + 2 ^ n := by
      obtain ⟨j, rfl⟩ : ∃ j, i = j + 1 := ⟨i - 1, by omega⟩
      rw [Nat.add_sub_cancel, Nat.mul_add, mul_one]
    refine .inr ⟨2 ^ n * (i - 1), hq, hp, ?_⟩
    rw [hp, ← xor_two_pow hq, Nat.xor_assoc, Nat.xor_self, Nat.xor_zero]

/-- No two free blocks of one order below the maximal one are buddies. -/
def Coalesced (b : BuddyAllocator) : Prop :=
  ∀ k < b.maxOrder, ∀ p ∈ b.freeNodes k, p ^^^ 2 ^ (b.minOrderBits + k) ∉ b.freeNodes k

instance (b : BuddyAllocator) : Decidable (Coalesced b) :=
  inferInstanceAs (Decidable (∀ k < b.maxOrder, ∀ p ∈ b.freeNodes k,
    p ^^^ 2 ^ (b.minOrderBits + k) ∉ b.freeNodes k))

theorem Inv.coalesced_iff (h : Inv b seqs live) :
    Coalesced b ↔ Apart b.minOrderBits b.maxOrder seqs := by
  simp only [Coalesced, h.freeNodes_eq]
  constructor
  · intro hc k hk p hp hd hq
    refine hc k hk p hp ?_
    rwa [xor_two_pow hd]
  · intro ha k hk p hp hq
    rcases xor_buddy (h.core.free k p hp).2 with ⟨hd, hx⟩ | ⟨r, hd, rfl, hx⟩
    · exact ha k hk p hp hd (hx ▸ hq)
    · exact ha k hk r (hx ▸ hq) hd hp

/-- The blocks that `new` lays out are as large as they can be. -/
theorem Inv.apart_of_greedy (h : Inv b seqs live) (hg : Greedy b seqs) (M : ℕ) :
    Apart b.minOrderBits M seqs := by
  intro k _ p hp hd hq
  have hk := (h.core.order_lt hp).trans_lt h.core.geom.maxOrder_lt
  set n := b.minOrderBits + k with hn
  have hpos : 0 < 2 ^ n := by positivity
  have hmeta := h.core.geom.meta_lt
  have hmem : ∀ q : ℕ, q ∈ seqs k → b.start ≤ q ∧ q + 2 ^ n ≤ b.metaStart := fun q hq =>
    h.core.tiles.subset (b := ⟨q, 2 ^ n⟩)
      (List.mem_append_left _ (mem_freeBlocks.2 ⟨k, hk, hq, rfl⟩)) hpos
  obtain ⟨hlo, -⟩ := hmem p hp
  obtain ⟨-, hhi⟩ := hmem _ hq
  have hp0 : 0 < p := (h.core.geom.start_pos (by omega)).trans_le hlo
  -- both bounds on the length leave room for a block of the next order
  have halign : 2 ^ (n + 1) ≤ alignOf p :=
    Nat.le_of_dvd (alignOf_pos p) (dvd_alignOf hp0 (by omega) hd)
  have hroom : 2 ^ (n + 1) ≤ 2 ^ log2 (b.metaStart - p) := by
    have hlt : 2 ^ (n + 1) < 2 ^ (log2 (b.metaStart - p) + 1) := by
      have := lt_two_pow_log2_succ (b.metaStart - p)
      rw [pow_succ 2 n]
      omega
    have := (Nat.pow_lt_pow_iff_right (by decide)).1 hlt
    exact Nat.pow_le_pow_right (by decide) (by omega)
  have := hg k p hp
  rw [← hn] at this
  have hle : 2 ^ (n + 1) ≤ 2 ^ n := this ▸ le_min halign hroom
  rw [pow_succ] at hle
  omega

/-! ### The free blocks as a merged tiling -/

theorem Core.dyadic {hi : ℕ} {held : List Block} {c : Block} (h : Core b hi seqs held)
    (hc : c ∈ freeBlocks b.minOrderBits seqs) : ∃ n, b.minOrderBits ≤ n ∧
      n ≤ b.minOrderBits + b.maxOrder ∧ IsDyadic n c := by
  obtain ⟨k, -, hp, hs⟩ := mem_freeBlocks.1 hc
  have hk := h.order_lt hp
  exact ⟨b.minOrderBits + k, by omega, by omega, hs, (h.free k _ hp).2⟩

/-- The order of a free block is read off its size. -/
theorem mem_freeBlocks_order {bits : ℕ} (hk : k < MAX_ORDER) :
    (⟨p, 2 ^ (bits + k)⟩ : Block) ∈ freeBlocks bits seqs ↔ p ∈ seqs k := by
  rw [mem_freeBlocks]
  constructor
  · rintro ⟨j, -, hp, hs⟩
    have hjk : bits + k = bits + j := Nat.pow_right_injective le_rfl hs
    obtain rfl : k = j := by omega
    exact hp
  · intro hp
    exact ⟨k, hk, hp, rfl⟩

theorem Apart.merged {bits M : ℕ} (ha : Apart bits M seqs) :
    Merged (bits + M) (freeBlocks bits seqs) := by
  rintro n hn c hc d hd ⟨hsize, hdvd, rfl⟩
  obtain ⟨k, -, hp, hs⟩ := mem_freeBlocks.1 hc
  obtain ⟨j, -, hq, hs'⟩ := mem_freeBlocks.1 hd
  obtain rfl : n = bits + k := Nat.pow_right_injective le_rfl (hsize.symm.trans hs)
  have hjk : bits + k = bits + j := Nat.pow_right_injective le_rfl hs'
  obtain rfl : k = j := by omega
  exact ha k (by omega) c.addr hp hdvd hq

/-- **Coalesced free lists are determined** by the memory they tile. -/
theorem Inv.perm_of_apart {seqs' : ℕ → List Ptr} (h : Inv b seqs []) (h' : Inv b' seqs' [])
    (hsame : Same b b') (ha : Apart b.minOrderBits b.maxOrder seqs)
    (ha' : Apart b.minOrderBits b.maxOrder seqs') (hk : k < MAX_ORDER) : (seqs' k).Perm (seqs k) := by
  have ht := h.core.tiles
  have ht' := h'.core.tiles
  rw [hsame.start, hsame.metaStart, hsame.minOrderBits] at ht'
  have hd' := fun c hc => h'.core.dyadic (c := c) hc
  rw [hsame.minOrderBits, hsame.maxOrder] at hd'
  rw [List.append_nil] at ht ht'
  have hmem : ∀ c, c ∈ freeBlocks b.minOrderBits seqs ↔ c ∈ freeBlocks b.minOrderBits seqs' :=
    fun c => ⟨ht.mem_of_merged ht' (fun c => h.core.dyadic) hd' ha.merged ha'.merged,
      ht'.mem_of_merged ht hd' (fun c => h.core.dyadic) ha'.merged ha.merged⟩
  refine (List.perm_ext_iff_of_nodup (h'.core.lists.repr k).nodup (h.core.lists.repr k).nodup).2
    fun p => ?_
  rw [← mem_freeBlocks_order hk, ← mem_freeBlocks_order hk, hmem]

/-! ### Runs -/

/-- The free lists hold the same blocks. -/
def SameFree (b b' : BuddyAllocator) : Prop := ∀ k < MAX_ORDER, (b'.freeNodes k).Perm (b.freeNodes k)

instance (b b' : BuddyAllocator) : Decidable (SameFree b b') :=
  inferInstanceAs (Decidable (∀ k < MAX_ORDER, (b'.freeNodes k).Perm (b.freeNodes k)))

/-- `oalloc` hands out a block. -/
def CanAlloc (b : BuddyAllocator) (order : ℕ) : Prop := ((b.oalloc order).bind (·.2)).isSome

instance (b : BuddyAllocator) (order : ℕ) : Decidable (CanAlloc b order) :=
  inferInstanceAs (Decidable (_ = true))

/-- The free lists are coalesced; with no live allocation they hold the blocks of `b₀`, and an
allocation of the largest order succeeds. -/
structure Restored (b₀ : BuddyAllocator) (s : BuddyAllocator × List Allocation) : Prop where
  coalesced : Coalesced s.1
  free : s.2 = [] → SameFree b₀ s.1
  largest : s.2 = [] → b₀.start < b₀.metaStart → CanAlloc s.1 b₀.maxOrder

/-- No block is freed while its buddy is on the list of its order. -/
def Unpaired (s : BuddyAllocator × List Allocation) : BuddyOp → Prop
  | .dealloc a => s.1.getOrder a.size < s.1.maxOrder →
      a.addr ^^^ a.size ∉ s.1.freeNodes (s.1.getOrder a.size)
  | _ => True

instance (s : BuddyAllocator × List Allocation) : (op : BuddyOp) → Decidable (Unpaired s op)
  | .dealloc a => inferInstanceAs (Decidable (s.1.getOrder a.size < s.1.maxOrder →
      a.addr ^^^ a.size ∉ s.1.freeNodes (s.1.getOrder a.size)))
  | .alloc _ => isTrue trivial
  | .oalloc _ => isTrue trivial

/-- There is a block of the largest order among those of `new`. -/
theorem Inv.largest_ne_nil (h : Inv b seqs []) (hr : Reached b seqs)
    (hlt : b.start < b.metaStart) : seqs b.maxOrder ≠ [] := by
  rcases Nat.eq_zero_or_pos b.maxOrder with h0 | hpos
  · obtain ⟨c, hc, -⟩ := h.core.tiles.exists_has le_rfl hlt
    rw [List.append_nil] at hc
    obtain ⟨k, -, hp, -⟩ := mem_freeBlocks.1 hc
    obtain rfl : k = b.maxOrder := by
      have := h.core.order_lt hp
      omega
    exact List.ne_nil_of_mem hp
  · exact hr hpos

theorem Inv.canAlloc (h : Inv b seqs live) (hk : k ≤ b.maxOrder) (hne : seqs k ≠ []) :
    CanAlloc b k := by
  obtain ⟨p, ps, hs⟩ := List.exists_cons_of_ne_nil hne
  obtain ⟨b', he, -⟩ := allocFront_spec h hs
  rw [CanAlloc, oalloc, if_neg (by omega), orderLen_eq h.core hk]
  simp [hs, he]

/-- Coalesced free lists are as the callers expect them. -/
theorem Inv.restored {b₀ : BuddyAllocator} {seqs₀ : ℕ → List Ptr} (h₀ : Inv b₀ seqs₀ [])
    (hg : Greedy b₀ seqs₀) (hr : Reached b₀ seqs₀) (h : Inv b seqs live) (hsame : Same b₀ b)
    (hc : Coalesced b) : Restored b₀ (b, live) := by
  have hperm : live = [] → ∀ k < MAX_ORDER, (seqs k).Perm (seqs₀ k) := by
    rintro rfl k hk
    have ha := h.coalesced_iff.1 hc
    rw [hsame.minOrderBits, hsame.maxOrder] at ha
    exact h₀.perm_of_apart h hsame (h₀.apart_of_greedy hg _) ha hk
  refine ⟨hc, fun hl k hk => ?_, fun hl hlt => ?_⟩
  · rw [h.freeNodes_eq, h₀.freeNodes_eq]
    exact hperm hl k hk
  · refine h.canAlloc hsame.maxOrder.ge fun hnil => h₀.largest_ne_nil hr hlt ?_
    have hp := hperm hl b₀.maxOrder h₀.core.geom.maxOrder_lt
    rw [hnil] at hp
    exact hp.nil_eq.symm

/-- A block put on a list leaves the lists coalesced unless its buddy is there. -/
theorem Inv.coalesced_cons_iff {live' : List Allocation} (h : Inv b seqs live) (hc : Coalesced b)
    (h' : Inv b' (Function.update seqs k (p :: seqs k)) live') (hsame : Same b b') :
    Coalesced b' ↔ (k < b.maxOrder → p ^^^ 2 ^ (b.minOrderBits + k) ∉ seqs k) := by
  simp only [Coalesced, h.freeNodes_eq] at hc
  simp only [Coalesced, h'.freeNodes_eq, hsame.maxOrder, hsame.minOrderBits]
  have hpos : 0 < 2 ^ (b.minOrderBits + k) := by positivity
  constructor
  · intro hc' hk hq
    refine hc' k hk p ?_ ?_
    · simp
    · simp [hq]
  · intro hp j hj q hq hq'
    rcases eq_or_ne j k with rfl | hjk
    · rw [Function.update_self] at hq hq'
      rcases List.mem_cons.1 hq with rfl | hq
      · rcases List.mem_cons.1 hq' with he | hq'
        · exact xor_ne q hpos he
        · exact hp hj hq'
      · rcases List.mem_cons.1 hq' with rfl | hq'
        · refine hp hj ?_
          rwa [Nat.xor_assoc, Nat.xor_self, Nat.xor_zero]
        · exact hc j hj q hq hq'
    · rw [Function.update_of_ne hjk] at hq hq'
      exact hc j hj q hq hq'

/-- An allocation leaves coalesced lists coalesced. -/
theorem Inv.coalesced_of_apart {live' : List Allocation} {seqs' : ℕ → List Ptr}
    (h : Inv b seqs live) (hc : Coalesced b) (h' : Inv b' seqs' live') (hsame : Same b b')
    (ha : Apart b.minOrderBits b.maxOrder seqs → Apart b.minOrderBits b.maxOrder seqs') :
    Coalesced b' := by
  rw [h'.coalesced_iff, hsame.minOrderBits, hsame.maxOrder]
  exact ha (h.coalesced_iff.1 hc)

/-- The states reached while no block meets its buddy. -/
def Kept (b₀ : BuddyAllocator) (s : BuddyAllocator × List Allocation) : Prop :=
  ∃ seqs, Inv s.1 seqs s.2 ∧ Same b₀ s.1 ∧ Coalesced s.1

/-- **One call** leaves the lists as expected exactly when it does not free a block beside its
buddy. -/
theorem step_restored {b₀ : BuddyAllocator} {seqs₀ : ℕ → List Ptr} (h₀ : Inv b₀ seqs₀ [])
    (hg : Greedy b₀ seqs₀) (hr : Reached b₀ seqs₀) (s : BuddyAllocator × List Allocation)
    (op : BuddyOp) (hs : Kept b₀ s) (hlegal : Legal s op) :
    ((∀ s' ∈ step s op, Restored b₀ s') ↔ Unpaired s op) ∧
      (Unpaired s op → ∀ s' ∈ step s op, Kept b₀ s') := by
  obtain ⟨b, live⟩ := s
  obtain ⟨seqs, h, hsame, hc⟩ := hs
  -- a call with this outcome is right if the lists stay coalesced, and wrong otherwise
  have hout : ∀ {b' live' seqs'}, step (b, live) op = some (b', live') → Inv b' seqs' live' →
      Same b b' → (Coalesced b' ↔ Unpaired (b, live) op) →
      ((∀ s' ∈ step (b, live) op, Restored b₀ s') ↔ Unpaired (b, live) op) ∧
        (Unpaired (b, live) op → ∀ s' ∈ step (b, live) op, Kept b₀ s') := by
    intro b' live' seqs' he h' hs' hiff
    simp only [he, Option.mem_some_iff, forall_eq']
    refine ⟨⟨fun hres => hiff.1 hres.coalesced, fun hu => ?_⟩, fun hu => ?_⟩
    · exact h₀.restored hg hr h' (hsame.trans hs') (hiff.2 hu)
    · exact ⟨seqs', h', hsame.trans hs', hiff.2 hu⟩
  cases op with
  | alloc size =>
    obtain ⟨b', seqs', out, he, h', hs', ha⟩ := alloc_spec h size
    exact hout (by simp only [step, he]; rfl) h' hs'
      (iff_of_true (h.coalesced_of_apart hc h' hs' ha) trivial)
  | oalloc order =>
    obtain ⟨b', seqs', out, he, h', hs', -, -, -, ha⟩ := oalloc_spec h order
    exact hout (by simp only [step, he]; rfl) h' hs'
      (iff_of_true (h.coalesced_of_apart hc h' hs' ha) trivial)
  | dealloc a =>
    obtain ⟨b', k, he, -, hsize, hk, h', hs', -⟩ :=
      dealloc_spec (h.perm (List.perm_cons_erase hlegal))
    refine hout (by simp only [step, he]; rfl) h' hs' ?_
    rw [h.coalesced_cons_iff hc h' hs', ← hsize, Unpaired, hk, h.freeNodes_eq]

/-- **Coalescing**: along a run the free lists are coalesced after every call, and hold the blocks
of `new` whenever nothing is live, exactly if no block is freed while its buddy is on the list of its
order. -/
theorem run_restored {A : AlignVirt} {mem : NodeMem} {sizes : Ptr → ℕ} {bytes : ℕ → BitVec 8}
    {startAddr endAddr minOrderSize : ℕ} (hend : endAddr < usizeMod)
    (hnew : new A mem sizes bytes startAddr endAddr minOrderSize = some b) (ops : List BuddyOp)
    (hlegal : Along step Legal (b, []) ops) :
    Along step (fun s op => ∀ s' ∈ step s op, Restored b s') (b, []) ops ↔
      Along step Unpaired (b, []) ops := by
  obtain ⟨seqs, h, hg, hr⟩ := new_spec hend hnew
  refine along_iff (Kept b) (step_restored h hg hr) ⟨seqs, h, ⟨rfl, rfl, rfl, rfl, rfl⟩, ?_⟩ hlegal
  exact h.coalesced_iff.2 (h.apart_of_greedy hg _)

/-- Six pages at `0x3000`: two pages are taken from a block of four and given back. -/
theorem run_restored_fails :
    ∃ b b', new alignVirt (fun _ => ⟨7, 7⟩) (fun _ => 7) (fun _ => 7) 12000 40000 1 = some b ∧
      Along step Legal (b, []) [.oalloc 1, .dealloc ⟨16384, 8192⟩] ∧
      run step (b, []) [.oalloc 1, .dealloc ⟨16384, 8192⟩] = some (b', []) ∧
      ¬ Coalesced b' ∧ ¬ SameFree b b' ∧ CanAlloc b b.maxOrder ∧ ¬ CanAlloc b' b.maxOrder := by
  let ops : List BuddyOp := [.oalloc 1, .dealloc ⟨16384, 8192⟩]
  have hsome : (new alignVirt (fun _ => ⟨7, 7⟩) (fun _ => 7) (fun _ => 7) 12000 40000 1).isSome := by
    decide +kernel
  obtain ⟨b, hb⟩ := Option.isSome_iff_exists.1 hsome
  have hrun : ∀ b ∈ new alignVirt (fun _ => ⟨7, 7⟩) (fun _ => 7) (fun _ => 7) 12000 40000 1,
      Along step Legal (b, []) ops ∧ CanAlloc b b.maxOrder ∧ (run step (b, []) ops).isSome ∧
      ∀ s ∈ run step (b, []) ops, s.2 = [] ∧ ¬ Coalesced s.1 ∧ ¬ SameFree b s.1 ∧
        ¬ CanAlloc s.1 b.maxOrder := by decide +kernel
  obtain ⟨hlegal, hcan, hsome', hall⟩ := hrun b hb
  obtain ⟨⟨b', live⟩, he⟩ := Option.isSome_iff_exists.1 hsome'
  obtain ⟨hl, hbad⟩ := hall _ he
  obtain rfl : live = [] := hl
  exact ⟨b, b', hb, hlegal, he, hbad.1, hbad.2.1, hcan, hbad.2.2⟩

/-- Six pages at `0x3000`: the single page at the start has no buddy in the memory, and of the two
halves of the block of four pages one is given back. -/
theorem run_restored_sample :
    ∃ b, new alignVirt (fun _ => ⟨7, 7⟩) (fun _ => 7) (fun _ => 7) 12000 40000 1 = some b ∧
      Along step (fun s op => ∀ s' ∈ step s op, Restored b s') (b, [])
        [.oalloc 0, .oalloc 1, .oalloc 1, .dealloc ⟨16384, 8192⟩, .dealloc ⟨12288, 4096⟩] := by
  let ops : List BuddyOp :=
    [.oalloc 0, .oalloc 1, .oalloc 1, .dealloc ⟨16384, 8192⟩, .dealloc ⟨12288, 4096⟩]
  have hsome : (new alignVirt (fun _ => ⟨7, 7⟩) (fun _ => 7) (fun _ => 7) 12000 40000 1).isSome := by
    decide +kernel
  obtain ⟨b, hb⟩ := Option.isSome_iff_exists.1 hsome
  have hrun : ∀ b ∈ new alignVirt (fun _ => ⟨7, 7⟩) (fun _ => 7) (fun _ => 7) 12000 40000 1,
      Along step Legal (b, []) ops ∧ Along step Unpaired (b, []) ops := by decide +kernel
  obtain ⟨hlegal, hun⟩ := hrun b hb
  exact ⟨b, hb, (run_restored (by decide : 40000 < usizeMod) hb _ hlegal).2 hun⟩

end BuddyAllocator
end AuroraOs
