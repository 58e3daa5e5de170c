import AuroraOs.Mem.BuddyAt

/-!
# Reallocation

`orealloc` gives back the upper halves of a block, takes the buddies of a block off their lists, or
moves the block.  Growing in place is right when the buddies are free blocks of their orders; the
bytes of the block are kept in each case, and those of the other live allocations are not touched.
-/

namespace AuroraOs

open Blocks LinkedList

namespace BuddyAllocator

variable {b b' : BuddyAllocator} {addr hi i k m n p q s size order old : ℕ}
  {seqs seqs' : ℕ → List Ptr} {live held held' : List Allocation} {a : Allocation}
  {L : NodeLayout} {bytes : Bytes}

/-! ### Frames -/

/-- Parts of untouched blocks are untouched. -/
theorem Untouched.inside (h : Untouched b b' held) (hin : ∀ c ∈ held', ∃ d ∈ held, Inside c d) :
    Untouched b b' held' := by
  intro c hc x hx
  obtain ⟨d, hd, hcd⟩ := hin c hc
  exact h d hd x (hcd.has hx)

/-- Bytes of untouched blocks are kept. -/
theorem Untouched.write_eq (h : Untouched b b' held) {c : Block} (hc : c ∈ held) {x : ℕ}
    (hx : c.Has x) (hlt : x < b.metaStart) : L.write b b' bytes x = bytes x :=
  L.frame hlt fun p hp hpx => h c hc x hx p hp hpx

theorem Inv.with_freeSpace (h : Inv b seqs live) (F : ℕ) : Inv { b with freeSpace := F } seqs live :=
  ⟨h.core.with_bitmap b.bitmap F, h.live_order, h.bitmap⟩

/-- A live allocation is replaced by one at the same address. -/
theorem Inv.resize {Ls : LinkedList.Lists ℕ} {N : Ptr → ℕ} (h : Inv b seqs (a :: live))
    (hc : Core { b with lists := Ls, nodeSize := N } b.metaStart seqs'
      (⟨a.addr, 2 ^ (b.minOrderBits + k)⟩ :: live)) (hk : k ≤ b.maxOrder)
    (hd : 2 ^ (b.minOrderBits + k) ∣ a.addr) (F : ℕ) :
    Inv { b with lists := Ls, nodeSize := N, freeSpace := F } seqs'
      (⟨a.addr, 2 ^ (b.minOrderBits + k)⟩ :: live) := by
  refine ⟨hc.with_bitmap b.bitmap F, fun c hmem => ?_, fun addr h1 h2 h3 => ?_⟩
  · rcases List.mem_cons.1 hmem with rfl | hmem
    · exact ⟨k, hk, rfl, hd⟩
    · exact h.live_order c (List.mem_cons_of_mem _ hmem)
  · exact (h.bitmap addr h1 h2 h3).trans (by simp)

/-- Writing to a live allocation. -/
theorem Inv.reload (h : Inv b seqs live) (ha : a ∈ live) {r : Block} (hr : Inside r a) :
    Inv (b.reload L bytes r) seqs live := by
  have hapart : ∀ k, ∀ p : ℕ, p ∈ seqs k → ¬ (p < r.addr + r.size ∧ r.addr < p + NODE_SIZE) := by
    rintro k p hp ⟨h1, h2⟩
    have hroom := h.core.geom.node_le k
    have hpos := (h.live_mem ha).2.2.1
    have hpos' : 0 < 2 ^ (b.minOrderBits + k) := by positivity
    unfold Inside at hr
    rcases le_total p a.addr with hle | hle
    · exact h.core.not_held hp ha (x := a.addr) hle (by omega) ⟨le_rfl, by omega⟩
    · exact h.core.not_held hp ha (x := p) le_rfl (by omega) ⟨hle, by omega⟩
  refine ⟨⟨h.core.geom.update _ _ _ _, h.core.hi_le, ⟨fun k => ?_, h.core.lists.disj⟩, h.core.high,
    fun k p hp => ?_, h.core.tiles⟩, h.live_order, h.bitmap⟩
  · exact (h.core.lists.repr k).congr fun p hp => if_neg (hapart k p hp)
  · have hsize : (b.reload L bytes r).nodeSize p = b.nodeSize p := if_neg (hapart k p hp)
    rw [hsize]
    exact h.core.free k p hp

/-! ### Shrinking -/

/-- **The loop that shrinks** a block leaves its lower part, and does not touch that. -/
theorem shrinkFrom_spec (h : Core b hi seqs (⟨addr, 2 ^ (b.minOrderBits + old)⟩ :: held))
    (hold : old ≤ b.maxOrder) (hd : 2 ^ (b.minOrderBits + old) ∣ addr) (horder : order ≤ old) :
    ∃ Ls N seqs', b.shrinkFrom addr order (2 ^ (b.minOrderBits + old)) old
        = some ({ b with lists := Ls, nodeSize := N }, 2 ^ (b.minOrderBits + order)) ∧
      Core { b with lists := Ls, nodeSize := N } hi seqs'
        (⟨addr, 2 ^ (b.minOrderBits + order)⟩ :: held) ∧
      Untouched b { b with lists := Ls, nodeSize := N }
        (⟨addr, 2 ^ (b.minOrderBits + order)⟩ :: held) := by
  induction old generalizing b seqs with
  | zero =>
    obtain rfl : order = 0 := by omega
    exact ⟨b.lists, b.nodeSize, seqs, rfl, h, .refl b _⟩
  | succ old ih =>
    rw [shrinkFrom]
    by_cases hgt : old + 1 > order
    swap
    · obtain rfl : order = old + 1 := by omega
      exact ⟨b.lists, b.nodeSize, seqs, if_neg (by omega), h, .refl b _⟩
    have hhalf : 2 ^ (b.minOrderBits + (old + 1)) >>> 1 = 2 ^ (b.minOrderBits + old) := by
      rw [Nat.shiftRight_eq_div_pow, ← add_assoc, pow_succ]
      simp
    have hpos : 0 < 2 ^ (b.minOrderBits + old) := by positivity
    have hd' : 2 ^ (b.minOrderBits + old) ∣ addr := (pow_dvd_pow 2 (by omega)).trans hd
    have hxor : addr ^^^ 2 ^ (b.minOrderBits + old) = addr + 2 ^ (b.minOrderBits + old) :=
      xor_two_pow hd
    -- the two halves in hand, the upper one on top
    have h₁ : Core b hi seqs (⟨addr + 2 ^ (b.minOrderBits + old), 2 ^ (b.minOrderBits + old)⟩ ::
        ⟨addr, 2 ^ (b.minOrderBits + old)⟩ :: held) := by
      refine h.congr_held fun x => ?_
      rw [cover_perm (List.Perm.swap _ _ _), ← cover_cut, ← two_mul, ← pow_succ', add_assoc]
    obtain ⟨L₂, he₂, h₂, hu₂⟩ := nodeNew_spec h₁ hpos (2 ^ (b.minOrderBits + old))
    obtain ⟨L₃, he₃, h₃, hu₃⟩ := pushFront_spec (k := old) h₂ (by show old ≤ b.maxOrder; omega)
      (Function.update_self _ _ _) ((Nat.dvd_add_right hd').2 dvd_rfl)
    obtain ⟨L₄, N₄, seqs₄, he₄, h₄, hu₄⟩ := ih h₃ (by show old ≤ b.maxOrder; omega) hd' (by omega)
    refine ⟨L₄, N₄, seqs₄, ?_, h₄, ?_⟩
    · rw [if_pos hgt, hhalf]
      simp only [hxor, Option.bind_eq_bind, he₂, Option.bind_some, he₃]
      exact he₄
    · have hu := (hu₂ (h.geom.node_le old)).trans hu₃
      refine (hu.inside fun c hc => ?_).trans hu₄
      rcases List.mem_cons.1 hc with rfl | hc
      · refine ⟨_, List.mem_cons_self, le_rfl, Nat.add_le_add_left ?_ _⟩
        exact Nat.pow_le_pow_right (by decide) (by omega)
      · exact ⟨c, List.mem_cons_of_mem _ hc, le_rfl, le_rfl⟩

/-! ### Growing in place -/

/-- **The loop that grows** a block takes the buddies off their lists. -/
theorem takeBuddies_spec (h : Core b hi seqs (⟨addr, 2 ^ (b.minOrderBits + old)⟩ :: held))
    (hd : 2 ^ (b.minOrderBits + old + n) ∣ addr)
    (hbuddies : ∀ i, old ≤ i → i < old + n → addr ^^^ 2 ^ (b.minOrderBits + i) ∈ seqs i) :
    ∃ Ls seqs', b.takeBuddies addr (List.range' old n) = some { b with lists := Ls } ∧
      Core { b with lists := Ls } hi seqs' (⟨addr, 2 ^ (b.minOrderBits + (old + n))⟩ :: held) ∧
      Untouched b { b with lists := Ls } (⟨addr, 2 ^ (b.minOrderBits + old)⟩ :: held) := by
  induction n generalizing b seqs old with
  | zero => exact ⟨b.lists, seqs, rfl, h, .refl b _⟩
  | succ n ih =>
    have hxor : addr ^^^ 2 ^ (b.minOrderBits + old) = addr + 2 ^ (b.minOrderBits + old) :=
      xor_two_pow ((pow_dvd_pow 2 (by omega)).trans hd)
    have hmem := hbuddies old le_rfl (by omega)
    rw [hxor] at hmem
    obtain ⟨L₁, he₁, h₁, hu₁⟩ := removeNode_spec h hmem
    have h₂ : Core { b with lists := L₁ } hi (Function.update seqs old
        ((seqs old).erase (addr + 2 ^ (b.minOrderBits + old))))
        (⟨addr, 2 ^ (b.minOrderBits + (old + 1))⟩ :: held) := by
      refine h₁.congr_held fun x => ?_
      rw [cover_perm (List.Perm.swap _ _ _), ← cover_cut, ← two_mul, ← pow_succ', add_assoc]
    have hd' : 2 ^ (b.minOrderBits + (old + 1) + n) ∣ addr := by
      rwa [show b.minOrderBits + (old + 1) + n = b.minOrderBits + old + (n + 1) by omega]
    have hrest : ∀ i, old + 1 ≤ i → i < old + 1 + n → addr ^^^ 2 ^ (b.minOrderBits + i) ∈
        Function.update seqs old ((seqs old).erase (addr + 2 ^ (b.minOrderBits + old))) i := by
      intro i hi hi'
      rw [Function.update_of_ne (by omega)]
      exact hbuddies i (by omega) (by omega)
    obtain ⟨L₃, seqs₃, he₃, h₃, hu₃⟩ := ih h₂ hd' hrest
    refine ⟨L₃, seqs₃, ?_, ?_, ?_⟩
    · have hnull := asRef_of_ne ((h.lists.repr old).ne_null hmem)
      rw [List.range'_succ, takeBuddies, List.foldlM_cons, getOrderSize_eq, hxor]
      simp only [Option.bind_eq_bind, hnull, Option.bind_some, he₁]
      exact he₃
    · rw [show old + (n + 1) = old + 1 + n by omega]
      exact h₃
    · refine hu₁.trans (hu₃.inside fun c hc => ?_)
      rcases List.mem_cons.1 hc with rfl | hc
      · refine ⟨_, List.mem_cons_self, le_rfl, Nat.add_le_add_left ?_ _⟩
        exact Nat.pow_le_pow_right (by decide) (Nat.add_le_add_left (Nat.le_succ old) _)
      · exact ⟨c, List.mem_cons_of_mem _ hc, le_rfl, le_rfl⟩

/-! ### `orealloc` -/

/-- `orealloc` grows the block in place. -/
def GrowsInPlace (b : BuddyAllocator) (mem : Allocation) (order : ℕ) : Prop :=
  order ≤ b.maxOrder ∧ b.getOrder mem.size < order ∧
    order - b.getOrder mem.size ≤ b.orderExpandCap mem.addr mem.size

instance (b : BuddyAllocator) (mem : Allocation) (order : ℕ) : Decidable (GrowsInPlace b mem order) :=
  inferInstanceAs (Decidable (_ ∧ _ ∧ _))

/-- The buddies that a block would grow over are free blocks of their orders. -/
def Backed (b : BuddyAllocator) (mem : Allocation) (order : ℕ) : Prop :=
  ∀ i < order, b.getOrder mem.size ≤ i → mem.addr ^^^ b.getOrderSize i ∈ b.freeNodes i

instance (b : BuddyAllocator) (mem : Allocation) (order : ℕ) : Decidable (Backed b mem order) :=
  inferInstanceAs (Decidable (∀ i < order, b.getOrder mem.size ≤ i →
    mem.addr ^^^ b.getOrderSize i ∈ b.freeNodes i))

/-- What a reallocation leaves: the block of the new order with the bytes of the old one, the other
live allocations with their bytes. -/
structure Moved (b : BuddyAllocator) (bytes : Bytes) (a : Allocation) (order : ℕ)
    (live : List Allocation) (bytes' : Bytes) (out : Allocation) : Prop where
  size : out.size = 2 ^ (b.minOrderBits + order)
  kept : ∀ i < min a.size out.size, bytes' (out.addr + i) = bytes (a.addr + i)
  others : ∀ c ∈ live, ∀ x, c.Has x → bytes' x = bytes x

/-- A block that stays where it is. -/
theorem Inv.moved_of_untouched (h : Inv b seqs (a :: live)) {c : Block} (hc : c.addr = a.addr)
    (hsize : min a.size (2 ^ (b.minOrderBits + order)) ≤ c.size) (hle : c.size ≤ a.size)
    (hu : Untouched b b' (c :: live)) :
    Moved b bytes a order live (L.write b b' bytes) ⟨a.addr, 2 ^ (b.minOrderBits + order)⟩ := by
  refine ⟨rfl, fun i hi => ?_, fun d hd x hx => ?_⟩
  · obtain ⟨-, hhi, -⟩ := h.live_mem List.mem_cons_self
    simp only at hi ⊢
    exact hu.write_eq List.mem_cons_self ⟨by omega, by omega⟩ (by omega)
  · obtain ⟨-, hhi, -⟩ := h.live_mem (List.mem_cons_of_mem _ hd)
    exact hu.write_eq (List.mem_cons_of_mem _ hd) hx (by omega)

/-- **The move**: a new block, the bytes, and the old block freed. -/
theorem move_spec (L : NodeLayout) (bytes : Bytes) (h : Inv b seqs (a :: live))
    (hk : a.size = 2 ^ (b.minOrderBits + k)) (hlt : k < order) :
    ∃ b₁ out, b.oalloc order = some (b₁, out) ∧ (out = none → b₁ = b) ∧ ∀ r ∈ out,
      a.size ≤ r.size ∧ ∃ b₃ seqs₃,
        (b₁.reload L (copyBytes (L.write b b₁ bytes) a.addr r.addr a.size)
          ⟨r.addr, a.size⟩).dealloc a = some b₃ ∧
        Inv b₃ seqs₃ (r :: live) ∧ Same b b₃ ∧
        Moved b bytes a order live
          (L.write (b₁.reload L (copyBytes (L.write b b₁ bytes) a.addr r.addr a.size)
            ⟨r.addr, a.size⟩) b₃ (copyBytes (L.write b b₁ bytes) a.addr r.addr a.size)) r := by
  obtain ⟨b₁, seqs₁, out, he₁, h₁, hsame₁, hu₁, hsize, hnone, -⟩ := oalloc_spec h order
  refine ⟨b₁, out, he₁, fun ho => (hnone ho).1, fun r hr => ?_⟩
  obtain rfl : out = some r := hr
  have hr := hsize r rfl
  have hle : a.size ≤ r.size := by
    rw [hk, hr]
    exact Nat.pow_le_pow_right (by decide) (by omega)
  rw [Option.toList_some, List.singleton_append] at h₁
  set bytes₂ := copyBytes (L.write b b₁ bytes) a.addr r.addr a.size with hb₂
  have h₂ : Inv (b₁.reload L bytes₂ ⟨r.addr, a.size⟩) seqs₁ (r :: a :: live) :=
    h₁.reload List.mem_cons_self ⟨le_rfl, Nat.add_le_add_left hle _⟩
  obtain ⟨b₃, j, he₃, -, -, -, h₃, hsame₃, hu₃⟩ := dealloc_spec (h₂.perm (List.Perm.swap _ _ _))
  have hsame : Same b₁ b₃ := ⟨hsame₃.1, hsame₃.2, hsame₃.3, hsame₃.4, hsame₃.5⟩
  refine ⟨hle, b₃, _, he₃, h₃, hsame₁.trans hsame, hr, fun i hi => ?_, fun c hc x hx => ?_⟩
  · have hi' : i < a.size := lt_of_lt_of_le hi (min_le_left _ _)
    obtain ⟨-, hrhi, -⟩ := h₂.live_mem List.mem_cons_self
    obtain ⟨-, hahi, -⟩ := h.live_mem List.mem_cons_self
    rw [hu₃.write_eq List.mem_cons_self ⟨by omega, by omega⟩ (by omega), hb₂, copyBytes,
      if_pos (by omega), Nat.add_sub_cancel_left]
    exact hu₁.write_eq List.mem_cons_self ⟨by omega, by omega⟩ (by omega)
  · obtain ⟨-, hchi, -⟩ := h.live_mem (List.mem_cons_of_mem _ hc)
    obtain ⟨-, hchi', -⟩ := h₂.live_mem (List.mem_cons_of_mem _ (List.mem_cons_of_mem _ hc))
    -- the new block is another one
    have hdisj := (packed_iff_pairwise.1 h₁.core.tiles.packed)
    have hrc : ¬ r.Has x := fun hrx => (List.pairwise_cons.1 (List.pairwise_append.1 hdisj).2.1).1 c
      (List.mem_cons_of_mem _ hc) x hrx hx
    rw [hu₃.write_eq (List.mem_cons_of_mem _ hc) hx (by omega), hb₂, copyBytes,
      if_neg (by simp only [Block.Has] at hrc; omega)]
    exact hu₁.write_eq (List.mem_cons_of_mem _ hc) hx (by omega)

/-- A live allocation, with its order, is a block in hand. -/
theorem Inv.core_of_size (h : Inv b seqs (a :: live)) (hsize : a.size = 2 ^ (b.minOrderBits + k)) :
    Core b b.metaStart seqs (⟨a.addr, 2 ^ (b.minOrderBits + k)⟩ :: live) := by
  rw [← hsize]
  exact h.core

/-- **The block gets smaller**, and keeps what fits in it. -/
theorem shrink_spec (L : NodeLayout) (bytes : Bytes) (h : Inv b seqs (a :: live))
    (hk : k ≤ b.maxOrder) (hsize : a.size = 2 ^ (b.minOrderBits + k))
    (hd : 2 ^ (b.minOrderBits + k) ∣ a.addr) (hle : order ≤ k) :
    ∃ Ls N seqs', b.shrinkFrom a.addr order (2 ^ (b.minOrderBits + k)) k
        = some ({ b with lists := Ls, nodeSize := N }, 2 ^ (b.minOrderBits + order)) ∧
      ∀ F, Inv { b with lists := Ls, nodeSize := N, freeSpace := F } seqs'
          (⟨a.addr, 2 ^ (b.minOrderBits + order)⟩ :: live) ∧
        Moved b bytes a order live
          (L.write b { b with lists := Ls, nodeSize := N, freeSpace := F } bytes)
          ⟨a.addr, 2 ^ (b.minOrderBits + order)⟩ := by
  obtain ⟨Ls, N, seqs', he, h', hu⟩ := shrinkFrom_spec (h.core_of_size hsize) hk hd hle
  have hsub : 2 ^ (b.minOrderBits + order) ≤ a.size := by
    rw [hsize]
    exact Nat.pow_le_pow_right (by decide) (by omega)
  refine ⟨Ls, N, seqs', he, fun F => ⟨h.resize h' (by omega) ?_ F, ?_⟩⟩
  · exact (pow_dvd_pow 2 (by omega)).trans hd
  · exact h.moved_of_untouched (c := ⟨a.addr, 2 ^ (b.minOrderBits + order)⟩) rfl
      (min_le_right _ _) hsub hu

/-- A block is aligned for every order up to which it may grow. -/
theorem dvd_of_orderExpandCap (hsize : a.size = 2 ^ (b.minOrderBits + k))
    (hd : 2 ^ (b.minOrderBits + k) ∣ a.addr) (h64 : b.minOrderBits + k + n ≤ 64)
    (hcap : n ≤ b.orderExpandCap a.addr a.size) : 2 ^ (b.minOrderBits + k + n) ∣ a.addr := by
  have hn : n ≤ 64 := by omega
  rw [orderExpandCap, hsize, le_orderExpandCapFrom_iff hn h64] at hcap
  refine dvd_of_expands hd fun i hi => ?_
  have := hcap i hi
  rw [Expands, not_or] at this
  omega

/-- **The block grows over its buddies**, and keeps all its bytes. -/
theorem grow_spec (L : NodeLayout) (bytes : Bytes) (h : Inv b seqs (a :: live))
    (hsize : a.size = 2 ^ (b.minOrderBits + k)) (hd : 2 ^ (b.minOrderBits + k) ∣ a.addr)
    (hcap : n ≤ b.orderExpandCap a.addr a.size) (hn : 0 < n) (hmax : k + n ≤ b.maxOrder)
    (hbuddies : ∀ i, k ≤ i → i < k + n → a.addr ^^^ 2 ^ (b.minOrderBits + i) ∈ seqs i) :
    ∃ Ls seqs', b.takeBuddies a.addr (List.range' k n) = some { b with lists := Ls } ∧
      ∀ F, Inv { b with lists := Ls, freeSpace := F } seqs'
          (⟨a.addr, 2 ^ (b.minOrderBits + (k + n))⟩ :: live) ∧
        Moved b bytes a (k + n) live (L.write b { b with lists := Ls, freeSpace := F } bytes)
          ⟨a.addr, 2 ^ (b.minOrderBits + (k + n))⟩ := by
  -- the last buddy lies below 2 ^ 64
  have h64 : b.minOrderBits + k + n ≤ 64 := by
    have hlast := (h.core.mem_bounds (hbuddies (k + n - 1) (by omega) (by omega))).2
    have hlt : 2 ^ (b.minOrderBits + (k + n - 1)) < 2 ^ 64 := by
      have := h.core.geom.meta_lt
      simp only [usizeMod] at this
      omega
    have := (Nat.pow_lt_pow_iff_right (by decide)).1 hlt
    omega
  have hd' := dvd_of_orderExpandCap hsize hd h64 hcap
  obtain ⟨Ls, seqs', he, h', hu⟩ := takeBuddies_spec (h.core_of_size hsize) hd' hbuddies
  refine ⟨Ls, seqs', he, fun F => ⟨h.resize h' hmax ?_ F, ?_⟩⟩
  · rwa [← add_assoc]
  · exact h.moved_of_untouched (c := ⟨a.addr, 2 ^ (b.minOrderBits + k)⟩) rfl
      (by rw [← hsize]; exact min_le_left _ _) hsize.ge hu

/-- **`orealloc`**, when the buddies that it takes are free blocks of their orders: nothing changes,
or the block has its new size and its bytes. -/
theorem orealloc_spec (L : NodeLayout) (bytes : Bytes) (h : Inv b seqs (a :: live))
    (hc : GrowsInPlace b a order → Backed b a order) :
    ∃ b' bytes' out, b.orealloc L bytes a order = some (b', bytes', out) ∧
      (out = none → b' = b ∧ bytes' = bytes) ∧ ∀ r ∈ out, Same b b' ∧
        (∃ seqs', Inv b' seqs' (r :: live)) ∧ Moved b bytes a order live bytes' r := by
  by_cases hmax : order > b.maxOrder
  · exact ⟨b, bytes, none, by rw [orealloc, if_pos hmax], fun _ => ⟨rfl, rfl⟩, by simp⟩
  obtain ⟨hlo, hhi, hpos, hpage⟩ := h.live_mem List.mem_cons_self
  obtain ⟨k, hk, hsize, hd⟩ := h.live_order a List.mem_cons_self
  rw [hsize] at hd
  have hold := h.getOrder_eq List.mem_cons_self hsize
  have halloc : b.isAlloced a.addr = true :=
    (h.bitmap a.addr hlo (by omega) hpage).2 ⟨a, List.mem_cons_self, rfl⟩
  rw [orealloc, if_neg hmax]
  simp only [hold, halloc, Bool.true_eq_false, if_false]
  rw [if_neg (by omega)]
  rcases lt_trichotomy order k with hlt | rfl | hlt
  · -- the block gets smaller
    rw [if_neg (by omega), if_pos hlt]
    obtain ⟨Ls, N, seqs', he, h'⟩ := shrink_spec L bytes h hk hsize hd hlt.le
    rw [getOrderSize_eq, he]
    refine ⟨_, _, _, rfl, by simp, ?_⟩
    rintro r ⟨rfl⟩
    exact ⟨same_update b _ _ _ _, ⟨seqs', (h' _).1⟩, (h' _).2⟩
  · -- the order stays
    rw [if_pos rfl]
    refine ⟨_, _, _, rfl, by simp, ?_⟩
    rintro r ⟨rfl⟩
    exact ⟨same_update b _ _ _ _, ⟨seqs, h⟩, hsize, fun i _ => rfl, fun _ _ _ _ => rfl⟩
  · rw [if_neg (by omega), if_neg (by omega)]
    by_cases hcap : b.orderExpandCap a.addr a.size ≥ order - k
    · -- the block grows over its buddies
      rw [if_pos hcap]
      have hback := hc ⟨by omega, by omega, by omega⟩
      obtain ⟨n, rfl⟩ : ∃ n, order = k + n := ⟨order - k, by omega⟩
      rw [Nat.add_sub_cancel_left] at hcap ⊢
      obtain ⟨Ls, seqs', he, h'⟩ := grow_spec L bytes h hsize hd hcap (by omega) (by omega)
        fun i hi hi' => by
          have := hback i hi' (by omega)
          rwa [getOrderSize_eq, h.freeNodes_eq] at this
      rw [he]
      refine ⟨_, _, _, rfl, by simp, ?_⟩
      rintro r ⟨rfl⟩
      simp only [getOrderSize_eq]
      exact ⟨same_update b _ _ _ _, ⟨seqs', (h' _).1⟩, (h' _).2⟩
    · -- the block moves
      rw [if_neg hcap]
      obtain ⟨b₁, out, he₁, hnone, hsome⟩ := move_spec L bytes h hsize hlt
      cases out with
      | none => exact ⟨b₁, bytes, none, by simp [he₁], fun _ => ⟨hnone rfl, rfl⟩, by simp⟩
      | some r =>
        obtain ⟨hle, b₃, seqs₃, he₃, h₃, hsame, hmoved⟩ := hsome r rfl
        simp only [he₁, Option.bind_eq_bind, Option.bind_some, if_neg (not_lt.2 hle), he₃]
        refine ⟨_, _, _, rfl, by simp, ?_⟩
        rintro r ⟨rfl⟩
        exact ⟨⟨hsame.1, hsame.2, hsame.3, hsame.4, hsame.5⟩, ⟨seqs₃, h₃.with_freeSpace _⟩, hmoved⟩

end BuddyAllocator
end AuroraOs
