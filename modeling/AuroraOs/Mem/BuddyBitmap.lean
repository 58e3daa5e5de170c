import AuroraOs.Mem.BuddyRun

/-!
# The bitmap in memory

`is_alloced` and `set_is_alloced` go to memory through a pointer behind the managed memory.  `new` takes
the size of the bitmap from the whole region, before it knows where the managed memory ends: the bitmap
is never too small, and what it writes lies between the managed memory and the end of the region.
-/

namespace AuroraOs

open Blocks

namespace BuddyAllocator

section Access

variable (b : BuddyAllocator)

/-- `self.meta_start.add(i / 8)`, where `i` is the number of a page. -/
def bitPtr (addr : ℕ) : Ptr := (b.metaStart + (addr - b.start) / b.minOrderSize / 8) % usizeMod

/-- The bit of the page in that byte. -/
def bitIndex (addr : ℕ) : ℕ := (addr - b.start) / b.minOrderSize % 8

/-- `is_alloced`, on memory. -/
def isAllocedIn (bytes : Bytes) (addr : ℕ) : Bool :=
  if addr < b.start ∨ addr ≥ b.metaStart then false
  else decide (bytes (b.bitPtr addr) &&& (1#8 <<< b.bitIndex addr) > 0)

/-- `set_is_alloced`, on memory. -/
def setIsAllocedIn (bytes : Bytes) (addr : ℕ) (alloced : Bool) : Bytes :=
  if addr < b.start ∨ addr ≥ b.metaStart then bytes
  else
    let ptr := b.bitPtr addr
    let bit := 1#8 <<< b.bitIndex addr
    Function.update bytes ptr (if alloced then bytes ptr ||| bit else bytes ptr &&& ~~~bit)

/-- The allocator with the bitmap that is in memory. -/
def loadBitmap (bytes : Bytes) : BuddyAllocator := { b with bitmap := fun i => bytes (b.metaStart + i) }

/-- A page of the managed memory. -/
structure IsPage (addr : ℕ) : Prop where
  lo : b.start ≤ addr
  hi : addr < b.metaStart
  dvd : b.minOrderSize ∣ addr

/-- The bitmap lies between the managed memory and the end of the region, and has a bit for each page. -/
structure BitmapSafe (endAddr : ℕ) : Prop where
  within : ∀ addr, b.start ≤ addr → addr < b.metaStart →
    b.metaStart ≤ b.bitPtr addr ∧ b.bitPtr addr < endAddr
  distinct : ∀ addr addr', b.IsPage addr → b.IsPage addr' →
    b.bitPtr addr = b.bitPtr addr' → b.bitIndex addr = b.bitIndex addr' → addr = addr'
  reads : ∀ bytes bytes' addr, (∀ x, b.metaStart ≤ x → x < endAddr → bytes x = bytes' x) →
    b.isAllocedIn bytes addr = b.isAllocedIn bytes' addr
  writes : ∀ bytes addr v x, b.setIsAllocedIn bytes addr v x ≠ bytes x → b.metaStart ≤ x ∧ x < endAddr
  keeps : ∀ bytes addr addr' v, b.IsPage addr → b.IsPage addr' →
    b.isAllocedIn (b.setIsAllocedIn bytes addr v) addr' =
      if addr' = addr then v else b.isAllocedIn bytes addr'

end Access

variable {b b' : BuddyAllocator} {endAddr addr addr' : ℕ}

/-! ### Memory and the bitmap of the allocator -/

/-- The bytes of the bitmap do not reach the end of the region. -/
def Fits (b : BuddyAllocator) (endAddr : ℕ) : Prop :=
  endAddr < usizeMod ∧ ∀ addr, b.start ≤ addr → addr < b.metaStart →
    b.metaStart + (addr - b.start) / b.minOrderSize / 8 < endAddr

theorem Fits.bitPtr_eq (h : b.Fits endAddr) (hlo : b.start ≤ addr) (hhi : addr < b.metaStart) :
    b.bitPtr addr = b.metaStart + (addr - b.start) / b.minOrderSize / 8 :=
  Nat.mod_eq_of_lt ((h.2 addr hlo hhi).trans h.1)

theorem Fits.isAllocedIn_eq (h : b.Fits endAddr) (bytes : Bytes) (addr : ℕ) :
    b.isAllocedIn bytes addr = (b.loadBitmap bytes).isAlloced addr := by
  by_cases hc : addr < b.start ∨ addr ≥ b.metaStart
  · rw [isAllocedIn, if_pos hc]
    exact (if_pos hc).symm
  · obtain ⟨hlo, hhi⟩ := not_or.1 hc
    rw [isAllocedIn, if_neg hc, h.bitPtr_eq (not_lt.1 hlo) (not_le.1 hhi)]
    exact (if_neg hc).symm

theorem Fits.loadBitmap_setIsAllocedIn (h : b.Fits endAddr) (bytes : Bytes) (addr : ℕ) (v : Bool) :
    b.loadBitmap (b.setIsAllocedIn bytes addr v) = (b.loadBitmap bytes).setIsAlloced addr v := by
  by_cases hc : addr < b.start ∨ addr ≥ b.metaStart
  · rw [setIsAllocedIn, if_pos hc]
    exact (if_pos hc).symm
  · obtain ⟨hlo, hhi⟩ := not_or.1 hc
    rw [setIsAllocedIn, if_neg hc, h.bitPtr_eq (not_lt.1 hlo) (not_le.1 hhi)]
    refine Eq.trans ?_ (if_neg hc).symm
    -- a byte is written in memory where the bitmap has it
    simp only [loadBitmap, BuddyAllocator.mk.injEq, true_and, and_true]
    funext i
    simp only [Function.update_apply, Nat.add_left_cancel_iff]
    rfl

theorem Fits.bitmapSafe (h : b.Fits endAddr) (hgeom : Geometry b) : b.BitmapSafe endAddr := by
  have hinj : ∀ addr addr', b.IsPage addr → b.IsPage addr' →
      (addr' - b.start) / b.minOrderSize = (addr - b.start) / b.minOrderSize → addr' = addr := by
    intro addr addr' hp hp' heq
    exact hgeom.page_inj hp.lo hp'.lo hp.dvd hp'.dvd heq
  constructor
  · intro addr hlo hhi
    rw [h.bitPtr_eq hlo hhi]
    exact ⟨Nat.le_add_right _ _, h.2 addr hlo hhi⟩
  · intro addr addr' hp hp' hptr hindex
    rw [h.bitPtr_eq hp.lo hp.hi, h.bitPtr_eq hp'.lo hp'.hi] at hptr
    have hdiv := Nat.add_left_cancel hptr
    unfold bitIndex at hindex
    refine hinj addr' addr hp' hp ?_
    rw [← Nat.div_add_mod ((addr - b.start) / b.minOrderSize) 8, hdiv, hindex, Nat.div_add_mod]
  · intro bytes bytes' addr hsame
    by_cases hc : addr < b.start ∨ addr ≥ b.metaStart
    · rw [isAllocedIn, isAllocedIn, if_pos hc, if_pos hc]
    · obtain ⟨hlo, hhi⟩ := not_or.1 hc
      have hlt := h.2 addr (not_lt.1 hlo) (not_le.1 hhi)
      rw [isAllocedIn, isAllocedIn, if_neg hc, if_neg hc, h.bitPtr_eq (not_lt.1 hlo) (not_le.1 hhi),
        hsame _ (Nat.le_add_right _ _) hlt]
  · intro bytes addr v x hne
    by_cases hc : addr < b.start ∨ addr ≥ b.metaStart
    · rw [setIsAllocedIn, if_pos hc] at hne
      exact absurd rfl hne
    · obtain ⟨hlo, hhi⟩ := not_or.1 hc
      have hlt := h.2 addr (not_lt.1 hlo) (not_le.1 hhi)
      have hx : x = b.bitPtr addr := by
        by_contra hx
        rw [setIsAllocedIn, if_neg hc] at hne
        exact hne (Function.update_of_ne hx _ _)
      rw [hx, h.bitPtr_eq (not_lt.1 hlo) (not_le.1 hhi)]
      exact ⟨Nat.le_add_right _ _, hlt⟩
  · intro bytes addr addr' v hp hp'
    rw [h.isAllocedIn_eq, h.loadBitmap_setIsAllocedIn, h.isAllocedIn_eq]
    exact isAlloced_setIsAlloced (b := b.loadBitmap bytes) hp.lo hp.hi hp'.lo hp'.hi
      (hinj addr addr' hp hp')

/-! ### What `new` leaves -/

theorem Geometry.same (h : Geometry b) (hs : Same b b') : Geometry b' := by
  obtain ⟨hstart, hmeta, hsize, hbits, hmax⟩ := hs
  constructor
  · rw [hstart, hmeta]
    exact h.start_pos
  · rw [hbits]
    exact h.le_bits
  · rw [hsize, hbits]
    exact h.size_eq
  · rw [hsize, hstart]
    exact h.dvd_start
  · rw [hsize, hmeta]
    exact h.dvd_meta
  · rw [hstart, hmeta]
    exact h.start_le
  · rw [hmeta]
    exact h.meta_lt
  · rw [hmax]
    exact h.maxOrder_lt

theorem Fits.same (h : b.Fits endAddr) (hs : Same b b') : b'.Fits endAddr := by
  unfold Fits
  rw [hs.start, hs.metaStart, hs.minOrderSize]
  exact h

section New

variable {A : AlignVirt} {mem : NodeMem} {sizes : Ptr → ℕ} {bytes : ℕ → BitVec 8}
  {startAddr minOrderSize : ℕ} {seqs : ℕ → List Ptr} {held : List Block} {hi k p : ℕ}

theorem LaidOut.fits (h : LaidOut A bytes startAddr endAddr minOrderSize b) (hend : endAddr < usizeMod) :
    b.Fits endAddr := by
  refine ⟨hend, fun addr hlo hhi => ?_⟩
  have hbyte := h.byte_lt hhi
  have hmeta := h.meta_le
  omega

/-- After `memset` the bitmap in memory is the one that `new` gives the allocator. -/
theorem LaidOut.cleared (h : LaidOut A bytes startAddr endAddr minOrderSize b) (hend : endAddr < usizeMod)
    (m : Bytes) (addr : ℕ) : b.isAllocedIn (memset m b.metaStart (b.metaSize endAddr) 0) addr = false := by
  by_cases hc : addr < b.start ∨ addr ≥ b.metaStart
  · exact if_pos hc
  · obtain ⟨hlo, hhi⟩ := not_or.1 hc
    have hbyte := h.byte_lt (not_le.1 hhi)
    rw [isAllocedIn, if_neg hc, (h.fits hend).bitPtr_eq (not_lt.1 hlo) (not_le.1 hhi), memset_apply,
      if_pos ⟨Nat.le_add_right _ _, Nat.add_lt_add_left hbyte _⟩]
    simp

/-- The nodes on the lists end before the bitmap. -/
theorem Core.node_end (h : Core b hi seqs held) (hp : p ∈ seqs k) :
    b.start ≤ p ∧ p + NODE_SIZE ≤ b.metaStart := by
  have hmem : (⟨p, 2 ^ (b.minOrderBits + k)⟩ : Block) ∈ freeBlocks b.minOrderBits seqs :=
    mem_freeBlocks.2 ⟨k, (h.order_lt hp).trans_lt h.geom.maxOrder_lt, hp, rfl⟩
  obtain ⟨hlo, hhi⟩ := h.tiles.subset (List.mem_append_left _ hmem) (by positivity)
  have hnode := h.geom.node_le k
  have hle := h.hi_le
  exact ⟨hlo, by simp only at hhi; omega⟩

/-- **The bitmap**: `new` clears it without writing to the managed memory, the nodes of its lists end
before it, and whatever the bitmap and the lists are later on, `is_alloced` and `set_is_alloced` stay
within it, and each page has a bit of its own. -/
theorem new_bitmapSafe (hend : endAddr < usizeMod)
    (hnew : new A mem sizes bytes startAddr endAddr minOrderSize = some b) :
    b.minOrderSize = max (alignUp minOrderSize PAGE_SIZE) PAGE_SIZE ∧
      (∀ m x, memset m b.metaStart (b.metaSize endAddr) 0 x ≠ m x → b.metaStart ≤ x ∧ x < endAddr) ∧
      (∀ m addr, b.isAllocedIn (memset m b.metaStart (b.metaSize endAddr) 0) addr = false) ∧
      (∃ seqs, LinkedList.Inv b.lists seqs ∧
        ∀ k, ∀ p ∈ seqs k, b.start ≤ p ∧ p + NODE_SIZE ≤ b.metaStart) ∧
      ∀ b', Same b b' → b'.BitmapSafe endAddr ∧
        (∀ m addr, b'.isAllocedIn m addr = (b'.loadBitmap m).isAlloced addr) ∧
        ∀ m addr v, b'.loadBitmap (b'.setIsAllocedIn m addr v) = (b'.loadBitmap m).setIsAlloced addr v := by
  obtain ⟨hlaid, seqs, hcore, -, -⟩ := new_laidOut hend hnew
  have hfits := hlaid.fits hend
  refine ⟨hlaid.size_eq, fun m x hne => ?_, hlaid.cleared hend,
    ⟨seqs, hcore.lists, fun k p hp => hcore.node_end hp⟩, fun b' hs => ?_⟩
  · have hmeta := hlaid.meta_le
    have hx : b.metaStart ≤ x ∧ x < b.metaStart + b.metaSize endAddr := by
      by_contra hx
      rw [memset_apply, if_neg hx] at hne
      exact hne rfl
    omega
  · exact ⟨(hfits.same hs).bitmapSafe (hcore.geom.same hs), (hfits.same hs).isAllocedIn_eq,
      (hfits.same hs).loadBitmap_setIsAllocedIn⟩

/-- A region that neither begins nor ends at a page. -/
theorem new_bitmapSafe_unaligned :
    ∃ b, new alignVirt (fun _ => ⟨7, 7⟩) (fun _ => 7) (fun _ => 7) 12000 40000 1 = some b ∧
      b.BitmapSafe 40000 ∧
      ∀ addr, b.isAllocedIn (memset (fun _ => 7) b.metaStart (b.metaSize 40000) 0) addr = false := by
  have hsome : (new alignVirt (fun _ => ⟨7, 7⟩) (fun _ => 7) (fun _ => 7) 12000 40000 1).isSome := by
    decide +kernel
  obtain ⟨b, hb⟩ := Option.isSome_iff_exists.1 hsome
  obtain ⟨-, -, hclear, -, hsafe⟩ := new_bitmapSafe (by decide : 40000 < usizeMod) hb
  exact ⟨b, hb, (hsafe b (same_update b _ _ _ _)).1, hclear _⟩

end New

end BuddyAllocator
end AuroraOs
