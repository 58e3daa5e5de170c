import AuroraOs.Mem.VirtLayout

/-!
# Page tables

`PageTablePointer` and `PageTable` of `kernel/src/mem/virt_alloc.rs`.  A table is 512 words, of which one
that has bit 0 set is an entry.  The number of entries is kept in bits 52 to 62 of the first word, which is
an entry itself: `set` overwrites it.

A table is named by the physical address of its frame; `phys_to_virt` and `virt_to_phys` go from there to
the reference and back.
-/

namespace AuroraOs

open PageTableFlags

namespace PageTableFlags

def HUGE : PageTableFlags := 1 <<< 7
def GLOBAL : PageTableFlags := 1 <<< 8

/-- `PARENT_FLAGS`. -/
def PARENT_FLAGS : PageTableFlags := PRESENT ||| WRITABLE ||| USER

end PageTableFlags

/-- `PAGE_ADDR_BITMASK`. -/
def PAGE_ADDR_BITMASK : BitVec 64 := 0x000ffffffffff000

/-- `PageTablePointer`. -/
abbrev PageTablePointer := BitVec 64

namespace PageTablePointer

/-- `new`. -/
def new (addr : ℕ) (flags : PageTableFlags) : PageTablePointer := BitVec.ofNat 64 addr ||| flags

/-- The physical address in a word. -/
def addr (self : PageTablePointer) : ℕ := (self &&& PAGE_ADDR_BITMASK).toNat

/-- `as_ref` and `as_mut`. -/
def asRef (self : PageTablePointer) : Option ℕ := if self &&& PRESENT = 0 then none else some self.addr

end PageTablePointer

/-- `PageTable`. -/
abbrev PageTable := Fin 512 → PageTablePointer

instance neZero_512 : NeZero 512 := ⟨by decide⟩

namespace PageTable

/-- `count`. -/
def count (self : PageTable) : ℕ := getBits (self 0).toNat 52 63

/-- `set_count`. -/
def setCount (self : PageTable) (n : ℕ) : PageTable :=
  let n := getBits n 0 11
  let ptrNoCount := self 0 &&& 0x800fffffffffffff
  Function.update self 0 (ptrNoCount ||| BitVec.ofNat 64 (n <<< 52))

/-- `inc_count`. -/
def incCount (self : PageTable) (n : ℤ) : PageTable := self.setCount ((self.count + n) % usizeMod).toNat

/-- `present`. -/
def present (self : PageTable) (index : Fin 512) : Bool := self index &&& PRESENT != 0

/-- `set`; `none` is the failed assertion. -/
def set (self : PageTable) (index : Fin 512) (ptr : PageTablePointer) : Option PageTable :=
  if self.present index then none else some (incCount (Function.update self index ptr) 1)

/-- What `remove` does to the words of the table. -/
def unset (self : PageTable) (index : Fin 512) : PageTable :=
  incCount (Function.update self index (self index &&& ~~~PRESENT)) (-1)

end PageTable

/-- `FrameAllocator`; frames are physical addresses. -/
structure FrameAllocator (ρ : Type) where
  allocFrame : ρ → Option (ρ × ℕ)
  deallocFrame : ρ → ℕ → Option ρ

/-- The memory that page tables are in, and the state of the frame allocator. -/
structure PageMem (ρ : Type) where
  table : ℕ → PageTable
  frames : ρ

namespace PageMem

variable {ρ : Type} (F : FrameAllocator ρ) (s : PageMem ρ)

/-- A table changes. -/
def write (frame : ℕ) (t : PageTable) : PageMem ρ := { s with table := Function.update s.table frame t }

/-- `PageTable::new`. -/
def newTable (flags : PageTableFlags) (dropable : Bool) : Option (PageMem ρ × PageTablePointer) := do
  let (frames, frame) ← F.allocFrame s.frames
  let s := PageMem.write ⟨s.table, frames⟩ frame fun _ => 0
  let out := PageTablePointer.new frame (flags ||| PRESENT)
  if dropable then some (s, out)
  else do
    let table ← out.asRef
    some (s.write table ((s.table table).setCount 1), out)

/-- `set`. -/
def set (frame : ℕ) (index : Fin 512) (ptr : PageTablePointer) : Option (PageMem ρ) := do
  some (s.write frame (← (s.table frame).set index ptr))

/-- `get`; `none` is the `unwrap` that fails. -/
def get (frame : ℕ) (index : Fin 512) : Option ℕ := (s.table frame index).asRef

/-- `get_or_alloc`. -/
def getOrAlloc (frame : ℕ) (index : Fin 512) (flags : PageTableFlags) : Option (PageMem ρ × ℕ) :=
  if (s.table frame).present index then (s.get frame index).map fun table => (s, table)
  else do
    let (s, out) ← s.newTable F flags true
    let s ← s.set frame index out
    some (s, ← out.asRef)

/-- `free_if_empty`. -/
def freeIfEmpty (frame : ℕ) : Option (PageMem ρ × Bool) :=
  if (s.table frame).count = 0 then do
    let frames ← F.deallocFrame s.frames frame
    some (⟨s.table, frames⟩, true)
  else some (s, false)

/-- `remove`. -/
def remove (frame : ℕ) (index : Fin 512) : Option (PageMem ρ × Bool) :=
  if (s.table frame).present index then
    (s.write frame ((s.table frame).unset index)).freeIfEmpty F frame
  else some (s, false)

/-- The loop of `map_internal` that maps a frame, from a table on. -/
def mapFrom (ptr : PageTablePointer) : PageMem ρ → ℕ → List (Fin 512) → Option (PageMem ρ)
  | s, _, [] => some s
  | s, frame, [index] => s.set frame index ptr
  | s, frame, index :: path => do
      let (s, table) ← s.getOrAlloc F frame index PARENT_FLAGS
      mapFrom ptr s table path

/-- The loops of `map_internal` that unmap a frame: down through the tables, and back up as long as
they are dropped. -/
def unmapFrom : PageMem ρ → ℕ → List (Fin 512) → Option (PageMem ρ × Bool)
  | s, _, [] => some (s, false)
  | s, frame, [index] => s.remove F frame index
  | s, frame, index :: path => do
      let table ← s.get frame index
      let (s, dropped) ← unmapFrom s table path
      if dropped then s.remove F frame index else some (s, false)

end PageMem

/-! ### Words -/

/-- A word without the count. -/
def withoutCount (w : PageTablePointer) : PageTablePointer := w &&& 0x800fffffffffffff

/-- The count in a word. -/
def wordCount (w : PageTablePointer) : ℕ := w.toNat / 2 ^ 52 % 2 ^ 11

section Words

variable {w : PageTablePointer} {n : ℕ}

/-- What a mask takes from a word, it takes from the word without the count. -/
theorem withoutCount_and {mask : BitVec 64} (h : 0x800fffffffffffff &&& mask = mask) :
    withoutCount w &&& mask = w &&& mask := by
  rw [withoutCount, BitVec.and_assoc, h]

theorem withoutCount_withoutCount : withoutCount (withoutCount w) = withoutCount w :=
  withoutCount_and (by decide)

theorem getLsbD_mask (i : ℕ) :
    (0x800fffffffffffff : BitVec 64).getLsbD i = (decide (i < 52) || decide (i = 63)) := by
  rcases Nat.lt_or_ge i 64 with hlt | hge
  · have hall : ∀ j : Fin 64,
        (0x800fffffffffffff : BitVec 64).getLsbD j = (decide (j.val < 52) || decide (j.val = 63)) := by
      decide
    exact hall ⟨i, hlt⟩
  · rw [BitVec.getLsbD_of_ge _ _ hge, decide_eq_false (by omega), decide_eq_false (by omega)]
    rfl

theorem getLsbD_shifted (hn : n < 2 ^ 11) (i : ℕ) :
    (BitVec.ofNat 64 (n <<< 52)).getLsbD i = (decide (52 ≤ i) && n.testBit (i - 52)) := by
  rw [BitVec.getLsbD_ofNat, Nat.testBit_shiftLeft]
  rcases Nat.lt_or_ge i 64 with hlt | hge
  · simp [hlt]
  · rw [Nat.testBit_lt_two_pow (hn.trans_le (Nat.pow_le_pow_right (by decide) (show 11 ≤ i - 52 by omega)))]
    simp

theorem withoutCount_shifted (hn : n < 2 ^ 11) : withoutCount (BitVec.ofNat 64 (n <<< 52)) = 0 := by
  refine BitVec.eq_of_getLsbD_eq fun i hi => ?_
  rw [withoutCount, BitVec.getLsbD_and, getLsbD_mask, getLsbD_shifted hn]
  rcases eq_or_ne i 63 with rfl | hne
  · rw [Nat.testBit_lt_two_pow hn]
    rfl
  · by_cases h : i < 52
    · simp [h, not_le.2 h]
    · simp [h, hne]

theorem withoutCount_or {v : PageTablePointer} : withoutCount (w ||| v) = withoutCount w ||| withoutCount v :=
  BitVec.and_or_distrib_right

/-- `set_count` puts the count in the word. -/
theorem withoutCount_counted (hn : n < 2 ^ 11) :
    withoutCount (withoutCount w ||| BitVec.ofNat 64 (n <<< 52)) = withoutCount w := by
  rw [withoutCount_or, withoutCount_withoutCount, withoutCount_shifted hn]
  exact BitVec.or_zero

theorem testBit_wordCount (i : ℕ) : (wordCount w).testBit i = (decide (i < 11) && w.getLsbD (i + 52)) := by
  rw [wordCount, Nat.testBit_mod_two_pow, Nat.testBit_div_two_pow]
  rfl

theorem wordCount_lt : wordCount w < 2 ^ 11 := Nat.mod_lt _ (by decide)

theorem wordCount_counted (hn : n < 2 ^ 11) :
    wordCount (withoutCount w ||| BitVec.ofNat 64 (n <<< 52)) = n := by
  refine Nat.eq_of_testBit_eq fun i => ?_
  rw [testBit_wordCount, BitVec.getLsbD_or, withoutCount, BitVec.getLsbD_and, getLsbD_mask, getLsbD_shifted hn]
  rcases Nat.lt_or_ge i 11 with hlt | hge
  · simp [hlt, show i + 52 ≠ 63 by omega]
  · rw [Nat.testBit_lt_two_pow (hn.trans_le (Nat.pow_le_pow_right (by decide) hge))]
    simp [not_lt.2 hge]

/-- Clearing the bit of an entry leaves the count. -/
theorem wordCount_absent : wordCount (w &&& ~~~PRESENT) = wordCount w := by
  refine Nat.eq_of_testBit_eq fun i => ?_
  rw [testBit_wordCount, testBit_wordCount, BitVec.getLsbD_and]
  rcases Nat.lt_or_ge i 11 with hlt | hge
  · have hbit : ∀ j : Fin 11, (~~~PRESENT).getLsbD (j.val + 52) = true := by decide
    rw [hbit ⟨i, hlt⟩, Bool.and_true]
  · simp [not_lt.2 hge]

/-- A word that has nothing in the bits of the address and of the count. -/
def IsFlags (flags : PageTableFlags) : Prop := flags &&& 0x7ffffffffffff000 = 0

/-- The address of a frame. -/
structure IsFrame (f : ℕ) : Prop where
  dvd : PAGE_SIZE ∣ f
  lt : f < 2 ^ 52

instance (flags : PageTableFlags) : Decidable (IsFlags flags) := inferInstanceAs (Decidable (_ = _))

variable {f : ℕ} {flags mask : BitVec 64}

/-- The bits of an address are those of the mask. -/
theorem IsFrame.and_bitmask (h : IsFrame f) : BitVec.ofNat 64 f &&& PAGE_ADDR_BITMASK = BitVec.ofNat 64 f := by
  have hmask : ∀ j : Fin 64, PAGE_ADDR_BITMASK.getLsbD j = (decide (12 ≤ j.val) && decide (j.val < 52)) := by
    decide
  obtain ⟨q, hq⟩ := h.dvd
  refine BitVec.eq_of_getLsbD_eq fun i hi => ?_
  rw [BitVec.getLsbD_and, hmask ⟨i, hi⟩, BitVec.getLsbD_ofNat]
  rcases Nat.lt_or_ge i 12 with hlow | hge
  · have hbit : f.testBit i = false := by
      rw [hq, show PAGE_SIZE = 2 ^ 12 from rfl, Nat.testBit_two_pow_mul, decide_eq_false (not_le.2 hlow)]
      rfl
    rw [hbit, Bool.and_false]
    rfl
  · rcases Nat.lt_or_ge i 52 with hlt | hhigh
    · simp [hge, hlt]
    · rw [Nat.testBit_lt_two_pow (h.lt.trans_le (Nat.pow_le_pow_right (by decide) hhigh)), Bool.and_false]
      rfl

/-- A mask within the address takes it, and one apart from it takes nothing of it. -/
theorem IsFrame.and_mask (h : IsFrame f) :
    BitVec.ofNat 64 f &&& mask = BitVec.ofNat 64 f &&& (PAGE_ADDR_BITMASK &&& mask) := by
  rw [← BitVec.and_assoc, h.and_bitmask]

theorem IsFlags.and_mask (h : IsFlags flags) : flags &&& mask = flags &&& (0x8000000000000fff &&& mask) := by
  have hkeep : flags &&& 0x8000000000000fff = flags := by
    have hall : flags &&& (0x7ffffffffffff000 ||| 0x8000000000000fff) = flags := BitVec.and_allOnes
    rw [BitVec.and_or_distrib_left, h] at hall
    exact (BitVec.zero_or).symm.trans hall
  rw [← BitVec.and_assoc, hkeep]

/-- A mask apart from the address takes the flags. -/
theorem IsFrame.new_and (h : IsFrame f) (hmask : PAGE_ADDR_BITMASK &&& mask = 0) :
    PageTablePointer.new f flags &&& mask = flags &&& mask := by
  rw [PageTablePointer.new, BitVec.and_or_distrib_right, h.and_mask, hmask]
  exact (congrArg (· ||| flags &&& mask) BitVec.and_zero).trans BitVec.zero_or

/-- The address in a word that `new` makes. -/
theorem IsFrame.addr_new (h : IsFrame f) (hflags : IsFlags flags) : (PageTablePointer.new f flags).addr = f := by
  have hlt := h.lt
  have hword : PageTablePointer.new f flags &&& PAGE_ADDR_BITMASK = BitVec.ofNat 64 f := by
    rw [PageTablePointer.new, BitVec.and_or_distrib_right, h.and_bitmask, hflags.and_mask]
    exact (congrArg (BitVec.ofNat 64 f ||| ·) BitVec.and_zero).trans BitVec.or_zero
  rw [PageTablePointer.addr, hword, BitVec.toNat_ofNat, Nat.mod_eq_of_lt (by omega)]

/-- Nothing is in the bits of the count. -/
theorem IsFrame.withoutCount_new (h : IsFrame f) (hflags : IsFlags flags) :
    withoutCount (PageTablePointer.new f flags) = PageTablePointer.new f flags := by
  have hf : withoutCount (BitVec.ofNat 64 f) = BitVec.ofNat 64 f := by
    rw [withoutCount, h.and_mask]
    exact h.and_bitmask
  have hfl : withoutCount flags = flags := by
    rw [withoutCount, hflags.and_mask]
    exact (@IsFlags.and_mask flags (BitVec.allOnes 64) hflags).symm.trans BitVec.and_allOnes
  rw [PageTablePointer.new, withoutCount_or, hf, hfl]

/-- A word that is an entry, without a count. -/
structure IsEntry (w : PageTablePointer) : Prop where
  present : w &&& PRESENT ≠ 0
  withoutCount_eq : withoutCount w = w

instance (w : PageTablePointer) : Decidable (IsEntry w) :=
  decidable_of_iff (w &&& PRESENT ≠ 0 ∧ withoutCount w = w) ⟨fun h => ⟨h.1, h.2⟩, fun h => ⟨h.1, h.2⟩⟩

theorem IsEntry.wordCount_eq (h : IsEntry w) : wordCount w = 0 := by
  refine Nat.eq_of_testBit_eq fun i => ?_
  rw [testBit_wordCount, ← h.withoutCount_eq, withoutCount, BitVec.getLsbD_and, getLsbD_mask, Nat.zero_testBit]
  rcases Nat.lt_or_ge i 11 with hlt | hge
  · simp [show i + 52 ≠ 63 by omega]
  · simp [not_lt.2 hge]

theorem present_or : (flags ||| PRESENT) &&& PRESENT ≠ 0 := by
  intro h
  have hbit : ((flags ||| PRESENT) &&& PRESENT).getLsbD 0 = true := by
    rw [BitVec.getLsbD_and, BitVec.getLsbD_or, show PRESENT.getLsbD 0 = true by decide, Bool.or_true,
      Bool.and_true]
  rw [h] at hbit
  exact absurd hbit (by decide)

theorem IsFlags.present (h : IsFlags flags) : IsFlags (flags ||| PRESENT) := by
  unfold IsFlags at h ⊢
  rw [BitVec.and_or_distrib_right, h]
  decide

theorem IsFrame.isEntry_new (h : IsFrame f) (hflags : IsFlags flags) (hpresent : flags &&& PRESENT ≠ 0) :
    IsEntry (PageTablePointer.new f flags) where
  present := by rwa [h.new_and (by decide)]
  withoutCount_eq := h.withoutCount_new hflags

end Words

/-! ### The entries of a table and their count -/

namespace PageTable

variable {t t' : PageTable} {i : Fin 512} {ptr : PageTablePointer} {n : ℕ}

/-- The entries, without the count. -/
def entry (self : PageTable) (index : Fin 512) : Option PageTablePointer :=
  if self.present index then some (withoutCount (self index)) else none

theorem count_eq (t : PageTable) : t.count = wordCount (t 0) := getBits_eq (by decide) (by decide)

theorem setCount_eq (t : PageTable) (n : ℕ) : t.setCount n =
    Function.update t 0 (withoutCount (t 0) ||| BitVec.ofNat 64 ((n % 2 ^ 11) <<< 52)) := by
  rw [setCount, getBits_eq (by decide) (by decide), Nat.pow_zero, Nat.div_one]
  rfl

theorem present_withoutCount {w : PageTablePointer} : withoutCount w &&& PRESENT = w &&& PRESENT :=
  withoutCount_and (by decide)

@[simp] theorem entry_setCount : (t.setCount n).entry = t.entry := by
  funext i
  have hlt : n % 2 ^ 11 < 2 ^ 11 := Nat.mod_lt _ (by decide)
  rw [setCount_eq]
  unfold entry present
  rcases eq_or_ne i 0 with rfl | hne
  · rw [Function.update_self, withoutCount_counted hlt, ← present_withoutCount, withoutCount_counted hlt,
      present_withoutCount]
  · rw [Function.update_of_ne hne]

@[simp] theorem count_setCount : (t.setCount n).count = n % 2 ^ 11 := by
  rw [count_eq, setCount_eq, Function.update_self, wordCount_counted (Nat.mod_lt _ (by decide))]

theorem count_lt (t : PageTable) : t.count < 2 ^ 11 := by
  rw [count_eq]
  exact wordCount_lt

theorem entry_update {w : PageTablePointer} : entry (Function.update t i w) =
    Function.update t.entry i (if w &&& PRESENT != 0 then some (withoutCount w) else none) := by
  funext j
  unfold entry present
  rcases eq_or_ne j i with rfl | hne
  · rw [Function.update_self, Function.update_self]
  · rw [Function.update_of_ne hne, Function.update_of_ne hne]

theorem count_update {w : PageTablePointer} :
    count (Function.update t i w) = if i = 0 then wordCount w else t.count := by
  rw [count_eq, count_eq]
  split_ifs with h
  · rw [h, Function.update_self]
  · rw [Function.update_of_ne (Ne.symm h)]

theorem entry_incCount {n : ℤ} : (t.incCount n).entry = t.entry := entry_setCount

theorem count_incCount_one : (t.incCount 1).count = (t.count + 1) % 2 ^ 11 := by
  have hlt := t.count_lt
  have hmod : (usizeMod : ℤ) = 2 ^ 64 := rfl
  rw [incCount, count_setCount, Int.emod_eq_of_lt (by omega) (by omega)]
  rfl

/-- One less than no entries is all the bits of the count. -/
theorem count_incCount_neg : (t.incCount (-1)).count = if t.count = 0 then 2 ^ 11 - 1 else t.count - 1 := by
  have hlt := t.count_lt
  have hmod : (usizeMod : ℤ) = 2 ^ 64 := rfl
  rw [incCount, count_setCount]
  split_ifs with h
  · rw [h]
    decide
  · rw [Int.emod_eq_of_lt (by omega) (by omega), Nat.mod_eq_of_lt (by omega)]
    omega

theorem present_iff : t.present i = true ↔ ∃ w, t.entry i = some w := by
  unfold entry
  split_ifs with h <;> simp [h]

/-- `set` adds an entry. -/
theorem set_spec (hptr : IsEntry ptr) (h : t.set i ptr = some t') : t.entry i = none ∧
    t'.entry = Function.update t.entry i (some ptr) ∧
      t'.count = ((if i = 0 then 0 else t.count) + 1) % 2 ^ 11 := by
  unfold set at h
  split_ifs at h with hpresent
  obtain rfl := Option.some.inj h
  refine ⟨by rw [entry, if_neg hpresent], ?_, ?_⟩
  · rw [entry_incCount, entry_update, if_pos (by simpa using hptr.present), hptr.withoutCount_eq]
  · rw [count_incCount_one, count_update, hptr.wordCount_eq]

/-- An entry that `remove` clears. -/
theorem entry_unset : (t.unset i).entry = Function.update t.entry i none := by
  have hclear : (t i &&& ~~~PRESENT) &&& PRESENT = 0 := by
    rw [BitVec.and_assoc, show ~~~PRESENT &&& PRESENT = 0 by decide]
    exact BitVec.and_zero
  rw [unset, entry_incCount, entry_update, hclear]
  rfl

theorem count_unset : (t.unset i).count = if t.count = 0 then 2 ^ 11 - 1 else t.count - 1 := by
  have hsame : count (Function.update t i (t i &&& ~~~PRESENT)) = t.count := by
    rw [count_update]
    split_ifs with hi
    · rw [hi, wordCount_absent, count_eq]
    · rfl
  rw [unset, count_incCount_neg, hsame]

/-- The entry of a table that counts one entry is the last one. -/
theorem count_unset_eq_zero_iff : (t.unset i).count = 0 ↔ t.count = 1 := by
  rw [count_unset]
  split_ifs with h
  · exact iff_of_false (by decide) (by omega)
  · exact Nat.sub_eq_iff_eq_add (Nat.pos_of_ne_zero h)

/-- The address in a word is that in its entry. -/
theorem asRef_of_entry {w : PageTablePointer} (h : t.entry i = some w) :
    PageTablePointer.asRef (t i) = some w.addr := by
  unfold entry present at h
  split_ifs at h with hpresent
  obtain rfl := Option.some.inj h
  have hne : t i &&& PRESENT ≠ 0 := by simpa using hpresent
  rw [PageTablePointer.asRef, if_neg hne, PageTablePointer.addr, PageTablePointer.addr,
    withoutCount_and (by decide)]

theorem asRef_of_absent (h : t.entry i = none) : PageTablePointer.asRef (t i) = none := by
  unfold entry present at h
  split_ifs at h with hpresent
  rw [PageTablePointer.asRef, if_pos (by simpa using hpresent)]

theorem isEntry_of_entry {w : PageTablePointer} (h : t.entry i = some w) : IsEntry w := by
  unfold entry present at h
  split_ifs at h with hpresent
  obtain rfl := Option.some.inj h
  exact ⟨by rw [present_withoutCount]; simpa using hpresent, withoutCount_withoutCount⟩

/-- A new table. -/
def cleared (dropable : Bool) : PageTable := if dropable then fun _ => 0 else setCount (fun _ => 0) 1

theorem entry_cleared {dropable : Bool} : (cleared dropable).entry = fun _ => none := by
  have hzero : entry (fun _ => 0) = fun _ => none := by
    funext i
    have hnot : ¬ ((0 : PageTablePointer) &&& PRESENT != 0) = true := by decide
    exact if_neg hnot
  cases dropable with
  | true => exact hzero
  | false => exact entry_setCount.trans hzero

theorem count_cleared {dropable : Bool} : (cleared dropable).count = if dropable then 0 else 1 := by
  cases dropable with
  | true =>
    rw [count_eq]
    rfl
  | false => exact count_setCount

end PageTable

/-! ### What the operations do to the memory -/

/-- The frame allocator hands out frames that are not in use. -/
structure FrameAllocator.Fresh {ρ : Type} (F : FrameAllocator ρ) (live : ρ → Set ℕ) : Prop where
  alloc : ∀ r r' f, F.allocFrame r = some (r', f) → f ∉ live r ∧ live r' = insert f (live r) ∧ IsFrame f
  dealloc : ∀ r r' f, F.deallocFrame r f = some r' → live r' = live r \ {f}

namespace PageMem

variable {ρ : Type} {F : FrameAllocator ρ} {live : ρ → Set ℕ} {s s' : PageMem ρ} {frame child : ℕ} {i : Fin 512}
  {w ptr : PageTablePointer} {flags : PageTableFlags} {dropable dropped : Bool}

@[simp] theorem write_table {t : PageTable} {g : ℕ} :
    (s.write frame t).table g = if g = frame then t else s.table g :=
  Function.update_apply _ _ _ _

@[simp] theorem write_frames {t : PageTable} : (s.write frame t).frames = s.frames := rfl

theorem set_eq_some (h : s.set frame i ptr = some s') : ∃ t, (s.table frame).set i ptr = some t ∧
    s' = s.write frame t := by
  obtain ⟨t, ht, h⟩ := Option.bind_eq_some_iff.1 h
  exact ⟨t, ht, (Option.some.inj h).symm⟩

/-- A table that is there. -/
theorem getOrAlloc_of_entry (hw : (s.table frame).entry i = some w)
    (h : s.getOrAlloc F frame i flags = some (s', child)) : s' = s ∧ child = w.addr := by
  rw [getOrAlloc, if_pos (PageTable.present_iff.2 ⟨w, hw⟩), get, PageTable.asRef_of_entry hw] at h
  obtain ⟨rfl, rfl⟩ := Prod.mk.inj (Option.some.inj h)
  exact ⟨rfl, rfl⟩

/-- `PageTable::new` clears a frame that was not in use. -/
theorem newTable_spec (hF : F.Fresh live) (hflags : IsFlags flags)
    (h : s.newTable F flags dropable = some (s', ptr)) : ∃ f, f ∉ live s.frames ∧
      live s'.frames = insert f (live s.frames) ∧ IsFrame f ∧ ptr = .new f (flags ||| PRESENT) ∧
      s'.table = Function.update s.table f (.cleared dropable) := by
  obtain ⟨⟨frames, f⟩, halloc, h⟩ := Option.bind_eq_some_iff.1 h
  obtain ⟨hfresh, hlive, hf⟩ := hF.alloc _ _ _ halloc
  cases dropable with
  | true =>
    obtain ⟨rfl, rfl⟩ := Prod.mk.inj (Option.some.inj h)
    exact ⟨f, hfresh, hlive, hf, rfl, rfl⟩
  | false =>
    obtain ⟨table, href, h⟩ := Option.bind_eq_some_iff.1 h
    obtain ⟨rfl, rfl⟩ := Prod.mk.inj (Option.some.inj h)
    rw [PageTablePointer.asRef, if_neg (hf.isEntry_new hflags.present present_or).present,
      hf.addr_new hflags.present] at href
    obtain rfl := Option.some.inj href
    refine ⟨f, hfresh, hlive, hf, rfl, ?_⟩
    simp only [write, Function.update_self, Function.update_idem]
    rfl

/-- A table that is allocated. -/
theorem getOrAlloc_of_absent (hF : F.Fresh live) (hframe : frame ∈ live s.frames) (hflags : IsFlags flags)
    (hw : (s.table frame).entry i = none) (h : s.getOrAlloc F frame i flags = some (s', child)) :
    child ∉ live s.frames ∧ live s'.frames = insert child (live s.frames) ∧ IsFrame child ∧
      (∀ g, g ≠ frame → s'.table g = if g = child then .cleared true else s.table g) ∧
      (s'.table frame).entry =
        Function.update (s.table frame).entry i (some (.new child (flags ||| PRESENT))) ∧
      (s'.table frame).count = ((if i = 0 then 0 else (s.table frame).count) + 1) % 2 ^ 11 := by
  have hnot : ¬ (s.table frame).present i = true := fun hp => by
    obtain ⟨w, hw'⟩ := PageTable.present_iff.1 hp
    rw [hw] at hw'
    cases hw'
  rw [getOrAlloc, if_neg hnot] at h
  obtain ⟨⟨s₁, out⟩, hnew, h⟩ := Option.bind_eq_some_iff.1 h
  obtain ⟨s₂, hset, h⟩ := Option.bind_eq_some_iff.1 h
  obtain ⟨table, href, h⟩ := Option.bind_eq_some_iff.1 h
  obtain ⟨rfl, rfl⟩ := Prod.mk.inj (Option.some.inj h)
  obtain ⟨f, hfresh, hlive, hf, rfl, htable⟩ := newTable_spec hF hflags hnew
  have hentry := hf.isEntry_new hflags.present present_or
  rw [PageTablePointer.asRef, if_neg hentry.present, hf.addr_new hflags.present] at href
  obtain rfl := Option.some.inj href
  have hne : frame ≠ f := fun heq => hfresh (heq ▸ hframe)
  obtain ⟨t, ht, rfl⟩ := set_eq_some hset
  rw [htable, Function.update_of_ne hne] at ht
  obtain ⟨-, hentries, hcount⟩ := PageTable.set_spec hentry ht
  refine ⟨hfresh, hlive, hf, fun g hg => ?_, ?_, ?_⟩
  · rw [write_table, if_neg hg, htable, Function.update_apply]
  · rw [write_table, if_pos rfl, hentries]
  · rw [write_table, if_pos rfl, hcount]

/-- What `remove` does: nothing, or it clears an entry, and the frame goes if the count is zero then. -/
theorem remove_cases (h : s.remove F frame i = some (s', dropped)) :
    (s.table frame).entry i = none ∧ s' = s ∧ dropped = false ∨
      (∃ w, (s.table frame).entry i = some w) ∧
        s'.table = Function.update s.table frame ((s.table frame).unset i) ∧
        dropped = decide (((s.table frame).unset i).count = 0) ∧
        if dropped then F.deallocFrame s.frames frame = some s'.frames else s'.frames = s.frames := by
  unfold remove at h
  split_ifs at h with hpresent
  · refine Or.inr ⟨PageTable.present_iff.1 hpresent, ?_⟩
    unfold freeIfEmpty at h
    rw [write_table, if_pos rfl] at h
    split_ifs at h with hzero
    · obtain ⟨frames, hdealloc, h⟩ := Option.bind_eq_some_iff.1 h
      obtain ⟨rfl, rfl⟩ := Prod.mk.inj (Option.some.inj h)
      exact ⟨rfl, (decide_eq_true hzero).symm, by rwa [if_pos rfl]⟩
    · obtain ⟨rfl, rfl⟩ := Prod.mk.inj (Option.some.inj h)
      exact ⟨rfl, (decide_eq_false hzero).symm, by rw [if_neg Bool.false_ne_true]; rfl⟩
  · obtain ⟨rfl, rfl⟩ := Prod.mk.inj (Option.some.inj h)
    exact Or.inl ⟨if_neg hpresent, rfl, rfl⟩

end PageMem
end AuroraOs
