import AuroraOs.Lib.Machine
import AuroraOs.Mem.PageTable

/-!
# The count of a page table

`remove` frees a table when its count is zero.  The count is that of the entries, with one more for a table
that is not to be freed, as long as no entry is put into the first word of a table that counts something:
`set` overwrites the count with the word.

Tables are created, filled, emptied and freed in any order.  The rest of the kernel allocates and frees
frames of its own in between.
-/

namespace AuroraOs

open Machine PageTableFlags

namespace PageTable

/-- The number of entries. -/
def entries (self : PageTable) : ℕ := (Finset.univ.filter fun i => self.present i = true).card

/-- The count is the number of entries, and one more unless the table is dropable. -/
def Counts (self : PageTable) (dropable : Bool) : Prop := self.count = self.entries + if dropable then 0 else 1

variable {t t' : PageTable} {i : Fin 512} {w : PageTablePointer} {dropable : Bool}

theorem present_eq (t : PageTable) (i : Fin 512) : t.present i = (t.entry i).isSome := by
  unfold entry
  split_ifs with h
  · exact h
  · exact Bool.eq_false_iff.2 h

theorem mem_entries : i ∈ (Finset.univ.filter fun i => t.present i = true) ↔ (t.entry i).isSome = true := by
  rw [Finset.mem_filter, present_eq]
  exact and_iff_right (Finset.mem_univ i)

theorem entries_update (h : t.entry i = none) (h' : t'.entry = Function.update t.entry i (some w)) :
    t'.entries = t.entries + 1 := by
  have hinsert : (Finset.univ.filter fun j => t'.present j = true) =
      insert i (Finset.univ.filter fun j => t.present j = true) := by
    ext j
    rw [Finset.mem_insert, mem_entries, mem_entries, h']
    rcases eq_or_ne j i with rfl | hne
    · simp
    · simp [hne]
  have hnew : i ∉ Finset.univ.filter fun j => t.present j = true := by
    rw [mem_entries, h]
    simp
  rw [entries, hinsert, Finset.card_insert_of_notMem hnew, entries]

theorem entries_clear (h : t.entry i = some w) (h' : t'.entry = Function.update t.entry i none) :
    t'.entries + 1 = t.entries := by
  have hgone : t'.entry i = none := by rw [h', Function.update_self]
  have hback : t.entry = Function.update t'.entry i (some w) := by
    rw [h', Function.update_idem, ← h, Function.update_eq_self]
  exact (entries_update hgone hback).symm

theorem entries_eq_zero : t.entries = 0 ↔ ∀ i, t.present i = false := by
  rw [entries, Finset.card_eq_zero, Finset.filter_eq_empty_iff]
  simp

theorem entries_le (t : PageTable) : t.entries ≤ 512 := by
  refine (Finset.card_filter_le _ _).trans ?_
  rw [Finset.card_univ, Fintype.card_fin]

theorem counts_cleared : (cleared dropable).Counts dropable := by
  have hnone : (cleared dropable).entries = 0 := by
    refine entries_eq_zero.2 fun i => ?_
    rw [present_eq, entry_cleared]
    rfl
  rw [Counts, count_cleared, hnone, zero_add]

/-- **A new entry** is counted, unless it is the first one of a table that counts something. -/
theorem Counts.update_iff (h : t.Counts dropable) (hnone : t.entry i = none)
    (h' : t'.entry = Function.update t.entry i (some w))
    (hcount : t'.count = ((if i = 0 then 0 else t.count) + 1) % 2 ^ 11) :
    t'.Counts dropable ↔ (i = 0 → t.count = 0) := by
  have hle := t'.entries_le
  have hentries := entries_update hnone h'
  unfold Counts at h ⊢
  rw [hcount, hentries]
  by_cases hi : i = 0
  · rw [if_pos hi, zero_add, Nat.one_mod_eq_one.2 (by decide)]
    simp only [hi, true_implies]
    omega
  · rw [if_neg hi, Nat.mod_eq_of_lt (by split_ifs at h <;> omega)]
    simp only [hi, false_implies, iff_true]
    omega

/-- **An entry that goes** is counted off. -/
theorem Counts.unset (h : t.Counts dropable) (hw : t.entry i = some w) : (t.unset i).Counts dropable := by
  have hentries := entries_clear hw entry_unset
  unfold Counts at h ⊢
  rw [count_unset, if_neg (by omega)]
  omega

/-- The count is zero for the last entry of a table that is dropable. -/
theorem Counts.unset_eq_zero_iff (h : t.Counts dropable) (hw : t.entry i = some w) :
    (t.unset i).count = 0 ↔ dropable = true ∧ ∀ j, j ≠ i → t.present j = false := by
  have hrest : (t.unset i).entries = 0 ↔ ∀ j, j ≠ i → t.present j = false := by
    rw [entries_eq_zero]
    refine forall_congr' fun j => ?_
    rw [present_eq, present_eq, entry_unset]
    rcases eq_or_ne j i with rfl | hne
    · simp
    · simp [hne]
  rw [h.unset hw, Nat.add_eq_zero_iff, hrest, and_comm]
  refine and_congr_left fun _ => ?_
  cases dropable <;> simp

end PageTable

/-! ### The tables in memory -/

/-- Memory with page tables in it: `kinds` says which frames are tables, and whether they are dropable. -/
structure PageTables (ρ : Type) where
  mem : PageMem ρ
  kinds : ℕ → Option Bool

/-- What is done to page tables; `other` is what the rest of the kernel does to the frames. -/
inductive TableOp (ρ : Type)
  | newTable (flags : PageTableFlags) (dropable : Bool)
  | set (frame : ℕ) (index : Fin 512) (ptr : PageTablePointer)
  | getOrAlloc (frame : ℕ) (index : Fin 512) (flags : PageTableFlags)
  | remove (frame : ℕ) (index : Fin 512)
  | other (frames : ρ)

namespace PageTables

variable {ρ : Type} (F : FrameAllocator ρ) (live : ρ → Set ℕ)

/-- There are no tables yet. -/
def empty (mem : PageMem ρ) : PageTables ρ := ⟨mem, fun _ => none⟩

/-- One operation. -/
def step (s : PageTables ρ) : TableOp ρ → Option (PageTables ρ)
  | .newTable flags dropable => do
      let (mem, out) ← s.mem.newTable F flags dropable
      some ⟨mem, Function.update s.kinds out.addr (some dropable)⟩
  | .set frame index ptr => do
      let mem ← s.mem.set frame index ptr
      some ⟨mem, s.kinds⟩
  | .getOrAlloc frame index flags => do
      let (mem, child) ← s.mem.getOrAlloc F frame index flags
      some ⟨mem, if (s.mem.table frame).present index then s.kinds
        else Function.update s.kinds child (some true)⟩
  | .remove frame index => do
      let (mem, dropped) ← s.mem.remove F frame index
      some ⟨mem, if dropped then Function.update s.kinds frame none else s.kinds⟩
  | .other frames => some ⟨⟨s.mem.table, frames⟩, s.kinds⟩

/-- Operations are on tables that have not been freed; words have a frame and flags, and what is set is an
entry.  The rest of the kernel leaves the frames of tables alone. -/
def Legal (s : PageTables ρ) : TableOp ρ → Prop
  | .newTable flags _ => IsFlags flags
  | .set frame _ ptr => (s.kinds frame).isSome ∧ IsEntry ptr
  | .getOrAlloc frame _ flags => (s.kinds frame).isSome ∧ IsFlags flags
  | .remove frame _ => (s.kinds frame).isSome
  | .other frames => ∀ frame, (s.kinds frame).isSome → frame ∈ live frames

/-- An entry is put into the first word only if the table counts nothing. -/
def KeepsCount (s : PageTables ρ) : TableOp ρ → Prop
  | .set frame index _ => index = 0 → (s.mem.table frame).count = 0
  | .getOrAlloc frame index _ =>
      index = 0 → (s.mem.table frame).present 0 = false → (s.mem.table frame).count = 0
  | _ => True

instance (s : PageTables ρ) [∀ frames, Decidable (Legal live s (.other frames))] :
    (op : TableOp ρ) → Decidable (Legal live s op)
  | .newTable flags _ => inferInstanceAs (Decidable (IsFlags flags))
  | .set frame _ ptr => inferInstanceAs (Decidable ((s.kinds frame).isSome ∧ IsEntry ptr))
  | .getOrAlloc frame _ flags => inferInstanceAs (Decidable ((s.kinds frame).isSome ∧ IsFlags flags))
  | .remove frame _ => inferInstanceAs (Decidable (s.kinds frame).isSome)
  | .other _ => inferInstance

instance (s : PageTables ρ) : (op : TableOp ρ) → Decidable (KeepsCount s op)
  | .newTable _ _ => isTrue trivial
  | .set frame index _ => inferInstanceAs (Decidable (index = 0 → (s.mem.table frame).count = 0))
  | .getOrAlloc frame index _ => inferInstanceAs (Decidable
      (index = 0 → (s.mem.table frame).present 0 = false → (s.mem.table frame).count = 0))
  | .remove _ _ => isTrue trivial
  | .other _ => isTrue trivial

/-- The counts of all tables are right. -/
def Counted (s : PageTables ρ) : Prop :=
  ∀ frame dropable, s.kinds frame = some dropable → (s.mem.table frame).Counts dropable

/-- The frames of the tables are in use. -/
def Live (s : PageTables ρ) : Prop := ∀ frame, (s.kinds frame).isSome → frame ∈ live s.mem.frames

variable {F live} {s s' : PageTables ρ} {frame child : ℕ} {i : Fin 512} {w ptr : PageTablePointer}
  {flags : PageTableFlags} {dropable dropped : Bool} {op : TableOp ρ}

/-- The counts are right if that of one table is, and the others stay. -/
theorem Counted.iff_of_others {mem : PageMem ρ} {kinds : ℕ → Option Bool} (h : s.Counted)
    (hframe : kinds frame = some dropable)
    (hkinds : ∀ g, g ≠ frame → kinds g = s.kinds g ∨ ∃ d, kinds g = some d ∧ (mem.table g).Counts d)
    (hmem : ∀ g, g ≠ frame → kinds g = s.kinds g → (s.kinds g).isSome → mem.table g = s.mem.table g) :
    Counted ⟨mem, kinds⟩ ↔ (mem.table frame).Counts dropable := by
  refine ⟨fun hc => hc frame dropable hframe, fun hc g d hg => ?_⟩
  rcases eq_or_ne g frame with rfl | hne
  · obtain rfl := Option.some.inj (hframe.symm.trans hg)
    exact hc
  · rcases hkinds g hne with hsame | ⟨d', hd', hcounts⟩
    · have hg' : s.kinds g = some d := hsame.symm.trans hg
      have hkept := hmem g hne hsame (by rw [hg']; rfl)
      simp only [hkept]
      exact h g d hg'
    · obtain rfl := Option.some.inj (hd'.symm.trans hg)
      exact hcounts

theorem newTable_step (hF : F.Fresh live) (hl : s.Live live) (h : s.Counted) (hflags : IsFlags flags)
    (he : step F s (.newTable flags dropable) = some s') : s'.Counted ∧ s'.Live live := by
  obtain ⟨⟨mem, out⟩, hnew, he⟩ := Option.bind_eq_some_iff.1 he
  obtain rfl := Option.some.inj he
  obtain ⟨f, hfresh, hlive, hf, rfl, htable⟩ := PageMem.newTable_spec hF hflags hnew
  rw [hf.addr_new hflags.present]
  constructor
  · have hkind : Function.update s.kinds f (some dropable) f = some dropable := Function.update_self _ _ _
    refine (h.iff_of_others hkind (fun g hg => Or.inl (Function.update_of_ne hg _ _))
      fun g hg _ _ => ?_).2 ?_
    · rw [htable, Function.update_of_ne hg]
    · rw [htable, Function.update_self]
      exact PageTable.counts_cleared
  · intro g hg
    simp only [hlive]
    rcases eq_or_ne g f with rfl | hne
    · exact Set.mem_insert _ _
    · simp only [Function.update_of_ne hne] at hg
      exact Set.mem_insert_of_mem _ (hl g hg)

theorem set_step (h : s.Counted) (hkind : (s.kinds frame).isSome) (hptr : IsEntry ptr)
    (he : step F s (.set frame i ptr) = some s') :
    (s'.Counted ↔ (i = 0 → (s.mem.table frame).count = 0)) ∧ (s.Live live → s'.Live live) := by
  obtain ⟨mem, hset, he⟩ := Option.bind_eq_some_iff.1 he
  obtain rfl := Option.some.inj he
  obtain ⟨t, ht, rfl⟩ := PageMem.set_eq_some hset
  obtain ⟨hnone, hentry, hcount⟩ := PageTable.set_spec hptr ht
  obtain ⟨d, hd⟩ := Option.isSome_iff_exists.1 hkind
  refine ⟨?_, fun hl => hl⟩
  rw [h.iff_of_others hd (fun g _ => Or.inl rfl) fun g hg _ _ => by rw [PageMem.write_table, if_neg hg],
    PageMem.write_table, if_pos rfl]
  exact (h frame d hd).update_iff hnone hentry hcount

theorem getOrAlloc_step (hF : F.Fresh live) (hl : s.Live live) (h : s.Counted)
    (hkind : (s.kinds frame).isSome) (hflags : IsFlags flags)
    (he : step F s (.getOrAlloc frame i flags) = some s') :
    (s'.Counted ↔ (i = 0 → (s.mem.table frame).present 0 = false → (s.mem.table frame).count = 0)) ∧
      s'.Live live := by
  obtain ⟨⟨mem, child⟩, hget, he⟩ := Option.bind_eq_some_iff.1 he
  obtain rfl := Option.some.inj he
  obtain ⟨d, hd⟩ := Option.isSome_iff_exists.1 hkind
  cases hentry : (s.mem.table frame).entry i with
  | some w =>
    -- the table is there
    have hpresent := PageTable.present_iff.2 ⟨w, hentry⟩
    obtain ⟨rfl, -⟩ := PageMem.getOrAlloc_of_entry hentry hget
    simp only [hpresent, if_true]
    refine ⟨iff_of_true h ?_, hl⟩
    rintro rfl hfalse
    rw [hpresent] at hfalse
    cases hfalse
  | none =>
    have habsent : (s.mem.table frame).present i = false := by rw [PageTable.present_eq, hentry]; rfl
    obtain ⟨hfresh, hlive, -, hothers, hentries, hcount⟩ :=
      PageMem.getOrAlloc_of_absent hF (hl frame hkind) hflags hentry hget
    have hne : frame ≠ child := fun heq => hfresh (heq ▸ hl frame hkind)
    simp only [habsent, Bool.false_eq_true, if_false]
    constructor
    · have hkind' : Function.update s.kinds child (some true) frame = some d :=
        (Function.update_of_ne hne _ _).trans hd
      rw [h.iff_of_others hkind', (h frame d hd).update_iff hentry hentries hcount]
      · refine forall_congr' fun hi => ?_
        rw [← hi, habsent]
        simp
      · intro g hg
        rcases eq_or_ne g child with rfl | hgc
        · refine Or.inr ⟨true, Function.update_self _ _ _, ?_⟩
          rw [hothers g hg, if_pos rfl]
          exact PageTable.counts_cleared
        · exact Or.inl (Function.update_of_ne hgc _ _)
      · intro g hg _ hsome
        have hgc : g ≠ child := fun heq => hfresh (heq ▸ hl g hsome)
        rw [hothers g hg, if_neg hgc]
    · intro g hg
      simp only [hlive]
      rcases eq_or_ne g child with rfl | hgc
      · exact Set.mem_insert _ _
      · simp only [Function.update_of_ne hgc] at hg
        exact Set.mem_insert_of_mem _ (hl g hg)

theorem remove_step (hF : F.Fresh live) (hl : s.Live live) (h : s.Counted)
    (hkind : (s.kinds frame).isSome) (he : step F s (.remove frame i) = some s') :
    s'.Counted ∧ s'.Live live := by
  obtain ⟨⟨mem, dropped⟩, hremove, he⟩ := Option.bind_eq_some_iff.1 he
  obtain rfl := Option.some.inj he
  obtain ⟨d, hd⟩ := Option.isSome_iff_exists.1 hkind
  rcases PageMem.remove_cases hremove with ⟨-, rfl, rfl⟩ | ⟨⟨w, hw⟩, htable, -, hframes⟩
  · exact ⟨h, hl⟩
  have hothers : ∀ g, g ≠ frame → mem.table g = s.mem.table g := fun g hg => by
    rw [htable, Function.update_of_ne hg]
  cases dropped with
  | true =>
    -- the frame goes, and with it the table
    have hlive := hF.dealloc _ _ _ hframes
    constructor
    · intro g d' hg
      simp only [if_true] at hg
      rcases eq_or_ne g frame with rfl | hne
      · rw [Function.update_self] at hg
        cases hg
      · rw [Function.update_of_ne hne] at hg
        simp only [hothers g hne]
        exact h g d' hg
    · intro g hg
      simp only [if_true] at hg
      simp only [hlive]
      rcases eq_or_ne g frame with rfl | hne
      · rw [Function.update_self] at hg
        cases hg
      · rw [Function.update_of_ne hne] at hg
        exact ⟨hl g hg, hne⟩
  | false =>
    simp only [Bool.false_eq_true, if_false] at hframes ⊢
    refine ⟨(h.iff_of_others hd (fun g _ => Or.inl rfl) fun g hg _ _ => hothers g hg).2 ?_, ?_⟩
    · rw [htable, Function.update_self]
      exact (h frame d hd).unset hw
    · intro g hg
      simp only [hframes]
      exact hl g hg

/-- **One operation** keeps the counts exactly if it does not fill the first word of a table that counts
something. -/
theorem step_counted_iff (hF : F.Fresh live) (s : PageTables ρ) (op : TableOp ρ) (s' : PageTables ρ)
    (h : s.Counted ∧ s.Live live) (hlegal : Legal live s op) (he : step F s op = some s') :
    (s'.Counted ↔ KeepsCount s op) ∧ s'.Live live := by
  obtain ⟨h, hl⟩ := h
  cases op with
  | newTable flags dropable =>
    obtain ⟨hc, hl'⟩ := newTable_step hF hl h hlegal he
    exact ⟨iff_of_true hc trivial, hl'⟩
  | set frame i ptr =>
    obtain ⟨hiff, hl'⟩ := set_step h hlegal.1 hlegal.2 he
    exact ⟨hiff, hl' hl⟩
  | getOrAlloc frame i flags => exact getOrAlloc_step hF hl h hlegal.1 hlegal.2 he
  | remove frame i =>
    obtain ⟨hc, hl'⟩ := remove_step hF hl h hlegal he
    exact ⟨iff_of_true hc trivial, hl'⟩
  | other frames =>
    obtain rfl := Option.some.inj he
    exact ⟨iff_of_true h trivial, hlegal⟩

/-- What `remove` frees, where the counts are right. -/
theorem Counted.dropped_iff {mem : PageMem ρ} (h : s.Counted) (hkind : s.kinds frame = some dropable)
    (he : s.mem.remove F frame i = some (mem, dropped)) : dropped = true ↔
      dropable = true ∧ (s.mem.table frame).present i = true ∧
        ∀ j, j ≠ i → (s.mem.table frame).present j = false := by
  rcases PageMem.remove_cases he with ⟨hnone, -, rfl⟩ | ⟨⟨w, hw⟩, -, rfl, -⟩
  · refine iff_of_false Bool.false_ne_true fun hc => ?_
    rw [PageTable.present_eq, hnone] at hc
    cases hc.2.1
  · rw [decide_eq_true_iff, (h frame dropable hkind).unset_eq_zero_iff hw, PageTable.present_iff.2 ⟨w, hw⟩]
    simp

/-! ### Runs -/

/-- **The counts along a run** from no tables are right after each operation exactly if none of them fills
the first word of a table that counts something.  Then `remove` frees a table if it takes away the last
entry of one that is dropable, and only then: a table that is not dropable is never freed. -/
theorem run_counted_iff (hF : F.Fresh live) (mem : PageMem ρ) (ops : List (TableOp ρ))
    (hlegal : Along (step F) (fun s op => Legal live s op ∧ (step F s op).isSome) (empty mem) ops) :
    (Along (step F) (fun s op => ∀ s' ∈ step F s op, s'.Counted) (empty mem) ops ↔
      Along (step F) KeepsCount (empty mem) ops) ∧
    (Along (step F) KeepsCount (empty mem) ops → ∀ s, run (step F) (empty mem) ops = some s →
      ∀ frame dropable, s.kinds frame = some dropable → (s.mem.table frame).Counts dropable ∧
        ∀ i mem' dropped, s.mem.remove F frame i = some (mem', dropped) → (dropped = true ↔
          dropable = true ∧ (s.mem.table frame).present i = true ∧
            ∀ j, j ≠ i → (s.mem.table frame).present j = false)) := by
  have hempty : (empty mem).Counted ∧ (empty mem).Live live :=
    ⟨fun _ _ h => (nomatch h), fun _ h => (nomatch h)⟩
  constructor
  · refine along_iff (fun s => s.Counted ∧ s.Live live) (fun s op h hl => ?_) hempty hlegal
    obtain ⟨s', he⟩ := Option.isSome_iff_exists.1 hl.2
    obtain ⟨hiff, hlive⟩ := step_counted_iff hF s op s' h hl.1 he
    simp only [he, Option.mem_def, Option.some.injEq, forall_eq']
    exact ⟨hiff, fun hq => ⟨hiff.2 hq, hlive⟩⟩
  · intro hfills s hrun frame dropable hkind
    have hkeep := run_keeps (fun s => s.Counted ∧ s.Live live) (fun s op s' h hP he => by
      obtain ⟨hiff, hlive⟩ := step_counted_iff hF s op s' h hP.1.1 he
      exact ⟨hiff.2 hP.2, hlive⟩) hempty (hlegal.and hfills) hrun
    exact ⟨hkeep.1 frame dropable hkind, fun i mem' dropped he => hkeep.1.dropped_iff hkind he⟩

/-- An allocator that hands out the frames in order, with the frames in use. -/
def pages : FrameAllocator (ℕ × List ℕ) where
  allocFrame r :=
    let f := r.1 * PAGE_SIZE
    if f ∈ r.2 ∨ 2 ^ 52 ≤ f then none else some ((r.1 + 1, f :: r.2), f)
  deallocFrame r f := some (r.1, r.2.filter fun g => g ≠ f)

theorem pages_fresh : pages.Fresh fun r => {f | f ∈ r.2} where
  alloc r r' f h := by
    simp only [pages] at h
    split_ifs at h with hused
    obtain ⟨rfl, rfl⟩ := Prod.mk.inj (Option.some.inj h)
    obtain ⟨hnew, hlt⟩ := not_or.1 hused
    refine ⟨hnew, ?_, ⟨Nat.dvd_mul_left _ _, not_le.1 hlt⟩⟩
    ext g
    simp
  dealloc r r' f h := by
    obtain rfl := Option.some.inj h
    ext g
    simp

/-- Memory without tables. -/
def blank : PageTables (ℕ × List ℕ) := empty ⟨fun _ _ => 0, (1, [])⟩

/-- The entry that all address spaces share. -/
def kernelHalf : PageTablePointer := .new 0xfff000 (PRESENT ||| WRITABLE ||| GLOBAL)

/-- `VirtMapper::new`: the top table, which is not dropable, and its last entry. -/
def newSpace : List (TableOp (ℕ × List ℕ)) := [.newTable NONE false, .set 0x1000 511 kernelHalf]

/-- The first and the only entry of a dropable table comes and goes. -/
theorem run_counted_iff_first : ∃ s mem, run (step pages) blank
    [.newTable NONE true, .getOrAlloc 0x1000 0 PARENT_FLAGS] = some s ∧
      s.mem.remove pages 0x1000 0 = some (mem, true) ∧ (s.mem.table 0x1000).Counts true := by
  classical
  let ops : List (TableOp (ℕ × List ℕ)) := [.newTable NONE true, .getOrAlloc 0x1000 0 PARENT_FLAGS]
  have hlegal : Along (step pages) (fun s op => Legal (fun r => {f | f ∈ r.2}) s op ∧
      (step pages s op).isSome) blank ops := by decide +kernel
  have hkeeps : Along (step pages) KeepsCount blank ops := by decide +kernel
  have hrun : (run (step pages) blank ops).map (fun s => (s.kinds 0x1000,
      (s.mem.remove pages 0x1000 0).map Prod.snd)) = some (some true, some true) := by decide +kernel
  obtain ⟨s, hs, hout⟩ := Option.map_eq_some_iff.1 hrun
  obtain ⟨hkind, hremove⟩ := Prod.mk.inj hout
  obtain ⟨⟨mem, dropped⟩, hmem, rfl⟩ := Option.map_eq_some_iff.1 hremove
  have hcounts := (run_counted_iff pages_fresh _ ops hlegal).2 hkeeps s hs 0x1000 true hkind
  exact ⟨s, mem, hs, hmem, hcounts.1⟩

/-- A table for the lowest addresses of an address space overwrites the count of the top table, and its
removal frees the top table with the kernel's entry in it.  So does a page that is mapped at `0x1000` and
unmapped again. -/
theorem run_counted_fails : ∃ s s' mem mem', run (step pages) blank newSpace = some s ∧
    step pages s (.getOrAlloc 0x1000 0 PARENT_FLAGS) = some s' ∧ s'.kinds 0x1000 = some false ∧
    ¬ s'.Counted ∧ s'.mem.remove pages 0x1000 0 = some (mem, true) ∧
    (mem.table 0x1000).present 511 = true ∧
    (s.mem.mapFrom pages (.new 0x5000 PRESENT) 0x1000 [0, 0, 0, 1]).bind
      (fun mem => mem.unmapFrom pages 0x1000 [0, 0, 0, 1]) = some (mem', true) ∧
    (mem'.table 0x1000).present 511 = true := by
  have hrun : (run (step pages) blank newSpace).map (fun s =>
      ((step pages s (.getOrAlloc 0x1000 0 PARENT_FLAGS)).map fun s' => (s'.kinds 0x1000,
        (s'.mem.remove pages 0x1000 0).map fun r => (r.2, (r.1.table 0x1000).present 511)),
      ((s.mem.mapFrom pages (.new 0x5000 PRESENT) 0x1000 [0, 0, 0, 1]).bind fun mem =>
        mem.unmapFrom pages 0x1000 [0, 0, 0, 1]).map fun r => (r.2, (r.1.table 0x1000).present 511))) =
      some (some (some false, some (true, true)), some (true, true)) := by decide +kernel
  obtain ⟨s, hs, hout⟩ := Option.map_eq_some_iff.1 hrun
  obtain ⟨hstep, hpage⟩ := Prod.mk.inj hout
  obtain ⟨s', hs', hout⟩ := Option.map_eq_some_iff.1 hstep
  obtain ⟨hkind, hremove⟩ := Prod.mk.inj hout
  obtain ⟨⟨mem, dropped⟩, hmem, hout⟩ := Option.map_eq_some_iff.1 hremove
  obtain ⟨rfl, hpresent⟩ := Prod.mk.inj hout
  obtain ⟨⟨mem', dropped'⟩, hmem', hout⟩ := Option.map_eq_some_iff.1 hpage
  obtain ⟨rfl, hpresent'⟩ := Prod.mk.inj hout
  refine ⟨s, s', mem, mem', hs, hs', hkind, fun hc => ?_, hmem, hpresent, hmem', hpresent'⟩
  have hdropable := ((hc.dropped_iff hkind hmem).1 rfl).1
  cases hdropable

end PageTables
end AuroraOs
