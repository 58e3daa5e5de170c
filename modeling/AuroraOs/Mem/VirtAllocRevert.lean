import AuroraOs.Mem.VirtAllocRun

/-!
# What a failing `remap` leaves

The closure of `remap` and `remap_at` changes the layout in place by `push` and `pop_delete`.  When a
call fails after the closure has run, the layout is what the closure made of it, or what `revert` makes
of that: the elements that counted as mapped before the call, followed by those that were removed
before it and are still mapped.  The index up to which elements count as mapped stays where the closure
has left it.
-/

namespace AuroraOs

/-- What a closure does to a layout. -/
inductive Edit
  | push (elem : VirtLayoutElement)
  | popDelete

/-- The allocation behind an element. -/
def VirtLayoutElement.allocation? (self : VirtLayoutElement) : Option ZoneAllocation :=
  match self.physData with
  | .allocedMem mem => some mem
  | _ => none

/-- The allocations behind elements. -/
def allocations (elems : List VirtLayoutElement) : List ZoneAllocation :=
  elems.filterMap VirtLayoutElement.allocation?

/-- The elements that are pushed. -/
def pushed (es : List Edit) : List VirtLayoutElement :=
  es.filterMap fun
    | .push elem => some elem
    | .popDelete => none

/-- What becomes of a list of elements: how many of them are left, what is there that was pushed, and
what was pushed and popped again. -/
structure Tally where
  kept : ℕ
  added : List VirtLayoutElement
  dropped : List VirtLayoutElement

/-- One `push` or `pop_delete`. -/
def Tally.edit (t : Tally) : Edit → Tally
  | .push elem => { t with added := t.added ++ [elem] }
  | .popDelete =>
      match t.added.getLast? with
      | some elem => { t with added := t.added.dropLast, dropped := t.dropped ++ [elem] }
      | none => { t with kept := t.kept - 1 }

/-- One after the other, from `n` elements. -/
def tally (n : ℕ) (es : List Edit) : Tally := es.foldl Tally.edit ⟨n, [], []⟩

theorem tally_concat (n : ℕ) (es : List Edit) (e : Edit) :
    tally n (es ++ [e]) = (tally n es).edit e := by
  rw [tally, List.foldl_concat, tally]

/-- What is pushed is there, or was popped again. -/
theorem pushed_perm (n : ℕ) (es : List Edit) :
    (pushed es).Perm ((tally n es).added ++ (tally n es).dropped) := by
  induction es using List.reverseRecOn with
  | nil => exact .nil
  | append_singleton es e ih =>
    rw [tally_concat, pushed, List.filterMap_append, ← pushed]
    generalize tally n es = t at ih
    cases e with
    | push elem =>
      have hswap : (t.added ++ (t.dropped ++ [elem])).Perm (t.added ++ ([elem] ++ t.dropped)) :=
        List.perm_append_comm.append_left t.added
      have hpush : (pushed es ++ [elem]).Perm (t.added ++ t.dropped ++ [elem]) := ih.append_right _
      simpa [Tally.edit] using hpush.trans (by simpa using hswap)
    | popDelete =>
      rcases List.eq_nil_or_concat t.added with hadded | ⟨init, elem, hadded⟩
      · simpa [Tally.edit, hadded] using ih
      · have hswap : (init ++ ([elem] ++ t.dropped)).Perm (init ++ (t.dropped ++ [elem])) :=
          List.perm_append_comm.append_left init
        rw [hadded] at ih
        simpa [Tally.edit, hadded] using ih.trans (by simpa using hswap)

/-- What is there returns all that was pushed if nothing allocated was popped again. -/
theorem allocations_perm_iff (n : ℕ) (es : List Edit) :
    (allocations (tally n es).added.reverse).Perm (allocations (pushed es)) ↔
      allocations (tally n es).dropped = [] := by
  have hrev : (allocations (tally n es).added.reverse).Perm (allocations (tally n es).added) :=
    (List.reverse_perm _).filterMap _
  have hpushed : (allocations (pushed es)).Perm
      (allocations (tally n es).added ++ allocations (tally n es).dropped) := by
    rw [allocations, allocations, allocations, ← List.filterMap_append]
    exact (pushed_perm n es).filterMap _
  constructor
  · intro h
    have hlen := ((hrev.symm.trans h).trans hpushed).length_eq
    rw [List.length_append] at hlen
    exact List.length_eq_zero_iff.1 (by omega)
  · intro hnil
    rw [hnil, List.append_nil] at hpushed
    exact hrev.trans hpushed.symm

namespace VirtLayout

/-- A `push` or a `pop_delete`. -/
def edit (self : VirtLayout) : Edit → VirtLayout
  | .push elem => self.push elem
  | .popDelete => self.popDelete

/-- One after the other. -/
def edits (self : VirtLayout) (es : List Edit) : VirtLayout := es.foldl edit self

variable {l l₁ l₂ : VirtLayout} {t : Tally} {init : List VirtLayoutElement} {a : VirtLayoutElement}

theorem popDelete_nil (h : l.data = []) : l.popDelete = l := by
  unfold popDelete
  simp [h]

/-- `pop_delete` queues what counts as mapped. -/
theorem popDelete_concat (h : l.data = init ++ [a]) :
    l.popDelete.data = init ∧ l.popDelete.cleanSize = l.cleanSize ∧ l.popDelete.atype = l.atype ∧
      l.popDelete.dirtyIndex = min l.dirtyIndex init.length ∧
      l.popDelete.deallocQue = l.deallocQue ++ if init.length < l.dirtyIndex then [a] else [] := by
  have hlast : l.data.getLast? = some a := by rw [h, List.getLast?_concat]
  have hinit : l.data.dropLast = init := by rw [h, List.dropLast_concat]
  unfold popDelete
  rw [hlast]
  by_cases hlt : init.length < l.dirtyIndex
  · simp [hinit, hlt, hlt.le]
  · simp [hinit, hlt, Nat.le_of_not_lt hlt]

/-- What a layout is after edits: `t` says what became of its elements. -/
structure Edited (l : VirtLayout) (t : Tally) (l₁ : VirtLayout) : Prop where
  kept_le : t.kept ≤ l.data.length
  data : l₁.data = l.data.take t.kept ++ t.added
  que : l₁.deallocQue = l.deallocQue ++ (l.cleanSlice.drop t.kept).reverse
  dirty : l₁.dirtyIndex = min l.dirtyIndex t.kept
  clean : l₁.cleanSize = l.cleanSize
  atype : l₁.atype = l.atype

theorem length_cleanSlice : l.cleanSlice.length = l.dirtyIndex := by
  rw [cleanSlice, List.length_take, min_eq_left l.dirty_le]

/-- The elements that count as mapped, from one of the layout on. -/
theorem drop_cleanSlice {k : ℕ} (hk : k < l.data.length) : l.cleanSlice.drop k =
    if k < l.dirtyIndex then l.data[k] :: l.cleanSlice.drop (k + 1) else l.cleanSlice.drop (k + 1) := by
  split_ifs with hd
  · rw [List.drop_eq_getElem_cons (by rwa [length_cleanSlice])]
    simp [cleanSlice]
  · have hle : l.cleanSlice.length ≤ k := by rw [length_cleanSlice]; omega
    rw [List.drop_eq_nil_of_le hle, List.drop_eq_nil_of_le (hle.trans (Nat.le_succ k))]

theorem Edited.refl (l : VirtLayout) : Edited l ⟨l.data.length, [], []⟩ l := by
  refine ⟨le_rfl, by simp, ?_, (min_eq_left l.dirty_le).symm, rfl, rfl⟩
  rw [List.drop_eq_nil_of_le (by rw [length_cleanSlice]; exact l.dirty_le), List.reverse_nil,
    List.append_nil]

theorem Edited.edit (h : Edited l t l₁) (e : Edit) : Edited l (t.edit e) (l₁.edit e) := by
  cases e with
  | push elem =>
    have hdata : l₁.data ++ [elem] = l.data.take t.kept ++ (t.added ++ [elem]) := by
      rw [h.data, List.append_assoc]
    exact ⟨h.kept_le, hdata, h.que, h.dirty, h.clean, h.atype⟩
  | popDelete =>
    have hlen : (l.data.take t.kept).length = t.kept := by
      rw [List.length_take, min_eq_left h.kept_le]
    rcases List.eq_nil_or_concat t.added with hadded | ⟨init, elem, hadded⟩
    · have htally : t.edit .popDelete = ⟨t.kept - 1, [], t.dropped⟩ := by simp [Tally.edit, hadded]
      rw [htally]
      obtain ⟨kept, added, dropped⟩ := t
      simp only at hadded h hlen ⊢
      subst hadded
      cases kept with
      | zero =>
        have hnil : l₁.data = [] := by simpa using h.data
        rw [VirtLayout.edit, popDelete_nil hnil]
        exact h
      | succ k =>
        -- an element that was there at the beginning: it is queued if it counts as mapped
        have hlt : k < l.data.length := h.kept_le
        have hdata : l₁.data = l.data.take k ++ [l.data[k]] := by
          have := h.data
          rwa [List.append_nil, ← List.take_concat_get' _ _ hlt] at this
        have hk : (l.data.take k).length = k := by rw [List.length_take, min_eq_left hlt.le]
        obtain ⟨hdata', hclean, hatype, hdirty, hque⟩ := popDelete_concat hdata
        rw [hk, h.dirty] at hdirty hque
        refine ⟨hlt.le, by rw [VirtLayout.edit, hdata']; simp, ?_, ?_, hclean.trans h.clean, hatype.trans h.atype⟩
        · rw [VirtLayout.edit, hque, h.que, List.append_assoc, Nat.add_sub_cancel, drop_cleanSlice hlt]
          by_cases hd : k < l.dirtyIndex
          · simp [hd]
          · simp [hd]
        · rw [VirtLayout.edit, hdirty]
          simp only [Nat.add_sub_cancel]
          omega
    · -- an element that was pushed
      have htally : t.edit .popDelete = ⟨t.kept, init, t.dropped ++ [elem]⟩ := by
        simp [Tally.edit, hadded]
      have hdata : l₁.data = (l.data.take t.kept ++ init) ++ [elem] := by
        rw [h.data, hadded, List.concat_eq_append, List.append_assoc]
      obtain ⟨hdata', hclean, hatype, hdirty, hque⟩ := popDelete_concat hdata
      have hle : l₁.dirtyIndex ≤ (l.data.take t.kept ++ init).length := by
        rw [h.dirty, List.length_append, hlen]
        exact (min_le_right _ _).trans (Nat.le_add_right _ _)
      rw [if_neg (Nat.not_lt.2 hle), List.append_nil] at hque
      rw [min_eq_left hle] at hdirty
      rw [htally]
      exact ⟨h.kept_le, hdata', hque.trans h.que, hdirty.trans h.dirty, hclean.trans h.clean,
        hatype.trans h.atype⟩

theorem edited_edits (l : VirtLayout) (es : List Edit) : Edited l (tally l.data.length es) (l.edits es) := by
  induction es using List.reverseRecOn with
  | nil => exact .refl l
  | append_singleton es e ih =>
    rw [tally_concat, edits, List.foldl_concat]
    exact ih.edit e

theorem cleanSlice_eq_data (h : l.dirtyIndex = l.data.length) : l.cleanSlice = l.data := by
  rw [cleanSlice, h, List.take_length]

theorem eq_iff : l₁ = l ↔ l₁.data = l.data ∧ l₁.deallocQue = l.deallocQue ∧
    l₁.dirtyIndex = l.dirtyIndex ∧ l₁.cleanSize = l.cleanSize ∧ l₁.atype = l.atype := by
  cases l₁
  cases l
  simp

/-- A layout is as before the edits if no element that counts as mapped was popped, and others were
put back. -/
theorem Edited.eq_iff (h : Edited l t l₁) :
    l₁ = l ↔ l.dirtyIndex ≤ t.kept ∧ t.added = l.data.drop t.kept := by
  rw [VirtLayout.eq_iff, h.data, h.que, h.dirty]
  constructor
  · rintro ⟨hdata, -, hdirty, -⟩
    refine ⟨min_eq_left_iff.1 hdirty, ?_⟩
    nth_rewrite 2 [← List.take_append_drop t.kept l.data] at hdata
    exact List.append_cancel_left hdata
  · rintro ⟨hle, hadded⟩
    rw [hadded, List.take_append_drop, List.drop_eq_nil_of_le (by rwa [length_cleanSlice])]
    exact ⟨rfl, by simp, min_eq_left hle, h.clean, h.atype⟩

section Revert

variable {σ : Type*} {M : MemApi σ} {s s' : σ}

/-- `revert` goes back to the elements that counted as mapped, and to those that were removed before
and were still mapped. -/
theorem Edited.revert_data (h : Edited l t l₁) (hr : l₁.revert M s = some (s', l₂)) :
    l₂.data = l.cleanSlice ++ l.deallocQue.reverse := by
  have hclean : l₁.cleanSlice = l.cleanSlice.take t.kept := by
    have hle : min l.dirtyIndex t.kept ≤ (l.data.take t.kept).length := by
      rw [List.length_take, min_eq_left h.kept_le]
      exact min_le_right _ _
    rw [cleanSlice, cleanSlice, h.data, h.dirty, List.take_append_of_le_length hle, List.take_take,
      List.take_take, min_assoc, min_self, min_comm]
  rw [(revert_spec hr).1, hclean, h.que, List.reverse_append, List.reverse_reverse, ← List.append_assoc,
    List.take_append_drop]

/-- It is as before the edits if all elements counted as mapped and none of them was popped. -/
theorem Edited.revert_eq_iff (h : Edited l t l₁) (hr : l₁.revert M s = some (s', l₂)) :
    l₂ = l ↔ l.deallocQue = [] ∧ l.dirtyIndex = l.data.length ∧ t.kept = l.data.length := by
  obtain ⟨-, hque, hdirty, hclean, hatype⟩ := revert_spec hr
  rw [VirtLayout.eq_iff, h.revert_data hr, hque, hdirty, h.dirty]
  constructor
  · rintro ⟨hdata, hnil, hmin, -⟩
    rw [← hnil, List.reverse_nil, List.append_nil] at hdata
    have hlen : l.dirtyIndex = l.data.length := by rw [← length_cleanSlice, hdata]
    have hkept := h.kept_le
    exact ⟨hnil.symm, hlen, by omega⟩
  · rintro ⟨hnil, hlen, hkept⟩
    rw [hnil, cleanSlice_eq_data hlen, hkept, hlen]
    exact ⟨by simp, rfl, min_self _, hclean.trans h.clean, hatype.trans h.atype⟩

end Revert

/-- What is not mapped after edits that popped none of the elements is what they added. -/
theorem Edited.dirtySlice_eq (h : Edited l t l₁) (hlen : l.dirtyIndex = l.data.length)
    (hkept : t.kept = l.data.length) : l₁.dirtySlice = t.added := by
  rw [dirtySlice, h.data, h.dirty, hlen, hkept, min_self, List.take_length, List.drop_left]

end VirtLayout

/-! ### What the zone manager and the page tables are told -/

/-- The state of the rest of the kernel, with what it was told. -/
structure Logged (σ : Type) where
  state : σ
  freed : List ZoneAllocation
  mapped : List (List Pmit)

section Logged

variable {σ : Type} {E : MemEnv σ} {s s' : Logged σ}

/-- The rest of the kernel, which keeps a record. -/
def MemEnv.logged (E : MemEnv σ) : MemEnv (Logged σ) where
  alloc s size := (E.alloc s.state size).map fun r => ({ s with state := r.1 }, r.2)
  dealloc s mem := (E.dealloc s.state mem).map fun state =>
    { s with state := state, freed := s.freed ++ [mem] }
  mapInternal s zones := (E.mapInternal s.state zones).map fun state =>
    { s with state := state, mapped := s.mapped ++ [zones] }
  phys := E.phys
  virt := E.virt

theorem dealloc_logged {a : VirtLayoutElement} (h : a.dealloc E.logged.toMemApi s = some s') :
    s'.freed = s.freed ++ a.allocation?.toList ∧ s'.mapped = s.mapped := by
  unfold VirtLayoutElement.dealloc at h
  unfold VirtLayoutElement.allocation?
  cases hdata : a.physData with
  | allocedMem mem =>
    rw [hdata] at h
    obtain ⟨state, -, rfl⟩ := Option.map_eq_some_iff.1 h
    exact ⟨rfl, rfl⟩
  | mem mem =>
    rw [hdata] at h
    obtain rfl := Option.some.inj h
    exact ⟨(List.append_nil _).symm, rfl⟩
  | empty size =>
    rw [hdata] at h
    obtain rfl := Option.some.inj h
    exact ⟨(List.append_nil _).symm, rfl⟩

theorem deallocAll_logged {elems : List VirtLayoutElement}
    (h : VirtLayout.deallocAll E.logged.toMemApi s elems = some s') :
    s'.freed = s.freed ++ allocations elems ∧ s'.mapped = s.mapped := by
  induction elems generalizing s with
  | nil =>
    obtain rfl := Option.some.inj h
    exact ⟨(List.append_nil _).symm, rfl⟩
  | cons a elems ih =>
    obtain ⟨s₁, hs₁, h⟩ := Option.bind_eq_some_iff.1 h
    obtain ⟨hfreed₁, hmapped₁⟩ := dealloc_logged hs₁
    obtain ⟨hfreed, hmapped⟩ := ih h
    refine ⟨?_, hmapped.trans hmapped₁⟩
    rw [hfreed, hfreed₁, List.append_assoc, allocations, allocations, List.filterMap_cons]
    cases a.allocation? <;> rfl

theorem revert_logged {l l' : VirtLayout} (h : l.revert E.logged.toMemApi s = some (s', l')) :
    s'.freed = s.freed ++ allocations l.dirtySlice.reverse ∧ s'.mapped = s.mapped := by
  obtain ⟨s₁, hs₁, h⟩ := Option.bind_eq_some_iff.1 h
  rw [← (Prod.mk.inj (Option.some.inj h)).1]
  exact deallocAll_logged hs₁

end Logged

/-! ### The calls -/

namespace VirtMapper

variable {σ : Type} {E : MemEnv σ} {s s' : Logged σ} {s₁ : σ} {m m' : VirtMapper} {l : VirtLayout}
  {r z : VirtRange} {atype : AllocType} {es : List Edit} {result : Except MemErr Unit}
  {plan : σ → VirtLayout → Option (σ × List Edit × Except MemErr Unit)} {err : MemErr}

/-- A closure that is built from `push` and `pop_delete`: which calls it makes depends on what it
finds. -/
def editing (plan : σ → VirtLayout → Option (σ × List Edit × Except MemErr Unit)) :
    AllocFunc (Logged σ) := fun s l =>
  (plan s.state l).map fun r => ({ s with state := r.1 }, l.edits r.2.1, r.2.2)

/-- A call has changed no region and nothing in the page tables, and each allocation that the closure
pushed went back to the zone manager once. -/
structure Restored (m m' : VirtMapper) (s s' : Logged σ) (es : List Edit) : Prop where
  regions : m' = m
  tables : s'.mapped = s.mapped
  freed : ∃ freed, s'.freed = s.freed ++ freed ∧ freed.Perm (allocations (pushed es))

/-- What `remap` and `remap_at` can undo.  A closure that fails must not have popped an element that
counts as mapped, must have put back the others, and must not have pushed an allocation; where there
is no space, all elements must count as mapped, nothing may be queued, and the closure must have popped
neither one of the elements nor an allocation that it pushed. -/
def CanUndo (l : VirtLayout) (es : List Edit) : Except MemErr Unit → Prop
  | .error _ => l.dirtyIndex ≤ (tally l.data.length es).kept ∧
      (tally l.data.length es).added = l.data.drop (tally l.data.length es).kept ∧
        allocations (pushed es) = []
  | .ok () => l.deallocQue = [] ∧ l.dirtyIndex = l.data.length ∧
      (tally l.data.length es).kept = l.data.length ∧
        allocations (tally l.data.length es).dropped = []

/-- **A call of `remap` or `remap_at` that fails after the closure has run restores everything if and
only if the closure did what can be undone.** -/
theorem restored_iff (hz : r.aligned E.virt.toAddrApi = some z) (hl : (z, l) ∈ m.virtMap.entries)
    (hty : l.atype = atype) (hplan : plan s.state l = some (s₁, es, result))
    (h : m.remap E.logged s r atype (editing plan) = some (s', m', .error err) ∨
      ∃ target, m.remapAt E.logged s r target atype (editing plan) = some (s', m', .error err)) :
    Restored m m' s s' es ↔ CanUndo l es result := by
  have hcases : ∃ target moves,
      Resize E.logged s m z target atype (editing plan) moves s' m' (.error err) := by
    rcases h with h | ⟨target, h⟩
    · obtain ⟨z', hz', hcases⟩ := remap_cases h
      obtain rfl := Option.some.inj (hz'.symm.trans hz)
      exact ⟨_, _, hcases⟩
    · obtain ⟨z', hz', hcases⟩ := remapAt_cases h
      obtain rfl := Option.some.inj (hz'.symm.trans hz)
      exact ⟨_, _, hcases⟩
  obtain ⟨target, moves, hcases⟩ := hcases
  have hget := SortedMap.get?_eq_some.2 hl
  have hedit := l.edited_edits es
  have hrun : editing plan s l = some ({ s with state := s₁ }, l.edits es, result) := by
    rw [editing, hplan, Option.map_some]
  have hsame : ∀ {l₁}, (z, l₁) ∈ m.virtMap.entries → l₁ = l := fun hl₁ =>
    (Prod.mk.inj (SortedMap.entry_unique hl₁ hl rfl)).2
  have hregions : ∀ {l'}, (⟨m.virtMap.modify z fun _ => l'⟩ : VirtMapper) = m ↔ l' = l := by
    intro l'
    rw [VirtMapper.mk.injEq]
    exact SortedMap.modify_eq_self_iff hget
  cases hcases with
  | refused hno => exact absurd ⟨l, hl, hty⟩ hno
  | failed hl₁ hty₁ hf =>
    obtain rfl := hsame hl₁
    rw [hrun] at hf
    obtain ⟨rfl, rfl, rfl⟩ := by simpa using hf
    constructor
    · rintro ⟨hm, -, freed, hfreed, hperm⟩
      obtain rfl : freed = [] := List.append_right_eq_self.1 hfreed.symm
      obtain ⟨hle, hadded⟩ := hedit.eq_iff.1 (hregions.1 hm)
      exact ⟨hle, hadded, hperm.nil_eq.symm⟩
    · rintro ⟨hle, hadded, hnil⟩
      refine ⟨hregions.2 (hedit.eq_iff.2 ⟨hle, hadded⟩), rfl, [], (List.append_nil _).symm, ?_⟩
      rw [hnil]
  | reverted hl₁ hty₁ hf h0 hfs hr hrev =>
    obtain rfl := hsame hl₁
    rw [hrun] at hf
    obtain ⟨rfl, rfl, rfl⟩ := by simpa using hf
    obtain ⟨hfreed, hmapped⟩ := revert_logged hrev
    constructor
    · rintro ⟨hm, -, freed, hfreed', hperm⟩
      obtain ⟨hque, hlen, hkept⟩ := (hedit.revert_eq_iff hrev).1 (hregions.1 hm)
      rw [hedit.dirtySlice_eq hlen hkept] at hfreed
      obtain rfl := List.append_cancel_left (hfreed.symm.trans hfreed')
      exact ⟨hque, hlen, hkept, (allocations_perm_iff _ es).1 hperm⟩
    · rintro ⟨hque, hlen, hkept, hnil⟩
      rw [hedit.dirtySlice_eq hlen hkept] at hfreed
      exact ⟨hregions.2 ((hedit.revert_eq_iff hrev).2 ⟨hque, hlen, hkept⟩), hmapped, _, hfreed,
        (allocations_perm_iff _ es).2 hnil⟩

/-! ### Two calls -/

/-- Nothing was recorded yet. -/
def noLog : Logged Unit := ⟨(), [], []⟩

/-- The first of the two regions. -/
def firstRegion : VirtRange := ⟨0x1000, 0x2000⟩

/-- Its layout. -/
def firstLayout : VirtLayout := ⟨[reservedPage, reservedPage], [], 2, 0x2000, .virtMem, le_rfl⟩

/-- A page with memory behind it. -/
def allocatedPage : VirtLayoutElement :=
  ⟨.allocedMem ⟨⟨KERNEL_VMA + 0x200000, PAGE_SIZE⟩, 0⟩, PAGE_SIZE, .NONE, 0⟩

/-- The first region is to be edited and moved to where the second one is. -/
def editFirst (es : List Edit) : Option (VirtMapper × Logged Unit × VirtMapper × Except MemErr VirtRange) :=
  (Machine.run (step idle.logged) .new (twoRegions noLog)).bind fun m =>
    (m.remapAt idle.logged noLog firstRegion 0x3000 .virtMem
      (editing fun s _ => some (s, es, .ok ()))).map fun r => (m, r)

/-- The error of `remap_at`. -/
def noTarget : MemErr := .invlVirtMem "could not remap virt zone to target virt zone"

theorem restored_push : ∃ m s' m', editFirst [.push allocatedPage] = some (m, s', m', .error noTarget) ∧
    Restored m m' noLog s' [.push allocatedPage] := by
  have hlayout : (Machine.run (step idle.logged) .new (twoRegions noLog)).bind
      (fun m => m.virtMap.get? firstRegion) = some firstLayout := by decide +kernel
  have herror : (editFirst [.push allocatedPage]).map (fun r => r.2.2.2) = some (.error noTarget) := by
    decide +kernel
  have hz : firstRegion.aligned virtAddr.toAddrApi = some firstRegion := by decide +kernel
  obtain ⟨⟨m, s', m', res⟩, hcall, rfl⟩ := Option.map_eq_some_iff.1 herror
  obtain ⟨m₁, hrun, hresize⟩ := Option.bind_eq_some_iff.1 hcall
  obtain ⟨r, hresize, he⟩ := Option.map_eq_some_iff.1 hresize
  obtain ⟨rfl, rfl⟩ := Prod.mk.inj he
  rw [hrun] at hlayout
  refine ⟨_, s', m', hcall, (restored_iff hz (SortedMap.get?_eq_some.1 hlayout) rfl rfl
    (Or.inr ⟨0x3000, hresize⟩)).2 ?_⟩
  exact ⟨rfl, rfl, by decide, by decide⟩

/-- The closure pops a page.  The page comes back, but it does not count as mapped any more. -/
theorem not_restored_pop : ∃ m s' m', editFirst [.popDelete] = some (m, s', m', .error noTarget) ∧
    (m.virtMap.get? firstRegion).map VirtLayout.dirtyIndex = some 2 ∧
    (m'.virtMap.get? firstRegion).map VirtLayout.dirtyIndex = some 1 ∧
    ¬ Restored m m' noLog s' [.popDelete] := by
  have hcall : (editFirst [.popDelete]).map (fun r => (r.2.2.2,
      (r.1.virtMap.get? firstRegion).map VirtLayout.dirtyIndex,
      (r.2.2.1.virtMap.get? firstRegion).map VirtLayout.dirtyIndex))
        = some (.error noTarget, some 2, some 1) := by decide +kernel
  obtain ⟨⟨m, s', m', res⟩, hcall, he⟩ := Option.map_eq_some_iff.1 hcall
  obtain ⟨hres, hindex⟩ := Prod.mk.inj he
  obtain ⟨hbefore, hafter⟩ := Prod.mk.inj hindex
  simp only at hres hbefore hafter
  subst hres
  refine ⟨m, s', m', hcall, hbefore, hafter, fun h => ?_⟩
  rw [h.regions, hbefore] at hafter
  exact absurd hafter (by decide)

end VirtMapper
end AuroraOs
