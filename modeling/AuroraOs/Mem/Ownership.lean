import AuroraOs.Mem.Shrink
import AuroraOs.Sched.NewThread

/-!
# Who owns an allocation

An allocation that becomes the memory behind an element of a layout is to go back to the zone manager once,
when its layout goes.  Elements are copied freely, and what is behind them is given back in five places:
`dealloc`, `drop`, `sync_mem`, `mark_unmapped` and `revert`.

The rest of the kernel keeps two accounts here, of the allocations that were given to layouts and of those
that were freed.  Each call moves allocations between the layouts of an address space and these accounts.
The calls that unmap a region for good free what is behind it twice: `dealloc` is called, and the layout is
dropped afterwards.
-/

namespace AuroraOs

open Machine

/-! ### The accounts -/

/-- The state of the rest of the kernel, with the allocations that were given to layouts, and those that
were passed to `zm.dealloc`. -/
structure Books (σ : Type) where
  state : σ
  given : Multiset ZoneAllocation
  freed : Multiset ZoneAllocation

/-- The rest of the kernel, which keeps accounts. -/
def MemEnv.booked {σ : Type} (E : MemEnv σ) : MemEnv (Books σ) where
  alloc s size := (E.alloc s.state size).map fun r =>
    (⟨r.1, s.given + (r.2.toList : Multiset ZoneAllocation), s.freed⟩, r.2)
  dealloc s mem := (E.dealloc s.state mem).map fun state => ⟨state, s.given, s.freed + {mem}⟩
  mapInternal s zones := (E.mapInternal s.state zones).map fun state => ⟨state, s.given, s.freed⟩
  phys := E.phys
  virt := E.virt

/-- Allocations are given to a layout. -/
def Books.give {σ : Type} (s : Books σ) (mems : Multiset ZoneAllocation) : Books σ :=
  { s with given := s.given + mems }

/-- The allocations behind elements. -/
def owned (elems : List VirtLayoutElement) : Multiset ZoneAllocation := (allocations elems : List ZoneAllocation)

/-- The allocations behind a layout. -/
def VirtLayout.owned (self : VirtLayout) : Multiset ZoneAllocation :=
  AuroraOs.owned self.data + AuroraOs.owned self.deallocQue

/-- The allocations behind the layouts of an address space. -/
def VirtMapper.owned (self : VirtMapper) : Multiset ZoneAllocation :=
  (self.virtMap.entries.map fun e => e.2.owned).sum

section Owned

variable {xs ys : List VirtLayoutElement} {e : VirtLayoutElement} {l : VirtLayout} {r : VirtRange}
  {map : SortedMap VirtRange VirtLayout}

@[simp] theorem owned_nil : owned [] = 0 := rfl

@[simp] theorem owned_append : owned (xs ++ ys) = owned xs + owned ys := by
  rw [owned, allocations, List.filterMap_append]
  rfl

@[simp] theorem owned_reverse : owned xs.reverse = owned xs :=
  Multiset.coe_eq_coe.2 ((List.reverse_perm xs).filterMap _)

theorem owned_cons : owned (e :: xs) = (e.allocation?.toList : Multiset ZoneAllocation) + owned xs := by
  rw [owned, allocations, List.filterMap_cons]
  cases e.allocation? <;> rfl

theorem VirtLayout.owned_parts (l : VirtLayout) :
    AuroraOs.owned l.data = AuroraOs.owned l.cleanSlice + AuroraOs.owned l.dirtySlice := by
  rw [← owned_append, VirtLayout.cleanSlice, VirtLayout.dirtySlice, List.take_append_drop]

theorem VirtLayout.owned_push (hque : l.deallocQue = []) : (l.push e).owned = AuroraOs.owned [e] + l.owned := by
  rw [VirtLayout.owned, VirtLayout.owned, show (l.push e).deallocQue = l.deallocQue from rfl, hque, owned_nil,
    add_zero, add_zero, show (l.push e).data = l.data ++ [e] from rfl, owned_append, add_comm]

theorem VirtMapper.owned_of_perm {es : List (VirtRange × VirtLayout)} (h : map.entries.Perm es) :
    VirtMapper.owned ⟨map⟩ = (es.map fun e => e.2.owned).sum := (h.map _).sum_eq

/-- The layout of one region, and those of the others. -/
theorem VirtMapper.owned_erase (h : map.get? r = some l) :
    VirtMapper.owned ⟨map⟩ = l.owned + VirtMapper.owned ⟨map.erase r⟩ := by
  rw [owned_of_perm (SortedMap.perm_erase h), List.map_cons, List.sum_cons]
  rfl

theorem VirtMapper.owned_insert :
    VirtMapper.owned ⟨map.insert r l⟩ = l.owned + VirtMapper.owned ⟨map.erase r⟩ := by
  rw [owned_of_perm SortedMap.perm_insert, List.map_cons, List.sum_cons]
  rfl

theorem VirtMapper.owned_modify {l' : VirtLayout} (h : map.get? r = some l) :
    VirtMapper.owned ⟨map.modify r fun _ => l'⟩ = l'.owned + VirtMapper.owned ⟨map.erase r⟩ := by
  rw [owned_of_perm (SortedMap.perm_modify h), List.map_cons, List.sum_cons]
  rfl

end Owned

/-! ### Moving allocations -/

section Transfer

variable {σ : Type} {s s₁ s' : Books σ} {x y z : Multiset ZoneAllocation}

/-- What owned the allocations `x` comes to own `y`: the accounts have the difference. -/
def Transfer (s s' : Books σ) (x y : Multiset ZoneAllocation) : Prop :=
  s'.given + (s.freed + x) = s.given + (s'.freed + y)

theorem Transfer.refl (s : Books σ) (x : Multiset ZoneAllocation) : Transfer s s x x := rfl

theorem Transfer.trans (h : Transfer s s₁ x y) (h' : Transfer s₁ s' y z) : Transfer s s' x z := by
  have hsum : (s₁.given + (s₁.freed + y)) + (s'.given + (s.freed + x)) =
      (s₁.given + (s₁.freed + y)) + (s.given + (s'.freed + z)) := by
    calc (s₁.given + (s₁.freed + y)) + (s'.given + (s.freed + x))
        = (s₁.given + (s.freed + x)) + (s'.given + (s₁.freed + y)) := by ac_rfl
      _ = (s.given + (s₁.freed + y)) + (s₁.given + (s'.freed + z)) := by rw [h, h']
      _ = (s₁.given + (s₁.freed + y)) + (s.given + (s'.freed + z)) := by ac_rfl
  exact add_left_cancel hsum

/-- Other owners keep what they have. -/
theorem Transfer.add (h : Transfer s s' x y) (z : Multiset ZoneAllocation) :
    Transfer s s' (x + z) (y + z) := by
  calc s'.given + (s.freed + (x + z)) = s'.given + (s.freed + x) + z := by ac_rfl
    _ = s.given + (s'.freed + y) + z := by rw [h]
    _ = s.given + (s'.freed + (y + z)) := by ac_rfl

end Transfer

/-! ### Layouts -/

/-- All elements count as mapped, and nothing else is. -/
structure VirtLayout.Settled (l : VirtLayout) : Prop where
  dirty : l.dirtyIndex = l.data.length
  que : l.deallocQue = []

section Layout

variable {σ : Type} {E : MemEnv σ} {s s' : Books σ} {a : VirtLayoutElement} {elems : List VirtLayoutElement}
  {l l' : VirtLayout} {zones : List Pmit} {x : Multiset ZoneAllocation} {size : ℕ} {flags : PageMappingFlags}

theorem transfer_alloc {mem : Option ZoneAllocation} (h : E.booked.alloc s size = some (s', mem)) :
    Transfer s s' 0 (mem.toList : Multiset ZoneAllocation) := by
  obtain ⟨r, -, h⟩ := Option.map_eq_some_iff.1 h
  obtain ⟨rfl, rfl⟩ := Prod.mk.inj h
  unfold Transfer
  simp only
  ac_rfl

theorem transfer_give (s : Books σ) (x : Multiset ZoneAllocation) : Transfer s (s.give x) 0 x := by
  unfold Transfer Books.give
  simp only
  ac_rfl

theorem transfer_mapInternal (h : E.booked.mapInternal s zones = some s') : Transfer s s' x x := by
  obtain ⟨state, -, rfl⟩ := Option.map_eq_some_iff.1 h
  exact .refl s x

/-- An element gives back what is behind it. -/
theorem transfer_dealloc (h : a.dealloc E.booked.toMemApi s = some s') :
    Transfer s s' (a.allocation?.toList : Multiset ZoneAllocation) 0 := by
  unfold VirtLayoutElement.dealloc at h
  unfold VirtLayoutElement.allocation?
  cases hdata : a.physData with
  | allocedMem mem =>
    rw [hdata] at h
    obtain ⟨state, -, rfl⟩ := Option.map_eq_some_iff.1 h
    unfold Transfer
    simp only
    ac_rfl
  | mem mem =>
    rw [hdata] at h
    obtain rfl := Option.some.inj h
    exact .refl s 0
  | empty size =>
    rw [hdata] at h
    obtain rfl := Option.some.inj h
    exact .refl s 0

theorem transfer_deallocAll (h : VirtLayout.deallocAll E.booked.toMemApi s elems = some s') :
    Transfer s s' (owned elems) 0 := by
  induction elems generalizing s with
  | nil =>
    obtain rfl := Option.some.inj h
    exact .refl s 0
  | cons a elems ih =>
    obtain ⟨s₁, hs₁, h⟩ := Option.bind_eq_some_iff.1 h
    have hfirst := (transfer_dealloc hs₁).add (owned elems)
    rw [zero_add] at hfirst
    rw [owned_cons]
    exact hfirst.trans (ih h)

/-- What is queued is given back, and the rest stays. -/
theorem transfer_que (h : VirtLayout.deallocAll E.booked.toMemApi s l.deallocQue = some s')
    (hdata : l'.data = l.data) (hque : l'.deallocQue = []) : Transfer s s' l.owned l'.owned := by
  have hmove := (transfer_deallocAll h).add (owned l.data)
  rwa [VirtLayout.owned, VirtLayout.owned, hdata, hque, owned_nil, add_comm (owned l.data), add_comm (owned l.data)]

theorem VirtLayout.transfer_dealloc (h : l.dealloc E.booked.toMemApi s = some s') :
    Transfer s s' l.owned 0 := by
  obtain ⟨s₁, hs₁, h⟩ := Option.bind_eq_some_iff.1 h
  have hdata := (transfer_deallocAll hs₁).add (AuroraOs.owned l.deallocQue)
  rw [zero_add] at hdata
  exact hdata.trans (transfer_deallocAll h)

theorem VirtLayout.transfer_syncMem (h : l.syncMem E.booked.toMemApi s = some (s', l')) :
    Transfer s s' l.owned l'.owned ∧ l'.Settled := by
  obtain ⟨s₁, hs₁, h⟩ := Option.bind_eq_some_iff.1 h
  obtain ⟨rfl, rfl⟩ := Prod.mk.inj (Option.some.inj h)
  exact ⟨transfer_que hs₁ rfl rfl, rfl, rfl⟩

theorem VirtLayout.transfer_markUnmapped (h : l.markUnmapped E.booked.toMemApi s = some (s', l')) :
    Transfer s s' l.owned l'.owned ∧ l'.data = l.data ∧ l'.deallocQue = [] := by
  obtain ⟨s₁, hs₁, h⟩ := Option.bind_eq_some_iff.1 h
  obtain ⟨rfl, rfl⟩ := Prod.mk.inj (Option.some.inj h)
  exact ⟨transfer_que hs₁ rfl rfl, rfl, rfl⟩

theorem VirtLayout.transfer_revert (h : l.revert E.booked.toMemApi s = some (s', l')) :
    Transfer s s' l.owned l'.owned ∧ (l.deallocQue = [] → l'.Settled) := by
  obtain ⟨s₁, hs₁, h⟩ := Option.bind_eq_some_iff.1 h
  obtain ⟨rfl, rfl⟩ := Prod.mk.inj (Option.some.inj h)
  constructor
  · have hdirty := (transfer_deallocAll hs₁).add (AuroraOs.owned l.cleanSlice + AuroraOs.owned l.deallocQue)
    rw [owned_reverse, zero_add] at hdirty
    rw [VirtLayout.owned, VirtLayout.owned, owned_append, owned_reverse, owned_nil, add_zero, l.owned_parts,
      add_comm (AuroraOs.owned l.cleanSlice), add_assoc]
    exact hdirty
  · intro hque
    refine ⟨?_, rfl⟩
    simp only [hque, List.reverse_nil, List.append_nil, VirtLayout.length_cleanSlice]

/-- `VirtLayoutElement::new` gives the element what it allocates. -/
theorem transfer_new {e : Option VirtLayoutElement}
    (h : VirtLayoutElement.new E.booked.toMemApi s size flags = some (s', e)) :
    Transfer s s' 0 (owned e.toList) := by
  unfold VirtLayoutElement.new at h
  by_cases hexists : flags.exists_ = true
  · rw [if_pos hexists] at h
    obtain ⟨⟨s₁, mem⟩, halloc, h⟩ := Option.bind_eq_some_iff.1 h
    obtain ⟨rfl, rfl⟩ := Prod.mk.inj (Option.some.inj h)
    have halloced := transfer_alloc halloc
    cases mem with
    | none => exact halloced
    | some mem => exact halloced
  · rw [if_neg hexists] at h
    obtain ⟨rfl, rfl⟩ := Prod.mk.inj (Option.some.inj h)
    exact .refl s 0

end Layout

/-! ### The calls of an address space -/

namespace VirtMapper

/-- The layouts of all regions are settled. -/
def Settled (self : VirtMapper) : Prop := ∀ e ∈ self.virtMap.entries, e.2.Settled

variable {σ : Type} {E : MemEnv σ} {s s₁ s' : Books σ} {m m' : VirtMapper} {l l₁ l' : VirtLayout}
  {r z : VirtRange} {map : SortedMap VirtRange VirtLayout} {atype : AllocType} {res : Except MemErr VirtRange}
  {x y w : Multiset ZoneAllocation}

theorem Settled.erase (h : Settled ⟨map⟩) : Settled ⟨map.erase r⟩ := fun _ he => h _ (SortedMap.mem_erase.1 he).1

theorem Settled.insert (h : Settled ⟨map⟩) (hl : l.Settled) : Settled ⟨map.insert r l⟩ := by
  intro e he
  rcases SortedMap.mem_insert.1 he with rfl | ⟨he, -⟩
  · exact hl
  · exact h e he

theorem Settled.modify (h : Settled ⟨map.erase r⟩) (hl : l.Settled) : Settled ⟨map.modify r fun _ => l⟩ := by
  intro e he
  rcases SortedMap.mem_modify.1 he with ⟨v, -, rfl⟩ | he
  · exact hl
  · exact h e (SortedMap.mem_erase.2 he)

/-- What a call does: the allocations `x` and those of the address space become `y` and those that the
address space has then, and settled layouts stay so. -/
structure Moves (s s' : Books σ) (m m' : VirtMapper) (x y : Multiset ZoneAllocation) : Prop where
  transfer : Transfer s s' (x + m.owned) (y + m'.owned)
  settled : m.Settled → m'.Settled

theorem Moves.refl (s : Books σ) (m : VirtMapper) (x : Multiset ZoneAllocation) : Moves s s m m x x :=
  ⟨.refl s _, id⟩

theorem Moves.after (h : Transfer s s₁ x y) (h' : Moves s₁ s' m m' y w) : Moves s s' m m' x w :=
  ⟨(h.add m.owned).trans h'.transfer, h'.settled⟩

theorem Moves.then (h : Moves s s₁ m m' x y) (h' : Transfer s₁ s' y w) : Moves s s' m m' x w :=
  ⟨h.transfer.trans (h'.add m'.owned), h.settled⟩

/-- Allocations that a call does not touch. -/
theorem Moves.add (h : Moves s s' m m' x y) (w : Multiset ZoneAllocation) : Moves s s' m m' (x + w) (y + w) := by
  refine ⟨?_, h.settled⟩
  rw [add_right_comm, add_right_comm y]
  exact h.transfer.add w

/-- The layout of a region that is replaced is dropped. -/
theorem moves_insert (hl : l.Settled) (h : m.insert E.booked s r l = some (s', m')) :
    Moves s s' m m' l.owned 0 := by
  unfold insert at h
  cases hget : m.virtMap.get? r with
  | none =>
    rw [hget] at h
    obtain ⟨rfl, rfl⟩ := Prod.mk.inj (Option.some.inj h)
    refine ⟨?_, fun hm => hm.insert hl⟩
    rw [owned_insert, zero_add, SortedMap.erase_of_none hget]
    exact .refl s _
  | some old =>
    rw [hget] at h
    obtain ⟨s₁, hs₁, h⟩ := Option.bind_eq_some_iff.1 h
    obtain ⟨rfl, rfl⟩ := Prod.mk.inj (Option.some.inj h)
    refine ⟨?_, fun hm => hm.insert hl⟩
    have hdrop := (VirtLayout.transfer_dealloc hs₁).add (l.owned + VirtMapper.owned ⟨m.virtMap.erase r⟩)
    rw [owned_insert, zero_add, show m.owned = _ from owned_erase hget]
    rwa [zero_add, add_left_comm] at hdrop

theorem moves_place (h : place E.booked s m l r = some (s', m')) : Moves s s' m m' l.owned 0 := by
  obtain ⟨zones, -, h⟩ := Option.bind_eq_some_iff.1 h
  obtain ⟨s₁, hs₁, h⟩ := Option.bind_eq_some_iff.1 h
  obtain ⟨⟨s₂, l₂⟩, hsync, h⟩ := Option.bind_eq_some_iff.1 h
  obtain ⟨htransfer, hsettled⟩ := VirtLayout.transfer_syncMem hsync
  exact .after ((transfer_mapInternal hs₁).trans htransfer) (moves_insert hsettled h)

/-- A layout that is not taken is dropped. -/
theorem moves_refuse {err : MemErr} (h : ((l.dealloc E.booked.toMemApi s).bind fun s => some (s, m, .error err)) =
    some (s', m', res)) : Moves s s' m m' l.owned 0 := by
  obtain ⟨s₁, hs₁, h⟩ := Option.bind_eq_some_iff.1 h
  obtain ⟨rfl, rfl, -⟩ := by simpa using h
  exact .after (VirtLayout.transfer_dealloc hs₁) (.refl s₁ m 0)

theorem moves_map (h : m.map E.booked s l = some (s', m', res)) : Moves s s' m m' l.owned 0 := by
  simp only [VirtMapper.map] at h
  split_ifs at h with h0
  · exact moves_refuse h
  · obtain ⟨_ | r, -, h⟩ := Option.bind_eq_some_iff.1 h
    · exact moves_refuse h
    · obtain ⟨⟨s₁, m₁⟩, hplace, h⟩ := Option.bind_eq_some_iff.1 h
      obtain ⟨rfl, rfl, -⟩ := by simpa using h
      exact moves_place hplace

theorem moves_mapAt (h : m.mapAt E.booked s l z = some (s', m', res)) : Moves s s' m m' l.owned 0 := by
  simp only [mapAt] at h
  obtain ⟨r, -, h⟩ := Option.bind_eq_some_iff.1 h
  split_ifs at h
  · exact moves_refuse h
  · exact moves_refuse h
  · obtain ⟨_ | fs, -, h⟩ := Option.bind_eq_some_iff.1 h
    · exact moves_refuse h
    · obtain ⟨⟨s₁, m₁⟩, hplace, h⟩ := Option.bind_eq_some_iff.1 h
      obtain ⟨rfl, rfl, -⟩ := by simpa using h
      exact moves_place hplace

/-- What is behind a region of a type. -/
def behind (m : VirtMapper) (z : VirtRange) (atype : AllocType) : Multiset ZoneAllocation :=
  match m.virtMap.get? z with
  | some l => if l.atype = atype then l.owned else 0
  | none => 0

/-- `unmap` hands the layout of the region out, or leaves everything as it is where there is none. -/
theorem moves_unmap {res : Except MemErr VirtLayout} (hm : m.Settled)
    (h : m.unmap E.booked s z atype = some (s', m', res)) :
    (∃ err, res = .error err) ∧ s' = s ∧ m' = m ∧ m.behind z atype = 0 ∨
      ∃ layout, res = .ok layout ∧ layout.owned = m.behind z atype ∧ Moves s s' m m' 0 layout.owned := by
  unfold unmap at h
  unfold behind
  cases hget : m.virtMap.get? z with
  | none =>
    rw [hget] at h
    obtain ⟨rfl, rfl, rfl⟩ := by simpa using h
    exact Or.inl ⟨⟨_, rfl⟩, rfl, rfl, rfl⟩
  | some l =>
    rw [hget] at h
    simp only at h ⊢
    by_cases hty : l.allocType ≠ atype
    · rw [if_pos hty] at h
      obtain ⟨rfl, rfl, rfl⟩ := by simpa using h
      exact Or.inl ⟨⟨_, rfl⟩, rfl, rfl, if_neg hty⟩
    · rw [if_neg hty] at h
      obtain ⟨zones, -, h⟩ := Option.bind_eq_some_iff.1 h
      obtain ⟨s₁, hs₁, h⟩ := Option.bind_eq_some_iff.1 h
      obtain ⟨⟨s₂, layout⟩, hmark, h⟩ := Option.bind_eq_some_iff.1 h
      obtain ⟨rfl, rfl, rfl⟩ := by simpa using h
      obtain ⟨htransfer, hdata, hque⟩ := VirtLayout.transfer_markUnmapped hmark
      have hsettled := hm _ (SortedMap.get?_eq_some.1 hget)
      refine Or.inr ⟨layout, rfl, ?_, ?_, Settled.erase⟩
      · rw [if_pos (not_not.1 hty : l.atype = atype), VirtLayout.owned, VirtLayout.owned, hdata, hque, hsettled.que]
      · rw [zero_add, show m.owned = _ from owned_erase hget]
        exact ((transfer_mapInternal hs₁).trans htransfer).add _

/-! ### Resizing a region -/

/-- A closure that adds to a layout, or leaves it as it is and fails. -/
def Grows (f : AllocFunc (Books σ)) : Prop := ∀ {s l s₁ l₁ result}, l.Settled → f s l = some (s₁, l₁, result) →
  Transfer s s₁ l.owned l₁.owned ∧ l₁.deallocQue = [] ∧ ∀ err, result = .error err → l₁ = l

variable {f : AllocFunc (Books σ)} {target : ℕ}

/-- A layout that is put back in its region. -/
theorem moves_modify (hget : m.virtMap.get? z = some l) (hl : l₁.Settled) :
    Moves s s ⟨m.virtMap.erase z⟩ ⟨m.virtMap.modify z fun _ => l₁⟩ l₁.owned 0 := by
  refine ⟨?_, fun hm => hm.modify hl⟩
  rw [owned_modify hget, zero_add]
  exact .refl s _

/-- A layout that is unmapped and mapped elsewhere. -/
theorem moves_away {zones : List Pmit} {s₂ : Books σ} (hunmap : E.booked.mapInternal s zones = some s₁)
    (hmark : l.markUnmapped E.booked.toMemApi s₁ = some (s₂, l₁))
    (hplace : place E.booked s₂ m l₁ r = some (s', m')) : Moves s s' m m' l.owned 0 :=
  .after ((transfer_mapInternal hunmap).trans (VirtLayout.transfer_markUnmapped hmark).1) (moves_place hplace)

/-- What is done with the layout that the closure leaves. -/
theorem moves_remapTo
    {full : Books σ → VirtMapper → VirtLayout → Option (Books σ × VirtMapper × Except MemErr VirtRange)}
    (hf : Grows f) (hm : m.Settled)
    (hfull : ∀ {l s₁ l₁}, m.virtMap.get? z = some l → l₁.deallocQue = [] →
      full s₁ ⟨m.virtMap.modify z fun _ => l₁⟩ l₁ = some (s', m', res) →
      Moves s₁ s' ⟨m.virtMap.erase z⟩ m' l₁.owned 0)
    (h : remapTo E.booked s m z target atype f full = some (s', m', res)) : Moves s s' m m' 0 0 := by
  unfold remapTo at h
  cases hget : m.virtMap.get? z with
  | none =>
    rw [hget] at h
    obtain ⟨rfl, rfl, -⟩ := by simpa using h
    exact .refl s m 0
  | some l =>
    rw [hget] at h
    simp only at h
    by_cases hty : l.allocType ≠ atype
    · rw [if_pos hty] at h
      obtain ⟨rfl, rfl, -⟩ := by simpa using h
      exact .refl s m 0
    rw [if_neg hty] at h
    obtain ⟨⟨s₁, l₁, result⟩, hclosure, h⟩ := Option.bind_eq_some_iff.1 h
    have hl := hm _ (SortedMap.get?_eq_some.1 hget)
    obtain ⟨htransfer, hque, herror⟩ := hf hl hclosure
    have hrest : Moves s₁ s' ⟨m.virtMap.erase z⟩ m' l₁.owned 0 := by
      cases result with
      | error err =>
        obtain ⟨rfl, rfl, -⟩ := by simpa using h
        exact moves_modify hget (herror err rfl ▸ hl)
      | ok u =>
        simp only [freeSpace_modify, SortedMap.erase_modify] at h
        by_cases h0 : l₁.size = 0
        · simp only [h0, if_true, Option.bind_eq_bind, Option.bind_eq_some_iff] at h
          obtain ⟨_, -, s₂, hs₂, ⟨s₃, l₃⟩, hsync, s₄, hdrop, h⟩ := h
          obtain ⟨rfl, rfl, -⟩ := by simpa using h
          exact .after (((transfer_mapInternal hs₂).trans (VirtLayout.transfer_syncMem hsync).1).trans
            (VirtLayout.transfer_dealloc hdrop)) (.refl s₄ _ 0)
        rw [if_neg h0] at h
        obtain ⟨_ | fs, hfs, h⟩ := Option.bind_eq_some_iff.1 h
        · exact hfull hget hque h
        by_cases hmove : target ≠ z.addr
        · simp only [if_pos hmove, Option.bind_eq_bind, Option.bind_eq_some_iff] at h
          obtain ⟨_, -, s₂, hs₂, ⟨s₃, l₃⟩, hmark, ⟨s₄, m₄⟩, hplace, h⟩ := h
          obtain ⟨rfl, rfl, -⟩ := by simpa using h
          exact moves_away hs₂ hmark hplace
        · rw [if_neg hmove] at h
          obtain ⟨_, hsame, h⟩ := Option.bind_eq_some_iff.1 h
          obtain rfl := Option.some.inj hsame
          obtain ⟨⟨s₂, m₂⟩, hplace, h⟩ := Option.bind_eq_some_iff.1 h
          obtain ⟨rfl, rfl, -⟩ := by simpa using h
          exact moves_place hplace
    have hstart := (Moves.after htransfer hrest)
    refine ⟨?_, fun _ => hstart.settled hm.erase⟩
    rw [zero_add, show m.owned = _ from owned_erase hget]
    exact hstart.transfer

theorem moves_reverted {err : MemErr} {g : VirtLayout → VirtLayout} (hget : m.virtMap.get? z = some l)
    (hque : l₁.deallocQue = [])
    (h : reverted E.booked s ⟨m.virtMap.modify z g⟩ z l₁ err = some (s', m', res)) :
    Moves s s' ⟨m.virtMap.erase z⟩ m' l₁.owned 0 := by
  obtain ⟨l₂, hrev, rfl, -⟩ := reverted_spec h
  obtain ⟨htransfer, hsettled⟩ := VirtLayout.transfer_revert hrev
  exact .after htransfer (moves_modify hget (hsettled hque))

theorem moves_remap (hf : Grows f) (hm : m.Settled)
    (h : m.remap E.booked s r atype f = some (s', m', res)) : Moves s s' m m' 0 0 := by
  obtain ⟨z, hz, h⟩ := Option.bind_eq_some_iff.1 h
  refine moves_remapTo hf hm ?_ h
  intro l s₁ l₁ hget hque h
  rw [findRange_modify, SortedMap.erase_modify] at h
  obtain ⟨_ | r', -, h⟩ := Option.bind_eq_some_iff.1 h
  · exact moves_reverted hget hque h
  · simp only [Option.bind_eq_bind, Option.bind_eq_some_iff] at h
    obtain ⟨_, -, s₂, hs₂, ⟨s₃, l₃⟩, hmark, ⟨s₄, m₄⟩, hplace, h⟩ := h
    obtain ⟨rfl, rfl, -⟩ := by simpa using h
    exact moves_away hs₂ hmark hplace

theorem moves_remapAt (hf : Grows f) (hm : m.Settled)
    (h : m.remapAt E.booked s r target atype f = some (s', m', res)) : Moves s s' m m' 0 0 := by
  obtain ⟨z, hz, h⟩ := Option.bind_eq_some_iff.1 h
  exact moves_remapTo hf hm (fun hget hque h => moves_reverted hget hque h) h

/-- The closure of `realloc` adds an element, or fails; it never comes back from making a layout smaller. -/
theorem grows_reallocFunc {size : ℕ} {flags : PageMappingFlags} (hpos : 0 < size) :
    Grows (reallocFunc E.booked size flags) := by
  intro s l s₁ l₁ result hl h
  obtain ⟨newFlags, -, h⟩ := Option.bind_eq_some_iff.1 h
  simp only at h
  by_cases hgrow : size > l.size
  · rw [if_pos hgrow] at h
    obtain ⟨⟨s₂, _ | e⟩, hnew, h⟩ := Option.bind_eq_some_iff.1 h
    · obtain ⟨rfl, rfl, rfl⟩ := by simpa using h
      have hmove := (transfer_new hnew).add l.owned
      rw [zero_add, Option.toList_none, owned_nil, zero_add] at hmove
      exact ⟨hmove, hl.que, fun _ _ => rfl⟩
    · obtain ⟨rfl, rfl, rfl⟩ := by simpa using h
      have hmove := (transfer_new hnew).add l.owned
      rw [zero_add, Option.toList_some] at hmove
      refine ⟨?_, hl.que, fun err herr => nomatch herr⟩
      rw [VirtLayout.owned_push hl.que]
      exact hmove
  · rw [if_neg hgrow] at h
    by_cases hshrink : size < l.size
    · rw [if_pos hshrink] at h
      obtain ⟨l₂, hloop, h⟩ := Option.bind_eq_some_iff.1 h
      obtain ⟨diff, hends⟩ := (shrink_eq_some_iff (Nat.lt_succ_self _)).1 hloop
      exact absurd hends (not_ends hl.dirty hpos hshrink _)
    · rw [if_neg hshrink] at h
      obtain ⟨rfl, rfl, rfl⟩ := by simpa using h
      exact ⟨.refl s _, hl.que, fun err herr => nomatch herr⟩

/-! ### The calls that give memory to layouts -/

section Calls

variable {ret : SysRet} {options : BitVec 32} {a1 a2 a3 : Usize}

theorem moves_reallocAlloc {size atAddr : ℕ} {flags : PageMappingFlags}
    (h : m.reallocAlloc E.booked s size atAddr flags = some (s', m', ret)) : Moves s s' m m' 0 0 := by
  unfold reallocAlloc at h
  by_cases h0 : size = 0
  · rw [if_pos h0] at h
    obtain ⟨rfl, rfl, -⟩ := by simpa using h
    exact .refl s m 0
  rw [if_neg h0] at h
  obtain ⟨⟨s₁, _ | e⟩, hnew, h⟩ := Option.bind_eq_some_iff.1 h
  · obtain ⟨rfl, rfl, -⟩ := by simpa using h
    exact .after (transfer_new hnew) (.refl s₁ m 0)
  · have hlayout : (VirtLayout.ofVec [e] .virtMem).owned = AuroraOs.owned (some e).toList := add_zero _
    refine .after (transfer_new hnew) (hlayout ▸ ?_)
    by_cases hat : atAddr = 0
    · simp only [if_pos hat] at h
      obtain ⟨⟨s₂, m₂, res⟩, hmap, h⟩ := Option.bind_eq_some_iff.1 h
      obtain ⟨rfl, rfl, -⟩ := by simpa using h
      exact moves_map hmap
    · simp only [if_neg hat] at h
      obtain ⟨⟨s₂, m₂, res⟩, hmap, h⟩ := Option.bind_eq_some_iff.1 h
      obtain ⟨rfl, rfl, -⟩ := by simpa using h
      exact moves_mapAt hmap

/-- A region that is unmapped for good: its layout is deallocated, and then dropped. -/
theorem moves_destroy {layout : VirtLayout} {s₂ : Books σ} (hm : m.Settled)
    (h : m.unmap E.booked s z atype = some (s₁, m', .ok layout))
    (hfirst : layout.dealloc E.booked.toMemApi s₁ = some s₂)
    (hsecond : layout.dealloc E.booked.toMemApi s₂ = some s') : Moves s s' m m' (m.behind z atype) 0 := by
  rcases moves_unmap hm h with ⟨⟨err, herr⟩, -⟩ | ⟨l, hl, hbehind, hmoves⟩
  · cases herr
  · obtain rfl := Except.ok.inj hl
    rw [← hbehind]
    have hunmapped := hmoves.add layout.owned
    rw [zero_add] at hunmapped
    have honce := (VirtLayout.transfer_dealloc hfirst).add layout.owned
    rw [zero_add] at honce
    exact (hunmapped.then honce).then (VirtLayout.transfer_dealloc hsecond)

/-- The region that `realloc` finds at an address it is to free, and what is behind it. -/
def doubledAt (V : VirtAddrApi) (m : VirtMapper) (addr : ℕ) : Multiset ZoneAllocation :=
  match (m.getMappedRange V (V.newTruncate addr)).join with
  | some z => m.behind z .virtMem
  | none => 0

theorem moves_reallocFree {addr : ℕ} (hm : m.Settled) (h : m.reallocFree E.booked s addr = some (s', m', ret)) :
    Moves s s' m m' (m.doubledAt E.virt addr) 0 := by
  unfold doubledAt
  obtain ⟨_ | z, hz, h⟩ := Option.bind_eq_some_iff.1 h
  · obtain ⟨rfl, rfl, -⟩ := by simpa using h
    rw [show m.getMappedRange E.virt (E.virt.newTruncate addr) = some none from hz]
    exact .refl s m 0
  · rw [show m.getMappedRange E.virt (E.virt.newTruncate addr) = some (some z) from hz]
    obtain ⟨⟨s₁, m₁, err | layout⟩, hunmap, h⟩ := Option.bind_eq_some_iff.1 h
    · obtain ⟨rfl, rfl, -⟩ := by simpa using h
      rcases moves_unmap hm hunmap with ⟨-, rfl, rfl, hbehind⟩ | ⟨layout, hok, -⟩
      · simp only [Option.join_some, hbehind]
        exact .refl s₁ m₁ 0
      · cases hok
    · obtain ⟨s₂, hfirst, h⟩ := Option.bind_eq_some_iff.1 h
      obtain ⟨s₃, hsecond, h⟩ := Option.bind_eq_some_iff.1 h
      obtain ⟨rfl, rfl, -⟩ := by simpa using h
      exact moves_destroy hm hunmap hfirst hsecond

theorem moves_reallocResize {addr size atAddr atVaddr : ℕ} {flags : PageMappingFlags} (hm : m.Settled)
    (hpos : 0 < size) (h : m.reallocResize E.booked s addr size atAddr atVaddr flags = some (s', m', ret)) :
    Moves s s' m m' 0 0 := by
  obtain ⟨_ | z, -, h⟩ := Option.bind_eq_some_iff.1 h
  · obtain ⟨rfl, rfl, -⟩ := by simpa using h
    exact .refl s m 0
  · by_cases hat : atAddr = 0
    · simp only [if_pos hat] at h
      obtain ⟨⟨s₁, m₁, res⟩, hremap, h⟩ := Option.bind_eq_some_iff.1 h
      obtain ⟨rfl, rfl, -⟩ := by simpa using h
      exact moves_remap (grows_reallocFunc hpos) hm hremap
    · simp only [if_neg hat] at h
      obtain ⟨⟨s₁, m₁, res⟩, hremap, h⟩ := Option.bind_eq_some_iff.1 h
      obtain ⟨rfl, rfl, -⟩ := by simpa using h
      exact moves_remapAt (grows_reallocFunc hpos) hm hremap

/-- What `realloc` frees twice. -/
def reallocDoubles (V : VirtAddrApi) (m : VirtMapper) (a1 a2 a3 : Usize) : Multiset ZoneAllocation :=
  if alignOf a1.val < PAGE_SIZE ∨ alignOf a3.val < PAGE_SIZE ∨ V.new a3.val = none ∨ a1.val = 0 ∨
      a2.val * PAGE_SIZE % usizeMod ≠ 0 then 0
  else m.doubledAt V a1.val

theorem moves_realloc (hm : m.Settled) (h : m.realloc E.booked s options a1 a2 a3 = some (s', m', ret)) :
    Moves s s' m m' (m.reallocDoubles E.virt a1 a2 a3) 0 := by
  unfold realloc at h
  unfold reallocDoubles
  by_cases halign : alignOf a1.val < PAGE_SIZE ∨ alignOf a3.val < PAGE_SIZE
  · rw [if_pos halign] at h
    obtain ⟨rfl, rfl, -⟩ := by simpa using h
    rw [if_pos (by tauto)]
    exact .refl s m 0
  rw [if_neg halign] at h
  cases hat : E.virt.new a3.val with
  | none =>
    simp only [show E.booked.virt.new a3.val = none from hat] at h
    obtain ⟨rfl, rfl, -⟩ := by simpa using h
    rw [if_pos (by tauto)]
    exact .refl s m 0
  | some atVaddr =>
    simp only [show E.booked.virt.new a3.val = some atVaddr from hat] at h
    by_cases ha : a1.val = 0
    · rw [if_pos ha] at h
      rw [if_pos (by tauto)]
      exact moves_reallocAlloc h
    rw [if_neg ha] at h
    by_cases h0 : a2.val * PAGE_SIZE % usizeMod = 0
    · rw [if_pos h0] at h
      rw [if_neg (by simp only [reduceCtorEq]; tauto)]
      exact moves_reallocFree hm h
    · rw [if_neg h0] at h
      rw [if_pos (by tauto)]
      exact moves_reallocResize hm (Nat.pos_of_ne_zero h0) h

end Calls

end VirtMapper

/-! ### Stacks and message buffers -/

namespace Spawn

/-- `MSG_BUF_SIZE`. -/
def MSG_BUF_SIZE : ℕ := 1 * PAGE_SIZE

/-- `MsgBuf`. -/
structure MsgBuf where
  mem : ZoneAllocation
  vrange : VirtRange
  deriving DecidableEq

section

variable {σ : Type} (E : MemEnv σ) (s : σ) (mapper : VirtMapper)

/-- `Stack::dealloc`; the layout of a user stack is dropped after it is deallocated. -/
def Stack.dealloc : Stack → Option (σ × VirtMapper)
  | .user vrange => do
      let (s, mapper, result) ← mapper.unmap E s vrange .protected_
      match result with
      | .ok layout =>
          let s ← layout.dealloc E.toMemApi s
          let s ← layout.dealloc E.toMemApi s
          some (s, mapper)
      | .error _ => none
  | .kernel allocation => do some (← E.dealloc s allocation, mapper)
  | .kernelNoAlloc _ => some (s, mapper)

/-- The flags of a message buffer. -/
def MsgBuf.flags : PageMappingFlags := .USER ||| .READ ||| .WRITE ||| .EXACT_SIZE

/-- `MsgBuf::new`. -/
def MsgBuf.new : Option (σ × VirtMapper × Option MsgBuf) := do
  let (s, mem) ← E.alloc s MSG_BUF_SIZE
  match mem with
  | none => some (s, mapper, none)
  | some mem =>
      let vlayout := VirtLayout.ofVec [.fromMem mem MSG_BUF_SIZE MsgBuf.flags] .protected_
      let (s, mapper, result) ← mapper.map E s vlayout
      match result with
      | .ok vrange => some (s, mapper, some ⟨mem, vrange⟩)
      | .error _ => some (s, mapper, none)

/-- `MsgBuf::dealloc`; the layout is dropped after it is deallocated. -/
def MsgBuf.dealloc (self : MsgBuf) : Option (σ × VirtMapper) := do
  let (s, mapper, result) ← mapper.unmap E s self.vrange .protected_
  match result with
  | .ok vlayout =>
      let s ← vlayout.dealloc E.toMemApi s
      let s ← vlayout.dealloc E.toMemApi s
      some (s, mapper)
  | .error _ => none

end

section

open VirtMapper

variable {σ : Type} {E : MemEnv σ} {s s' : Books σ} {m m' : VirtMapper} {vrange : VirtRange}

theorem owned_stackLayout (mem : ZoneAllocation) :
    (stackLayout mem).owned = ((some mem).toList : Multiset ZoneAllocation) := rfl

theorem owned_bufLayout (mem : ZoneAllocation) {flags : PageMappingFlags} {size : ℕ} :
    (VirtLayout.ofVec [.fromMem mem size flags] .protected_).owned =
      ((some mem).toList : Multiset ZoneAllocation) := rfl

theorem moves_userNew {size : ℕ} {result : Except String Stack}
    (h : Stack.userNew E.booked s m size = some (s', m', result)) : Moves s s' m m' 0 0 := by
  rw [userNew_eq] at h
  obtain ⟨⟨s₁, _ | mem⟩, halloc, h⟩ := Option.bind_eq_some_iff.1 h
  · obtain ⟨rfl, rfl, -⟩ := by simpa using h
    exact .after (transfer_alloc halloc) (.refl s₁ m 0)
  · obtain ⟨⟨s₂, m₂, mapped⟩, hmap, h⟩ := Option.map_eq_some_iff.1 h
    obtain ⟨rfl, rfl, -⟩ := by simpa using h
    exact .after (transfer_alloc halloc) (owned_stackLayout mem ▸ moves_map hmap)

theorem moves_bufNew {result : Option MsgBuf}
    (h : MsgBuf.new E.booked s m = some (s', m', result)) : Moves s s' m m' 0 0 := by
  obtain ⟨⟨s₁, _ | mem⟩, halloc, h⟩ := Option.bind_eq_some_iff.1 h
  · obtain ⟨rfl, rfl, -⟩ := by simpa using h
    exact .after (transfer_alloc halloc) (.refl s₁ m 0)
  · obtain ⟨⟨s₂, m₂, err | vrange⟩, hmap, h⟩ := Option.bind_eq_some_iff.1 h
    all_goals
      obtain ⟨rfl, rfl, -⟩ := by simpa using h
      exact .after (transfer_alloc halloc) (owned_bufLayout mem ▸ moves_map hmap)

theorem moves_stackDealloc (hm : m.Settled)
    (h : Stack.dealloc E.booked s m (.user vrange) = some (s', m')) :
    Moves s s' m m' (m.behind vrange .protected_) 0 := by
  obtain ⟨⟨s₁, m₁, err | layout⟩, hunmap, h⟩ := Option.bind_eq_some_iff.1 h
  · cases h
  · obtain ⟨s₂, hfirst, h⟩ := Option.bind_eq_some_iff.1 h
    obtain ⟨s₃, hsecond, h⟩ := Option.bind_eq_some_iff.1 h
    obtain ⟨rfl, rfl⟩ := by simpa using h
    exact moves_destroy hm hunmap hfirst hsecond

theorem moves_bufDealloc {buf : MsgBuf} (hm : m.Settled)
    (h : MsgBuf.dealloc E.booked s m buf = some (s', m')) :
    Moves s s' m m' (m.behind buf.vrange .protected_) 0 := moves_stackDealloc hm h

end

end Spawn

/-! ### Every run -/

namespace Ownership

open VirtMapper Spawn

variable {σ : Type}

/-- A call that gives memory to layouts, or takes it back. -/
inductive Call (σ : Type)
  | realloc (options : BitVec 32) (a1 a2 a3 : Usize)
  | stackNew (size : ℕ)
  | stackDealloc (vrange : VirtRange)
  | bufNew
  | bufDealloc (buf : MsgBuf)
  /-- A layout is made elsewhere, and mapped. -/
  | map (physZones : VirtLayout)
  | mapAt (physZones : VirtLayout) (virtZone : VirtRange)
  | remap (virtZone : VirtRange) (atype : AllocType) (allocFunc : { f : AllocFunc (Books σ) // Grows f })
  | remapAt (virtZone : VirtRange) (targetAddr : ℕ) (atype : AllocType)
      (allocFunc : { f : AllocFunc (Books σ) // Grows f })
  /-- A region is unmapped, and its layout dropped. -/
  | unmap (virtZone : VirtRange) (atype : AllocType)
  /-- The rest of the kernel goes on. -/
  | rest (state : σ)

/-- The accounts, and an address space. -/
abbrev State (σ : Type) := Books σ × VirtMapper

/-- A call. -/
def step (E : MemEnv σ) : State σ → Call σ → Option (State σ)
  | (s, m), .realloc options a1 a2 a3 => (m.realloc E.booked s options a1 a2 a3).map fun r => (r.1, r.2.1)
  | (s, m), .stackNew size => (Stack.userNew E.booked s m size).map fun r => (r.1, r.2.1)
  | (s, m), .stackDealloc vrange => Stack.dealloc E.booked s m (.user vrange)
  | (s, m), .bufNew => (MsgBuf.new E.booked s m).map fun r => (r.1, r.2.1)
  | (s, m), .bufDealloc buf => MsgBuf.dealloc E.booked s m buf
  | (s, m), .map physZones => (m.map E.booked (s.give physZones.owned) physZones).map fun r => (r.1, r.2.1)
  | (s, m), .mapAt physZones virtZone =>
      (m.mapAt E.booked (s.give physZones.owned) physZones virtZone).map fun r => (r.1, r.2.1)
  | (s, m), .remap virtZone atype f => (m.remap E.booked s virtZone atype f.1).map fun r => (r.1, r.2.1)
  | (s, m), .remapAt virtZone target atype f =>
      (m.remapAt E.booked s virtZone target atype f.1).map fun r => (r.1, r.2.1)
  | (s, m), .unmap virtZone atype => do
      let (s, m, result) ← m.unmap E.booked s virtZone atype
      match result with
      | .ok layout => do some (← layout.dealloc E.booked.toMemApi s, m)
      | .error _ => some (s, m)
  | (s, m), .rest state => some ({ s with state := state }, m)

/-- What a call frees twice. -/
def doubles (V : VirtAddrApi) (m : VirtMapper) : Call σ → Multiset ZoneAllocation
  | .realloc _ a1 a2 a3 => m.reallocDoubles V a1 a2 a3
  | .stackDealloc vrange => m.behind vrange .protected_
  | .bufDealloc buf => m.behind buf.vrange .protected_
  | _ => 0

/-- What the calls of a run free twice. -/
def runDoubles (E : MemEnv σ) : State σ → List (Call σ) → Multiset ZoneAllocation
  | _, [] => 0
  | c, op :: ops => doubles E.virt c.2 op +
      match step E c op with
      | none => 0
      | some c' => runDoubles E c' ops

variable {E : MemEnv σ} {c c' : State σ} {op : Call σ} {ops : List (Call σ)}

/-- **One call** moves allocations between the layouts and the accounts; what it frees twice comes from
nowhere. -/
theorem step_moves (hm : c.2.Settled) (h : step E c op = some c') :
    Moves c.1 c'.1 c.2 c'.2 (doubles E.virt c.2 op) 0 := by
  obtain ⟨s, m⟩ := c
  cases op with
  | realloc options a1 a2 a3 =>
    obtain ⟨⟨s', m', ret⟩, hcall, rfl⟩ := Option.map_eq_some_iff.1 h
    exact moves_realloc hm hcall
  | stackNew size =>
    obtain ⟨⟨s', m', result⟩, hcall, rfl⟩ := Option.map_eq_some_iff.1 h
    exact moves_userNew hcall
  | stackDealloc vrange => exact moves_stackDealloc hm h
  | bufNew =>
    obtain ⟨⟨s', m', result⟩, hcall, rfl⟩ := Option.map_eq_some_iff.1 h
    exact moves_bufNew hcall
  | bufDealloc buf => exact moves_bufDealloc hm h
  | map l =>
    obtain ⟨⟨s', m', res⟩, hcall, rfl⟩ := Option.map_eq_some_iff.1 h
    exact .after (transfer_give s l.owned) (moves_map hcall)
  | mapAt l z =>
    obtain ⟨⟨s', m', res⟩, hcall, rfl⟩ := Option.map_eq_some_iff.1 h
    exact .after (transfer_give s l.owned) (moves_mapAt hcall)
  | remap z atype f =>
    obtain ⟨⟨s', m', res⟩, hcall, rfl⟩ := Option.map_eq_some_iff.1 h
    exact moves_remap f.2 hm hcall
  | remapAt z target atype f =>
    obtain ⟨⟨s', m', res⟩, hcall, rfl⟩ := Option.map_eq_some_iff.1 h
    exact moves_remapAt f.2 hm hcall
  | unmap z atype =>
    obtain ⟨⟨s₁, m₁, res⟩, hunmap, hdrop⟩ := Option.bind_eq_some_iff.1 h
    rcases moves_unmap hm hunmap with ⟨⟨err, rfl⟩, rfl, rfl, -⟩ | ⟨layout, rfl, -, hmoves⟩
    · obtain rfl := Option.some.inj hdrop
      exact .refl s₁ m₁ 0
    · obtain ⟨s₂, hs₂, hdrop⟩ := Option.bind_eq_some_iff.1 hdrop
      obtain rfl := Option.some.inj hdrop
      exact hmoves.then (VirtLayout.transfer_dealloc hs₂)
  | rest state =>
    obtain rfl := Option.some.inj h
    exact ⟨.refl s _, id⟩

/-- The accounts at the start, and no regions. -/
def start (state : σ) : State σ := (⟨state, 0, 0⟩, .new)

/-- The accounts balance, but for allocations that were freed once too often. -/
def Balanced (c : State σ) (surplus : Multiset ZoneAllocation) : Prop :=
  c.1.freed + c.2.owned = c.1.given + surplus

theorem Balanced.step {x : Multiset ZoneAllocation} (hm : c.2.Settled) (h : Balanced c x)
    (he : step E c op = some c') : Balanced c' (x + doubles E.virt c.2 op) := by
  have hmoves := (step_moves hm he).transfer
  unfold Transfer at hmoves
  unfold Balanced at h ⊢
  rw [zero_add] at hmoves
  have hsum : c.1.given + (c'.1.freed + c'.2.owned) = c.1.given + (c'.1.given + (x + doubles E.virt c.2 op)) := by
    calc c.1.given + (c'.1.freed + c'.2.owned)
        = c'.1.given + (c.1.freed + (doubles E.virt c.2 op + c.2.owned)) := hmoves.symm
      _ = c'.1.given + (c.1.freed + c.2.owned) + doubles E.virt c.2 op := by ac_rfl
      _ = c'.1.given + (c.1.given + x) + doubles E.virt c.2 op := by rw [h]
      _ = c.1.given + (c'.1.given + (x + doubles E.virt c.2 op)) := by ac_rfl
  exact add_left_cancel hsum

theorem Balanced.run {x : Multiset ZoneAllocation} (hm : c.2.Settled) (h : Balanced c x)
    (he : run (Ownership.step E) c ops = some c') : Balanced c' (x + runDoubles E c ops) := by
  induction ops generalizing c x with
  | nil =>
    obtain rfl := Option.some.inj he
    rwa [runDoubles, add_zero]
  | cons op ops ih =>
    obtain ⟨c₁, hc₁, he⟩ := Option.bind_eq_some_iff.1 he
    have hrest := ih ((step_moves hm hc₁).settled hm) (h.step hm hc₁) he
    rw [runDoubles, hc₁]
    rwa [add_assoc] at hrest

/-- **In every run** the allocations that were freed and those behind the layouts are those that were given
to layouts, each as often as it was given, and once more those behind the regions that `realloc`,
`Stack::dealloc` and `MsgBuf::dealloc` freed. -/
theorem run_accounts {σ : Type} (E : MemEnv σ) (state : σ) (ops : List (Call σ)) (c : State σ)
    (h : run (step E) (start state) ops = some c) :
    c.1.freed + c.2.owned = c.1.given + runDoubles E (start state) ops := by
  have hsettled : (start state).2.Settled := fun e he => (nomatch he)
  have hbalanced : Balanced (start state) 0 := rfl
  have hrun := hbalanced.run hsettled h
  rwa [Balanced, zero_add] at hrun

/-- The blocks of a zone manager that hands them out one after the other. -/
def block (n : ℕ) : ZoneAllocation := ⟨⟨KERNEL_VMA + n * 0x100000, 0x100000⟩, 0⟩

/-- Such a zone manager, with as much memory as it takes. -/
def blocks : MemEnv ℕ where
  alloc n _ := some (n + 1, some (block n))
  dealloc n _ := some n
  mapInternal n _ := some n
  phys := MemoryRegionType.physAddr
  virt := virtAddr

theorem one_lt_usizeMod : 1 < usizeMod := by decide

/-- A user stack, and a page behind it; then the stack goes. -/
def stackGoes : List (Call ℕ) :=
  [.stackNew 0x20000, .realloc 3 0 ⟨1, one_lt_usizeMod⟩ 0, .stackDealloc ⟨0x1000, 0x101000⟩]

/-- The block of the stack is freed twice. -/
theorem run_accounts_stack : ∃ c, run (step blocks) (start 0) stackGoes = some c ∧
    c.1.freed + c.2.owned = c.1.given + {block 0} ∧ c.1.given = {block 0, block 1} := by
  have hrun : (run (step blocks) (start 0) stackGoes).map (fun c => c.1.given) = some {block 0, block 1} := by
    decide +kernel
  have hdoubles : runDoubles blocks (start 0) stackGoes = {block 0} := by decide +kernel
  obtain ⟨c, hc, hgiven⟩ := Option.map_eq_some_iff.1 hrun
  exact ⟨c, hc, hdoubles ▸ run_accounts blocks 0 stackGoes c hc, hgiven⟩

end Ownership
end AuroraOs
