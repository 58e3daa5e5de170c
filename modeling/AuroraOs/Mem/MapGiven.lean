import AuroraOs.Mem.HalfRun
import AuroraOs.Mem.PageMappingRun

/-!
# Mapping memory that is there

`map`, `map_at` and `unmap` of a layout with one element, whose memory was allocated before.  Where its
range lies in one half of the address space they panic only if the page tables do, and `map_at` also at an
address from which the range would pass the end of the address space.
-/

namespace AuroraOs

namespace VirtMapper

variable {σ : Type} {E : MemEnv σ} {s s' : σ} {m m' : VirtMapper} {l : VirtLayout} {r z : VirtRange}
  {e : VirtLayoutElement} {atype : AllocType} {res : Except MemErr VirtRange}

/-! ### Layouts of memory that is there -/

/-- An element for a part of physical memory. -/
structure Given (P : AddrApi) (e : VirtLayoutElement) : Prop where
  layable : e.Layable P
  mem : ∃ range, e.physData = .mem range
  pos : 0 < e.size
  le : e.size ≤ 2 ^ 40
  below : ∀ r, e.asPhysZone P = some (some r) → r.addr + e.size < 2 ^ 52

/-- A region of such memory, once it is mapped. -/
structure GivenRegion (P : AddrApi) (r : VirtRange) (l : VirtLayout) : Prop where
  dvd : PAGE_SIZE ∣ r.addr
  counted : l.Counted P
  unmoved : l.Unmoved P r.addr
  que : l.deallocQue = []
  mem : ∀ e ∈ l.data, ∃ range, e.physData = .mem range

/-- The page tables take the pieces of a layout. -/
def Takes (E : MemEnv σ) (s : σ) (l : VirtLayout) (r : VirtRange) : Prop :=
  ∀ zones ∈ l.mappingIter E.phys E.virt.toAddrApi r, (E.mapInternal s zones).isSome

/-- The page tables take the pieces of a region back. -/
def TakesBack (E : MemEnv σ) (s : σ) (l : VirtLayout) (r : VirtRange) : Prop :=
  ∀ zones ∈ l.unmappingIter E.phys E.virt.toAddrApi r, (E.mapInternal s zones).isSome

instance : Decidable (Takes E s l r) :=
  inferInstanceAs (Decidable (∀ zones ∈ l.mappingIter E.phys E.virt.toAddrApi r, (E.mapInternal s zones).isSome))

instance : Decidable (TakesBack E s l r) :=
  inferInstanceAs (Decidable (∀ zones ∈ l.unmappingIter E.phys E.virt.toAddrApi r, (E.mapInternal s zones).isSome))

/-- The drop of such a layout frees nothing. -/
theorem deallocAll_mem {elems : List VirtLayoutElement} (h : ∀ e ∈ elems, ∃ range, e.physData = .mem range) :
    VirtLayout.deallocAll E.toMemApi s elems = some s := by
  induction elems with
  | nil => rfl
  | cons e elems ih =>
    obtain ⟨range, he⟩ := h e List.mem_cons_self
    have hone : e.dealloc E.toMemApi s = some s := by
      rw [VirtLayoutElement.dealloc, he]
    rw [VirtLayout.deallocAll, List.foldlM_cons, hone]
    exact ih fun e he => h e (List.mem_cons_of_mem _ he)

theorem Given.dealloc (he : Given E.phys e) : (VirtLayout.ofVec [e] atype).dealloc E.toMemApi s = some s := by
  have hall : VirtLayout.deallocAll E.toMemApi s [e] = some s := deallocAll_mem (by simpa using he.mem)
  rw [VirtLayout.dealloc]
  simp only [VirtLayout.ofVec, hall, Option.bind_eq_bind, Option.bind_some]
  rfl

theorem GivenRegion.dealloc (h : GivenRegion E.phys r l) : l.dealloc E.toMemApi s = some s := by
  rw [VirtLayout.dealloc, deallocAll_mem h.mem, h.que]
  rfl

/-- In one half, no address of the element is moved. -/
theorem Given.straight {P : AddrApi} {a : ℕ} (he : Given P e) (hr : WithinHalf a e.size) :
    VirtLayout.Straight P a [e] := by
  obtain ⟨hstart, -, hhalf⟩ := hr.canonical
  exact ⟨hstart, fun r hr => ⟨he.below r hr, hhalf⟩, trivial⟩

/-- What `sync_mem` makes of the layout. -/
theorem Given.syncMem (he : Given E.phys e) (hr : WithinHalf r.addr e.size) (hd : PAGE_SIZE ∣ r.addr) :
    ∃ l', (VirtLayout.ofVec [e] atype).syncMem E.toMemApi s = some (s, l') ∧ GivenRegion E.phys r l' := by
  obtain ⟨l', hl', hque⟩ : ∃ l', (VirtLayout.ofVec [e] atype).syncMem E.toMemApi s = some (s, l') ∧
      l'.deallocQue = [] := ⟨_, rfl, rfl⟩
  have hdata : l'.data = [e] := (VirtLayout.syncMem_same hl').data
  have hmapped : l'.mapped = [e] := VirtLayout.mapped_syncMem hl'
  have hnew := @VirtLayout.counted_ofVec E.phys [e] (by simpa using he.layable) atype
  have hstep : VirtLayout.layoutStep E.toMemApi (s, .ofVec [e] atype) .syncMem = some (s, l') := hl'
  have hcounted := hnew.step (fun e h => by cases h) hstep
  have hend := accepted_of_canonical hr.canonical.2.1
  have hsum : VirtLayout.total [e] = e.size := by simp
  refine ⟨l', hl', hd, hcounted, ?_, hque, ?_⟩
  · refine ⟨?_, ?_, ?_, ?_, fun hne => absurd hque hne⟩
    · rw [hmapped]
      exact he.straight hr
    · rw [hmapped, hsum]
      exact hend
    · rw [hdata]
      exact he.straight hr
    · rw [hdata, hsum]
      exact hend
  · rw [hdata]
    simpa using he.mem

/-! ### Placing it -/

/-- **Placing a layout at a range of its own** panics only with the page tables. -/
theorem place_given (he : Given E.phys e) (hV : E.virt.IsVirt) (hr : WithinHalf r.addr e.size)
    (hd : PAGE_SIZE ∣ r.addr) (hnew : r ∉ m.virtMap.keys) :
    ((place E s m (.ofVec [e] atype) r).isSome ↔ Takes E s (.ofVec [e] atype) r) ∧
      ∀ s' m', place E s m (.ofVec [e] atype) r = some (s', m') →
        ∃ l', m'.virtMap = m.virtMap.insert r l' ∧ GivenRegion E.phys r l' := by
  have hiter := @mappingIter_ofVec _ E r atype e he.layable hV hr hd
  have hnone := SortedMap.get?_eq_none.2 hnew
  rw [place, Takes, hiter, Option.bind_eq_bind, Option.bind_some]
  cases hmap : E.mapInternal s (VirtLayout.zonesAt E.phys VirtLayoutElement.flags r.addr [e]) with
  | none => exact ⟨by simp [hmap], by simp⟩
  | some s₁ =>
    obtain ⟨l', hsync, hl'⟩ := @Given.syncMem _ E s₁ r e atype he hr hd
    simp only [Option.bind_eq_bind, Option.bind_some, hsync, insert, hnone]
    refine ⟨by simp [hmap], ?_⟩
    rintro s' m' ⟨⟩
    exact ⟨l', rfl, hl'⟩

/-! ### `map` -/

theorem size_given (he : Given E.phys e) : (VirtLayout.ofVec [e] atype).size = e.size :=
  size_ofVec he.layable.lt

/-- What `map` and `map_at` do to the regions. -/
def GivenAdded (P : AddrApi) (m m' : VirtMapper) : Prop :=
  m' = m ∨ ∃ r l', WithinHalf r.addr r.size ∧ m'.virtMap = m.virtMap.insert r l' ∧ GivenRegion P r l'

theorem GivenAdded.halves {P : AddrApi} (h : GivenAdded P m m') (hm : m.Halves) (hplaced : m'.WellPlaced) :
    m'.Halves := by
  refine ⟨hplaced, ?_⟩
  rcases h with rfl | ⟨r, l', hr, hm', -⟩
  · exact hm.within
  · intro k hk
    rw [hm', SortedMap.mem_keys_insert] at hk
    rcases hk with rfl | hk
    · exact hr
    · exact hm.within k hk

/-- The regions of a type, if they are given, stay so. -/
theorem GivenAdded.regions {P : AddrApi} (h : GivenAdded P m m')
    (hm : ∀ r l, (r, l) ∈ m.virtMap.entries → l.atype = atype → GivenRegion P r l) :
    ∀ r l, (r, l) ∈ m'.virtMap.entries → l.atype = atype → GivenRegion P r l := by
  rcases h with rfl | ⟨r, l', -, hm', hl'⟩
  · exact hm
  · intro k l hk hty
    rw [hm', SortedMap.mem_insert] at hk
    rcases hk with hk | ⟨hk, -⟩
    · obtain ⟨rfl, rfl⟩ := Prod.mk.inj hk
      exact hl'
    · exact hm k l hk hty

/-- A range that overlaps no region is not one of them. -/
theorem not_mem_of_apart (hpos : 0 < r.size) (hfree : ∀ k ∈ m.virtMap.keys, Apart k r) : r ∉ m.virtMap.keys := by
  intro hr
  rcases hfree r hr with hle | hle <;> omega

/-- **`map` of such a layout** panics only with the page tables. -/
theorem Halves.map_given (hm : m.Halves) (hV : E.virt.IsVirt) (he : Given E.phys e) (hgap : m.GapWithin e.size) :
    ((m.map E s (.ofVec [e] atype)).isSome ↔
      ∀ r, m.findRange E.virt e.size = some (some r) → Takes E s (.ofVec [e] atype) r) ∧
    ∀ s' m' res, m.map E s (.ofVec [e] atype) = some (s', m', res) → GivenAdded E.phys m m' := by
  have hsize := @size_given _ E e atype he
  have hne : e.size ≠ 0 := he.pos.ne'
  simp only [map, hsize, if_neg hne]
  rcases hgap.findRange (E := E) hm.placed hV with ⟨hnone, -⟩ | ⟨a, ha, hd, hsome⟩
  · simp only [hnone, Option.bind_eq_bind, Option.bind_some, he.dealloc]
    refine ⟨by simp, ?_⟩
    rintro s' m' res ⟨⟩
    exact Or.inl rfl
  · obtain ⟨haddr, hwithin⟩ := (hgap a ha).new hd
    obtain ⟨huser, hfree⟩ := hm.placed.findRange_spec hV hgap.canonical he.pos hsome
    obtain ⟨hiff, hplaced⟩ := @place_given _ E s m (.new a e.size) e atype he hV (by rw [haddr]; exact hgap a ha)
      (by rw [haddr]; exact hd) (not_mem_of_apart huser.pos hfree)
    have htakes : (∀ r, m.findRange E.virt e.size = some (some r) → Takes E s (.ofVec [e] atype) r) ↔
        Takes E s (.ofVec [e] atype) (.new a e.size) := by
      simp [hsome]
    rw [htakes, ← hiff]
    simp only [hsome, Option.bind_eq_bind, Option.bind_some]
    cases hplace : place E s m (.ofVec [e] atype) (.new a e.size) with
    | none => exact ⟨by simp, by simp⟩
    | some c =>
      refine ⟨by simp, ?_⟩
      rintro s' m' res ⟨⟩
      obtain ⟨l', hm', hl'⟩ := hplaced _ _ hplace
      exact Or.inr ⟨_, l', hwithin, hm', hl'⟩

/-! ### `map_at` -/

section Aligned

variable {V : VirtAddrApi} {a n : ℕ}

/-- `aligned` of whole pages that end in the half that they begin in. -/
theorem aligned_of_canonical (hV : V.IsVirt) (ha : PAGE_SIZE ∣ a) (hn : PAGE_SIZE ∣ n)
    (hlt : a + n < usizeMod) (hend : Canonical (a + n)) :
    (AddrRange.new a n).aligned V.toAddrApi = some ⟨a, n⟩ := by
  have haddr : alignDown a PAGE_SIZE = a := alignDown_of_dvd (by omega) ha
  have hsize : alignUp n PAGE_SIZE = n := alignUp_of_page hn hlt
  have hup : alignUp (a + n) PAGE_SIZE = a + n :=
    alignUp_of_page (ha.add hn) (n := 0) (by omega)
  simp only [AddrRange.aligned, AddrRange.newAligned, AddrRange.new, haddr, hsize, hV.add_eq,
    Nat.mod_eq_of_lt hlt, hV.new_of_canonical hend, Option.bind_eq_bind, Option.bind_some, hup, hV.diff_eq,
    if_pos (Nat.le_add_right a n), Nat.add_sub_cancel_left]

/-- `aligned` of whole pages that end in the hole has another size. -/
theorem aligned_of_hole (hV : V.IsVirt) (ha : PAGE_SIZE ∣ a) (hn : PAGE_SIZE ∣ n) (halo : a < 2 ^ 47)
    (hlo : 2 ^ 47 ≤ a + n) (hhi : a + n < 2 ^ 47 + 2 ^ 40) :
    ∃ z, (AddrRange.new a n).aligned V.toAddrApi = some z ∧ z.size ≠ n := by
  have hlt : a + n < usizeMod := by
    simp only [usizeMod]
    omega
  have haddr : alignDown a PAGE_SIZE = a := alignDown_of_dvd (by omega) ha
  have hsize : alignUp n PAGE_SIZE = n := alignUp_of_page hn hlt
  have hnew : V.new (a + n) = some (a + n + (2 ^ 64 - 2 ^ 48)) := by
    rw [hV.new_eq _ hlt, if_neg (by omega), if_pos (by omega)]
  have hoff : PAGE_SIZE ∣ 2 ^ 64 - 2 ^ 48 := by decide
  have hup : alignUp (a + n + (2 ^ 64 - 2 ^ 48)) PAGE_SIZE = a + n + (2 ^ 64 - 2 ^ 48) :=
    alignUp_of_page ((ha.add hn).add hoff) (n := 0) (by simp only [usizeMod]; omega)
  have hdiff : a + n + (2 ^ 64 - 2 ^ 48) - a = n + (2 ^ 64 - 2 ^ 48) := by omega
  have hupd : alignUp (n + (2 ^ 64 - 2 ^ 48)) PAGE_SIZE = n + (2 ^ 64 - 2 ^ 48) :=
    alignUp_of_page (hn.add hoff) (n := 0) (by simp only [usizeMod]; omega)
  refine ⟨⟨a, n + (2 ^ 64 - 2 ^ 48)⟩, ?_, by simp only; omega⟩
  simp only [AddrRange.aligned, AddrRange.newAligned, AddrRange.new, haddr, hsize, hV.add_eq,
    Nat.mod_eq_of_lt hlt, hnew, Option.bind_eq_bind, Option.bind_some, hup, hV.diff_eq]
  rw [if_pos (by omega), Option.bind_some, hdiff, hupd]

/-- `aligned` of whole pages that pass the end of the address space is a panic. -/
theorem aligned_of_wrap (hV : V.IsVirt) (ha : PAGE_SIZE ∣ a) (hn : PAGE_SIZE ∣ n) (halo : a < usizeMod)
    (hle : n ≤ 2 ^ 40) (hwrap : usizeMod ≤ a + n) : (AddrRange.new a n).aligned V.toAddrApi = none := by
  have hval : usizeMod = 2 ^ 64 := rfl
  have haddr : alignDown a PAGE_SIZE = a := alignDown_of_dvd halo ha
  have hsize : alignUp n PAGE_SIZE = n := alignUp_of_page hn (n := 0) (by simp only [usizeMod]; omega)
  have hmod : (a + n) % usizeMod = a + n - usizeMod := by
    simp only [usizeMod] at *
    omega
  have hnew : V.new (a + n - usizeMod) = some (a + n - usizeMod) := by
    rw [hV.new_eq _ (by omega), if_pos (by omega)]
  have hup : alignUp (a + n - usizeMod) PAGE_SIZE = a + n - usizeMod :=
    alignUp_of_page (Nat.dvd_sub (ha.add hn) (by decide)) (n := 0) (by simp only [usizeMod] at *; omega)
  simp only [AddrRange.aligned, AddrRange.newAligned, AddrRange.new, haddr, hsize, hV.add_eq, hmod, hnew,
    Option.bind_eq_bind, Option.bind_some, hup, hV.diff_eq]
  rw [if_neg (by omega)]
  rfl

end Aligned

/-- Whole pages with canonical ends, below the kernel, lie in one half. -/
theorem withinHalf_of_canonical {a n : ℕ} (hd : PAGE_SIZE ∣ a) (hn : PAGE_SIZE ∣ n) (hle : n ≤ 2 ^ 40)
    (ha : Canonical a) (hend : Canonical (a + n)) (hmax : a + n ≤ MAX_MAP_ADDR) : WithinHalf a n := by
  unfold Canonical at ha hend
  rcases ha with hlo | ⟨hhi, -⟩
  · have hlt : a + n < 2 ^ 47 := by omega
    obtain ⟨k, hk⟩ := hd.add hn
    rw [PAGE_SIZE_eq] at hk
    exact Or.inl (by rw [PAGE_SIZE_eq]; omega)
  · exact Or.inr ⟨hhi, hmax⟩

/-- Among regions in one half, `free_space` does not panic at a range that ends at a canonical address. -/
theorem Halves.freeSpace_isSome (hm : m.Halves) (hV : E.virt.IsVirt) (hend : Canonical (z.addr + z.size)) :
    ∃ fs, m.freeSpace E.virt z none = some fs := by
  have hprev : ∀ prev, (∀ p ∈ prev, p ∈ m.virtMap.keys) → ∃ n, prevSize E.virt prev z = some n := by
    intro prev hmem
    cases prev with
    | none =>
      simp only [prevSize]
      split_ifs <;> exact ⟨_, rfl⟩
    | some p =>
      have hp := ((hm.within p (hmem p rfl)).settled hV).end_eq
      simp only [prevSize, hp, Option.bind_eq_bind, Option.bind_some]
      split_ifs <;> exact ⟨_, rfl⟩
  have hnext : ∀ next, ∃ n, nextSize E.virt next z = some n := by
    intro next
    cases next with
    | none =>
      simp only [nextSize]
      split_ifs <;> exact ⟨_, rfl⟩
    | some k =>
      obtain ⟨b, hb, -⟩ := add_of_accepted hV (accepted_of_canonical hend)
      simp only [nextSize, AddrRange.endAddr, hb, Option.bind_eq_bind, Option.bind_some]
      split_ifs <;> exact ⟨_, rfl⟩
  have hmem : ∀ p ∈ ((m.virtMap.below z).map Prod.fst)[0]?, p ∈ m.virtMap.keys := by
    intro p hp
    have := List.mem_of_getElem? hp
    rw [SortedMap.map_fst_below] at this
    exact List.mem_of_mem_filter (List.mem_reverse.1 this)
  obtain ⟨before, hbefore⟩ := hprev _ hmem
  obtain ⟨after, hafter⟩ := hnext ((m.virtMap.onward z).map Prod.fst)[0]?
  simp only [freeSpace, Option.isSome_none, Bool.false_eq_true, false_and, if_false, hbefore, hafter,
    Option.bind_eq_bind, Option.bind_some]
  cases before with
  | none => exact ⟨_, rfl⟩
  | some n =>
    cases after with
    | none => exact ⟨_, rfl⟩
    | some n' => exact ⟨_, rfl⟩

/-- What the range of `map_at` is to satisfy: it does not pass the end of the address space, and where it
fits the page tables take it. -/
def FitsAt (E : MemEnv σ) (s : σ) (m : VirtMapper) (l : VirtLayout) (a : ℕ) : Prop :=
  a + l.size < usizeMod ∧ ∀ z ∈ (AddrRange.new a l.size).aligned E.virt.toAddrApi, l.size = z.size →
    (m.freeSpace E.virt z none).join.isSome → Takes E s l z

instance {a : ℕ} : Decidable (FitsAt E s m l a) := inferInstanceAs (Decidable (_ ∧ _))

/-- **`map_at` of such a layout** panics only with the page tables, and where the range passes the end of
the address space. -/
theorem Halves.mapAt_given (hm : m.Halves) (hV : E.virt.IsVirt) (he : Given E.phys e) {a : ℕ} (ha : Canonical a)
    (hd : PAGE_SIZE ∣ a) :
    ((m.mapAt E s (.ofVec [e] atype) (.new a e.size)).isSome ↔ FitsAt E s m (.ofVec [e] atype) a) ∧
    ∀ s' m' res, m.mapAt E s (.ofVec [e] atype) (.new a e.size) = some (s', m', res) →
      GivenAdded E.phys m m' := by
  have hsize := @size_given _ E e atype he
  have hne : e.size ≠ 0 := he.pos.ne'
  have hdn : PAGE_SIZE ∣ e.size := he.layable.dvd
  have hle := he.le
  have hlt : a < usizeMod := by
    unfold Canonical at ha
    simp only [usizeMod]
    omega
  rw [FitsAt, hsize]
  rcases Nat.lt_or_ge (a + e.size) usizeMod with hend | hwrap
  · by_cases hcanonical : Canonical (a + e.size)
    · have haligned := aligned_of_canonical hV hd hdn hend hcanonical
      obtain ⟨fs, hfs⟩ := @Halves.freeSpace_isSome _ E m ⟨a, e.size⟩ hm hV hcanonical
      simp only [mapAt, haligned, hsize, ne_eq, not_true_eq_false, if_false, if_neg hne, hfs, he.dealloc,
        Option.bind_eq_bind, Option.bind_some, Option.mem_some, forall_eq', hend, true_and, forall_const]
      cases fs with
      | none =>
        refine ⟨by simp, ?_⟩
        rintro s' m' res ⟨⟩
        exact Or.inl rfl
      | some sizes =>
        obtain ⟨-, hmax, hfree⟩ := hm.placed.freeSpace_spec hV hend hfs
        have hwithin : WithinHalf a e.size := withinHalf_of_canonical hd hdn hle ha hcanonical hmax
        obtain ⟨hiff, hplaced⟩ := @place_given _ E s m ⟨a, e.size⟩ e atype he hV hwithin hd
          (not_mem_of_apart he.pos fun k hk => hfree k hk (by simp))
        simp only [Option.join_some, Option.isSome_some, forall_const, ← hiff]
        cases hplace : place E s m (.ofVec [e] atype) ⟨a, e.size⟩ with
        | none => exact ⟨by simp, by simp⟩
        | some c =>
          refine ⟨by simp, ?_⟩
          rintro s' m' res ⟨⟩
          obtain ⟨l', hm', hl'⟩ := hplaced _ _ hplace
          exact Or.inr ⟨_, l', hwithin, hm', hl'⟩
    · -- the range ends in the hole, and its end is moved to the upper half
      have hhole : a < 2 ^ 47 ∧ 2 ^ 47 ≤ a + e.size ∧ a + e.size < 2 ^ 47 + 2 ^ 40 := by
        unfold Canonical at ha hcanonical
        simp only [usizeMod] at hend
        omega
      obtain ⟨z, hz, hzsize⟩ := aligned_of_hole hV hd hdn hhole.1 hhole.2.1 hhole.2.2
      simp only [mapAt, hz, hsize, ne_eq, Ne.symm hzsize, not_false_eq_true, if_true, he.dealloc,
        Option.bind_eq_bind, Option.bind_some, Option.mem_some, forall_eq', hend, true_and, false_imp_iff]
      refine ⟨by simp, ?_⟩
      rintro s' m' res ⟨⟩
      exact Or.inl rfl
  · have hnone := aligned_of_wrap hV hd hdn hlt hle hwrap
    simp only [mapAt, hnone]
    exact ⟨by simp; omega, by simp⟩

/-! ### `unmap` -/

/-- **`unmap` of such a region** panics only with the page tables, and what it returns is dropped. -/
theorem unmap_given (hl : m.virtMap.get? r = some l) (hregion : GivenRegion E.phys r l) (hV : E.virt.IsVirt)
    (hty : l.atype = atype) :
    ((m.unmap E s r atype).isSome ↔ TakesBack E s l r) ∧
      ∀ s' m' res, m.unmap E s r atype = some (s', m', res) →
        ∃ l', res = .ok l' ∧ ∀ s, l'.dealloc E.toMemApi s = some s := by
  have hiter := VirtLayout.unmappingIter_eq hV hregion.counted hregion.dvd hregion.unmoved
  simp only [unmap, hl, VirtLayout.allocType, hty, ne_eq, not_true_eq_false, if_false, TakesBack, hiter,
    Option.bind_eq_bind, Option.bind_some, Option.mem_some, forall_eq']
  cases hmap : E.mapInternal s (VirtLayout.zonesAt E.phys (fun _ => .NONE) r.addr l.mapped) with
  | none => exact ⟨by simp, by simp⟩
  | some s₁ =>
    have hque : VirtLayout.deallocAll E.toMemApi s₁ l.deallocQue = some s₁ := by
      rw [hregion.que]
      rfl
    simp only [VirtLayout.markUnmapped, hque, Option.bind_eq_bind, Option.bind_some]
    refine ⟨by simp, ?_⟩
    rintro s' m' res ⟨⟩
    refine ⟨_, rfl, fun s => ?_⟩
    simp only [VirtLayout.dealloc, deallocAll_mem hregion.mem, Option.bind_eq_bind, Option.bind_some]
    rfl

end VirtMapper
end AuroraOs
