import AuroraOs.Mem.VirtAllocInvariant

/-!
# What the calls of an address space change

Each call of `VirtMapper` is a `Change` of its regions, with the type of the regions that go and come:
`map` and `map_at` add a region, `unmap` removes one of the type that it is given, and `remap` and
`remap_at` replace one.
-/

namespace AuroraOs
namespace VirtMapper

variable {σ : Type} {E : MemEnv σ} {s s' : σ} {m m' : VirtMapper} {l l' : VirtLayout}
  {r z : VirtRange} {atype : AllocType} {res : Except MemErr VirtRange} {f : AllocFunc σ} {target : ℕ}

/-- The region is one of the address space. -/
def HasRegion (m : VirtMapper) (r : VirtRange) (atype : AllocType) : Prop :=
  ∃ l, (r, l) ∈ m.virtMap.entries ∧ l.atype = atype

theorem Change.hasRegion_iff {gone : Option VirtRange} {come : Option (VirtRange × VirtLayout)}
    (h : Change m m' gone come) : m'.HasRegion r atype ↔
      (∃ l, come = some (r, l) ∧ l.atype = atype) ∨ m.HasRegion r atype ∧ gone ≠ some r := by
  simp only [HasRegion, h.mem_iff, or_and_right, exists_or]
  exact or_congr_right ⟨fun ⟨l, ⟨hl, hg⟩, hty⟩ => ⟨⟨l, hl, hty⟩, hg⟩,
    fun ⟨⟨l, hl, hty⟩, hg⟩ => ⟨l, ⟨hl, hg⟩, hty⟩⟩

/-- A change that concerns regions of one type only. -/
def Touches (m m' : VirtMapper) (atype : AllocType) : Prop :=
  ∃ gone come, Change m m' gone come ∧ (∀ z ∈ gone, m.HasRegion z atype) ∧
    ∀ e ∈ come, e.2.atype = atype

theorem Touches.refl (m : VirtMapper) (atype : AllocType) : m.Touches m atype :=
  ⟨none, none, .refl m, by simp, by simp⟩

theorem Touches.wellPlaced (h : m.Touches m' atype) (hm : m.WellPlaced) : m'.WellPlaced :=
  h.choose_spec.choose_spec.1.wellPlaced hm

/-- The regions of the other types stay. -/
theorem Touches.mem_iff (h : m.Touches m' atype) (hl : l.atype ≠ atype) :
    (r, l) ∈ m'.virtMap.entries ↔ (r, l) ∈ m.virtMap.entries := by
  obtain ⟨gone, come, hc, hgone, hcome⟩ := h
  rw [hc.mem_iff]
  constructor
  · rintro (he | ⟨he, -⟩)
    · exact absurd (hcome _ he) hl
    · exact he
  · intro he
    refine Or.inr ⟨he, fun hg => ?_⟩
    obtain ⟨l', hl', hty⟩ := hgone r hg
    rw [(Prod.mk.inj (SortedMap.entry_unique hl' he rfl)).2] at hty
    exact hl hty

/-! ### `map`, `map_at` and `unmap` -/

theorem insert_spec (h : m.insert E s r l = some (s', m')) : m'.virtMap = m.virtMap.insert r l := by
  unfold insert at h
  split at h
  · rw [← (Prod.mk.inj (Option.some.inj h)).2]
  · obtain ⟨_, -, h⟩ := Option.bind_eq_some_iff.1 h
    rw [← (Prod.mk.inj (Option.some.inj h)).2]

theorem place_spec (h : place E s m l r = some (s', m')) :
    ∃ l', l.Same l' ∧ m'.virtMap = m.virtMap.insert r l' := by
  simp only [place, Option.bind_eq_bind, Option.bind_eq_some_iff] at h
  obtain ⟨_, -, s₁, -, ⟨s₂, l'⟩, hsync, h⟩ := h
  exact ⟨l', VirtLayout.syncMem_same hsync, insert_spec h⟩

/-- How `map` and `map_at` end: they add a region, or leave everything as it is. -/
def Added (m m' : VirtMapper) (l : VirtLayout) : Except MemErr VirtRange → Prop
  | .ok r => r.size = alignUp l.size PAGE_SIZE ∧ ∃ l', l.Same l' ∧ Change m m' none (some (r, l'))
  | .error _ => m' = m

theorem Added.touches (h : m.Added m' l res) : m.Touches m' l.atype := by
  cases res with
  | ok r =>
    obtain ⟨-, l', hl', hc⟩ := h
    refine ⟨none, some (r, l'), hc, by simp, fun e he => ?_⟩
    rw [← Option.some.inj he]
    exact hl'.atype
  | error err =>
    obtain rfl : m' = m := h
    exact .refl m' _

/-- `map` adds a region that overlaps no other, unless its address is moved. -/
theorem map_spec (hm : m.WellPlaced) (hV : E.virt.IsVirt) (hc : m.GapCanonical l.size)
    (h : m.map E s l = some (s', m', res)) : m.Added m' l res := by
  simp only [map] at h
  split_ifs at h with h0
  · obtain ⟨_, -, h⟩ := Option.bind_eq_some_iff.1 h
    obtain ⟨-, rfl, rfl⟩ := by simpa using h
    rfl
  · obtain ⟨_ | r, hr, h⟩ := Option.bind_eq_some_iff.1 h
    · obtain ⟨_, -, h⟩ := Option.bind_eq_some_iff.1 h
      obtain ⟨-, rfl, rfl⟩ := by simpa using h
      rfl
    · obtain ⟨⟨s₁, m₁⟩, hplace, h⟩ := Option.bind_eq_some_iff.1 h
      obtain ⟨-, rfl, rfl⟩ := by simpa using h
      obtain ⟨l', hl', hins⟩ := place_spec hplace
      obtain ⟨hu, hfree⟩ := hm.findRange_spec hV hc (Nat.pos_of_ne_zero h0) hr
      exact ⟨findRange_size hr, l', hl', .insert hu hfree hins⟩

/-- `map_at` adds a region that overlaps no other. -/
theorem mapAt_spec (hm : m.WellPlaced) (hV : E.virt.IsVirt)
    (h : m.mapAt E s l z = some (s', m', res)) : m.Added m' l res := by
  simp only [mapAt] at h
  obtain ⟨r, hr, h⟩ := Option.bind_eq_some_iff.1 h
  obtain ⟨hda, hds, hlt⟩ := AddrRange.aligned_spec hV hr
  have herror : ∀ {err}, ((l.dealloc E.toMemApi s).bind fun s => some (s, m, .error err))
      = some (s', m', res) → m.Added m' l res := by
    intro err h
    obtain ⟨_, -, h⟩ := Option.bind_eq_some_iff.1 h
    obtain ⟨-, rfl, rfl⟩ := by simpa using h
    rfl
  split_ifs at h with hsize h0
  · exact herror h
  · exact herror h
  · obtain ⟨_ | fs, hfs, h⟩ := Option.bind_eq_some_iff.1 h
    · exact herror h
    · obtain ⟨⟨s₁, m₁⟩, hplace, h⟩ := Option.bind_eq_some_iff.1 h
      obtain ⟨-, rfl, rfl⟩ := by simpa using h
      obtain ⟨l', hl', hins⟩ := place_spec hplace
      obtain ⟨hlo, hhi, hfree⟩ := hm.freeSpace_spec hV hlt hfs
      rw [not_not] at hsize
      have hpos : 0 < r.size := by omega
      have hup : alignUp l.size PAGE_SIZE = r.size := by
        rw [hsize]
        exact alignUp_of_page hds hlt
      exact ⟨hup.symm, l', hl', .insert ⟨hda, hds, hpos, hlo, hhi⟩ (fun k hk => hfree k hk (by simp)) hins⟩

/-- `unmap` removes the region if it is there with the type, and is an error otherwise. -/
theorem unmap_spec {res : Except MemErr VirtLayout} (h : m.unmap E s z atype = some (s', m', res)) :
    m.HasRegion z atype ∧ (∃ l, l.atype = atype ∧ res = .ok l) ∧ Change m m' (some z) none ∨
      ¬ m.HasRegion z atype ∧ (∃ err, res = .error err) ∧ m' = m := by
  unfold unmap at h
  cases hl : m.virtMap.get? z with
  | none =>
    rw [hl] at h
    obtain ⟨-, rfl, rfl⟩ := by simpa using h
    refine Or.inr ⟨?_, ⟨_, rfl⟩, rfl⟩
    rintro ⟨l, hmem, -⟩
    exact SortedMap.get?_eq_none.1 hl (SortedMap.mem_keys_of_mem hmem)
  | some l =>
    rw [hl] at h
    have hmem := SortedMap.get?_eq_some.1 hl
    simp only at h
    split_ifs at h with hty
    · obtain ⟨-, rfl, rfl⟩ := by simpa using h
      refine Or.inr ⟨?_, ⟨_, rfl⟩, rfl⟩
      rintro ⟨l', hl', hty'⟩
      rw [(Prod.mk.inj (SortedMap.entry_unique hl' hmem rfl)).2] at hty'
      exact hty hty'
    · simp only [Option.bind_eq_bind, Option.bind_eq_some_iff] at h
      obtain ⟨_, -, s₁, -, ⟨s₂, l'⟩, hmark, h⟩ := h
      obtain ⟨-, rfl, rfl⟩ := by simpa using h
      rw [not_not] at hty
      exact Or.inl ⟨⟨l, hmem, hty⟩, ⟨l', (VirtLayout.markUnmapped_same hmark).atype.trans hty, rfl⟩,
        .erase rfl⟩

/-! ### `remap` and `remap_at` -/

/-- The layout that the closure leaves, where it is called and succeeds. -/
def resized (s : σ) (m : VirtMapper) (z : VirtRange) (atype : AllocType) (f : AllocFunc σ) :
    Option VirtLayout := do
  let l ← m.virtMap.get? z
  if l.allocType ≠ atype then none
  else
    match ← f s l with
    | (_, l, .ok ()) => some l
    | (_, _, .error _) => none

/-- If the size fits at the target, then the range does not wrap around. -/
def NoWrap (V : VirtAddrApi) (m : VirtMapper) (z : VirtRange) (target size : ℕ) : Prop :=
  (m.freeSpace V (.new target size) (some z)).join.isSome → target + size + PAGE_SIZE ≤ usizeMod

instance (V : VirtAddrApi) (m : VirtMapper) (z : VirtRange) (target size : ℕ) :
    Decidable (NoWrap V m z target size) :=
  inferInstanceAs (Decidable (_ = true → _ ≤ _))

/-- The search for space looks at the keys only. -/
theorem freeSpace_modify {V : VirtAddrApi} {g : VirtLayout → VirtLayout} {ex : Option VirtRange} :
    freeSpace V ⟨m.virtMap.modify z g⟩ r ex = m.freeSpace V r ex := by
  simp only [freeSpace, SortedMap.map_fst_below, SortedMap.map_fst_onward, SortedMap.keys_modify]

theorem findRange_modify {V : VirtAddrApi} {g : VirtLayout → VirtLayout} {size : ℕ} :
    findRange V ⟨m.virtMap.modify z g⟩ size = m.findRange V size := by
  simp only [findRange, freeAddr, SortedMap.keys_modify]

/-- The range that a resized region is given. -/
theorem new_spec {size : ℕ} (hdvd : PAGE_SIZE ∣ target) (hle : target + size + PAGE_SIZE ≤ usizeMod)
    (hr : r = .new target size) : r.addr = target ∧ PAGE_SIZE ∣ r.size ∧ size ≤ r.size ∧
      r.addr + r.size < usizeMod := by
  have hpage : 0 < PAGE_SIZE := by decide
  have haddr : alignDown target PAGE_SIZE = target := alignDown_of_dvd (by omega) hdvd
  have hup : alignUp size PAGE_SIZE ≤ usizeMod - PAGE_SIZE - target :=
    alignUp_le (by omega) (by omega) (Nat.dvd_sub (Nat.dvd_sub (by decide) dvd_rfl) hdvd)
  subst hr
  refine ⟨haddr, dvd_alignUp, le_alignUp (by omega), ?_⟩
  simp only [AddrRange.new, haddr]
  omega

/-- How `remap` and `remap_at` end; `moves` tells them apart. -/
inductive Resize (E : MemEnv σ) (s : σ) (m : VirtMapper) (z : VirtRange) (target : ℕ)
    (atype : AllocType) (f : AllocFunc σ) (moves : Prop) :
    σ → VirtMapper → Except MemErr VirtRange → Prop
  /-- There is no region of the type. -/
  | refused {err : MemErr} (hno : ¬ m.HasRegion z atype) :
      Resize E s m z target atype f moves s m (.error err)
  /-- The closure fails. -/
  | failed {l l₁ : VirtLayout} {s₁ : σ} {err : MemErr} (hl : (z, l) ∈ m.virtMap.entries)
      (hty : l.atype = atype) (hf : f s l = some (s₁, l₁, .error err)) :
      Resize E s m z target atype f moves s₁ ⟨m.virtMap.modify z fun _ => l₁⟩ (.error err)
  /-- Nothing is left of the region. -/
  | removed {l l₁ : VirtLayout} {s₁ s' : σ} (hl : (z, l) ∈ m.virtMap.entries) (hty : l.atype = atype)
      (hf : f s l = some (s₁, l₁, .ok ())) (h0 : l₁.size = 0) :
      Resize E s m z target atype f moves s' ⟨m.virtMap.erase z⟩ (.ok .null)
  /-- The region fits at the target. -/
  | fitted {l l₁ l₂ : VirtLayout} {s₁ s' : σ} {fs : ℕ × ℕ} {m' : VirtMapper}
      (hl : (z, l) ∈ m.virtMap.entries) (hty : l.atype = atype)
      (hf : f s l = some (s₁, l₁, .ok ())) (h0 : l₁.size ≠ 0)
      (hfs : m.freeSpace E.virt (.new target l₁.size) (some z) = some (some fs)) (hl₂ : l₁.Same l₂)
      (hm' : m'.virtMap = (m.virtMap.erase z).insert (.new target l₁.size) l₂) :
      Resize E s m z target atype f moves s' m' (.ok (.new target l₁.size))
  /-- It does not, and goes elsewhere. -/
  | moved {l l₁ l₂ : VirtLayout} {s₁ s' : σ} {r : VirtRange} {m' : VirtMapper} (hmoves : moves)
      (hl : (z, l) ∈ m.virtMap.entries) (hty : l.atype = atype)
      (hf : f s l = some (s₁, l₁, .ok ())) (h0 : l₁.size ≠ 0)
      (hfs : m.freeSpace E.virt (.new target l₁.size) (some z) = some none)
      (hr : m.findRange E.virt l₁.size = some (some r)) (hl₂ : l₁.Same l₂)
      (hm' : m'.virtMap = (m.virtMap.erase z).insert r l₂) :
      Resize E s m z target atype f moves s' m' (.ok r)
  /-- There is no space, and the region goes back to what is mapped of it. -/
  | reverted {l l₁ l₂ : VirtLayout} {s₁ s' : σ} {err : MemErr} (hl : (z, l) ∈ m.virtMap.entries)
      (hty : l.atype = atype) (hf : f s l = some (s₁, l₁, .ok ())) (h0 : l₁.size ≠ 0)
      (hfs : m.freeSpace E.virt (.new target l₁.size) (some z) = some none)
      (hr : moves → m.findRange E.virt l₁.size = some none)
      (hrev : l₁.revert E.toMemApi s₁ = some (s', l₂)) :
      Resize E s m z target atype f moves s' ⟨m.virtMap.modify z fun _ => l₂⟩ (.error err)

theorem remapTo_cases {moves : Prop}
    {full : σ → VirtMapper → VirtLayout → Option (σ × VirtMapper × Except MemErr VirtRange)}
    (hfull : ∀ {l l₁ s₁}, (z, l) ∈ m.virtMap.entries → l.atype = atype →
      f s l = some (s₁, l₁, .ok ()) → l₁.size ≠ 0 →
      m.freeSpace E.virt (.new target l₁.size) (some z) = some none →
      full s₁ ⟨m.virtMap.modify z fun _ => l₁⟩ l₁ = some (s', m', res) →
      Resize E s m z target atype f moves s' m' res)
    (h : remapTo E s m z target atype f full = some (s', m', res)) :
    Resize E s m z target atype f moves s' m' res := by
  unfold remapTo at h
  cases hget : m.virtMap.get? z with
  | none =>
    rw [hget] at h
    obtain ⟨rfl, rfl, rfl⟩ := by simpa using h
    refine .refused ?_
    rintro ⟨l, hl, -⟩
    exact SortedMap.get?_eq_none.1 hget (SortedMap.mem_keys_of_mem hl)
  | some l =>
    have hl := SortedMap.get?_eq_some.1 hget
    rw [hget] at h
    simp only at h
    by_cases hty : l.allocType ≠ atype
    · rw [if_pos hty] at h
      obtain ⟨rfl, rfl, rfl⟩ := by simpa using h
      refine .refused ?_
      rintro ⟨l', hl', hty'⟩
      rw [(Prod.mk.inj (SortedMap.entry_unique hl' hl rfl)).2] at hty'
      exact hty hty'
    rw [if_neg hty] at h
    rw [not_not] at hty
    obtain ⟨⟨s₁, l₁, r₁⟩, hf, h⟩ := Option.bind_eq_some_iff.1 h
    cases r₁ with
    | error err =>
      obtain ⟨rfl, rfl, rfl⟩ := by simpa using h
      exact .failed hl hty hf
    | ok u =>
      simp only [freeSpace_modify, SortedMap.erase_modify] at h
      by_cases h0 : l₁.size = 0
      · simp only [h0, if_true, Option.bind_eq_bind, Option.bind_eq_some_iff] at h
        obtain ⟨_, -, _, -, ⟨_, _⟩, -, _, -, h⟩ := h
        obtain ⟨-, rfl, rfl⟩ := by simpa using h
        exact .removed hl hty hf h0
      rw [if_neg h0] at h
      obtain ⟨_ | fs, hfs, h⟩ := Option.bind_eq_some_iff.1 h
      · exact hfull hl hty hf h0 hfs h
      have hplaced : ∀ {s₂ l₂}, l₁.Same l₂ →
          ((place E s₂ ⟨m.virtMap.erase z⟩ l₂ (.new target l₁.size)).bind
            fun r => some (r.1, r.2, .ok (.new target l₁.size))) = some (s', m', res) →
          Resize E s m z target atype f moves s' m' res := by
        intro s₂ l₂ hl₂ h
        obtain ⟨⟨s₃, m₃⟩, hplace, h⟩ := Option.bind_eq_some_iff.1 h
        obtain ⟨-, rfl, rfl⟩ := by simpa using h
        obtain ⟨l₃, hl₃, hins⟩ := place_spec hplace
        exact .fitted hl hty hf h0 hfs (hl₂.trans hl₃) hins
      by_cases hmove : target ≠ z.addr
      · simp only [if_pos hmove, Option.bind_eq_bind, Option.bind_eq_some_iff] at h
        obtain ⟨_, -, s₂, -, ⟨s₃, l₃⟩, hmark, h⟩ := h
        exact hplaced (VirtLayout.markUnmapped_same hmark) (Option.bind_eq_some_iff.2 h)
      · rw [if_neg hmove] at h
        exact hplaced (.refl l₁) h

theorem reverted_spec {g : VirtLayout → VirtLayout} {err : MemErr}
    (h : reverted E s ⟨m.virtMap.modify z g⟩ z l err = some (s', m', res)) :
    ∃ l', l.revert E.toMemApi s = some (s', l') ∧ m' = ⟨m.virtMap.modify z fun _ => l'⟩ ∧
      res = .error err := by
  obtain ⟨⟨s₁, l₁⟩, hrev, h⟩ := Option.bind_eq_some_iff.1 h
  obtain ⟨rfl, rfl, rfl⟩ := by simpa using h
  exact ⟨l₁, hrev, by rw [SortedMap.modify_modify]; rfl, rfl⟩

theorem remap_cases (h : m.remap E s r atype f = some (s', m', res)) :
    ∃ z, r.aligned E.virt.toAddrApi = some z ∧ Resize E s m z z.addr atype f True s' m' res := by
  obtain ⟨z, hz, h⟩ := Option.bind_eq_some_iff.1 h
  refine ⟨z, hz, remapTo_cases ?_ h⟩
  intro l l₁ s₁ hl hty hf h0 hfs h
  rw [findRange_modify, SortedMap.erase_modify] at h
  obtain ⟨_ | r', hr', h⟩ := Option.bind_eq_some_iff.1 h
  · obtain ⟨l₂, hrev, rfl, rfl⟩ := reverted_spec h
    exact .reverted hl hty hf h0 hfs (fun _ => hr') hrev
  · simp only [Option.bind_eq_bind, Option.bind_eq_some_iff] at h
    obtain ⟨_, -, s₂, -, ⟨s₃, l₃⟩, hmark, ⟨s₄, m₄⟩, hplace, h⟩ := h
    obtain ⟨-, rfl, rfl⟩ := by simpa using h
    obtain ⟨l₄, hl₄, hins⟩ := place_spec hplace
    exact .moved trivial hl hty hf h0 hfs hr' ((VirtLayout.markUnmapped_same hmark).trans hl₄) hins

theorem remapAt_cases (h : m.remapAt E s r target atype f = some (s', m', res)) :
    ∃ z, r.aligned E.virt.toAddrApi = some z ∧
      Resize E s m z (alignDown target PAGE_SIZE) atype f False s' m' res := by
  obtain ⟨z, hz, h⟩ := Option.bind_eq_some_iff.1 h
  refine ⟨z, hz, remapTo_cases ?_ h⟩
  intro l l₁ s₁ hl hty hf h0 hfs h
  obtain ⟨l₂, hrev, rfl, rfl⟩ := reverted_spec h
  exact .reverted hl hty hf h0 hfs False.elim hrev

/-- A region that `remap` keeps at its address does not wrap around, and one that it moves goes to an
address that `VirtAddr::new` does not move. -/
def RemapSafe (E : MemEnv σ) (s : σ) (m : VirtMapper) (virtZone : VirtRange) (atype : AllocType)
    (f : AllocFunc σ) : Prop :=
  ∀ z ∈ virtZone.aligned E.virt.toAddrApi, ∀ l ∈ resized s m z atype f,
    m.NoWrap E.virt z z.addr l.size ∧
      (m.freeSpace E.virt (.new z.addr l.size) (some z) = some none → m.GapCanonical l.size)

/-- A region that `remap_at` resizes does not wrap around. -/
def RemapAtSafe (E : MemEnv σ) (s : σ) (m : VirtMapper) (virtZone : VirtRange) (targetAddr : ℕ)
    (atype : AllocType) (f : AllocFunc σ) : Prop :=
  ∀ z ∈ virtZone.aligned E.virt.toAddrApi, ∀ l ∈ resized s m z atype f,
    m.NoWrap E.virt z (alignDown targetAddr PAGE_SIZE) l.size

instance : Decidable (RemapSafe E s m r atype f) := by
  delta RemapSafe
  infer_instance

instance : Decidable (RemapAtSafe E s m r target atype f) := by
  delta RemapAtSafe
  infer_instance

/-- A region that is taken out and put into a gap. -/
theorem Change.move (hu : UserRange r) (hfree : ∀ k ∈ m.virtMap.keys, some z ≠ some k → Apart k r)
    (hm' : m'.virtMap = (m.virtMap.erase z).insert r l) : Change m m' (some z) (some (r, l)) := by
  have hout : Change m ⟨m.virtMap.erase z⟩ (some z) none := .erase rfl
  refine hout.trans (.insert hu (fun k hk => ?_) hm')
  obtain ⟨hk, hne⟩ := SortedMap.mem_keys_erase.1 hk
  exact hfree k hk fun he => hne (Option.some.inj he).symm

/-- The region that `remap` and `remap_at` leave. -/
inductive Outcome (E : MemEnv σ) (s : σ) (m : VirtMapper) (z : VirtRange) (target : ℕ)
    (atype : AllocType) (f : AllocFunc σ) (moves : Prop) : VirtRange × VirtLayout → Prop
  /-- What the closure left when it failed. -/
  | failed {l l₁ : VirtLayout} {s₁ : σ} {err : MemErr} (hl : (z, l) ∈ m.virtMap.entries)
      (hty : l.atype = atype) (hf : f s l = some (s₁, l₁, .error err)) :
      Outcome E s m z target atype f moves (z, l₁)
  /-- What the closure made of it. -/
  | placed {r : VirtRange} {l l₁ l₂ : VirtLayout} {s₁ : σ} (hl : (z, l) ∈ m.virtMap.entries)
      (hty : l.atype = atype) (hf : f s l = some (s₁, l₁, .ok ()))
      (hr : r.size = alignUp l₁.size PAGE_SIZE) (hl₂ : l₁.Same l₂) :
      Outcome E s m z target atype f moves (r, l₂)
  /-- What is mapped of it, where there is no space for what the closure made of it. -/
  | reverted {l l₁ l₂ : VirtLayout} {s₁ s' : σ} (hl : (z, l) ∈ m.virtMap.entries)
      (hty : l.atype = atype) (hf : f s l = some (s₁, l₁, .ok ()))
      (hfs : m.freeSpace E.virt (.new target l₁.size) (some z) = some none)
      (hr : moves → m.findRange E.virt l₁.size = some none)
      (hrev : l₁.revert E.toMemApi s₁ = some (s', l₂)) :
      Outcome E s m z target atype f moves (z, l₂)

/-- Resizing replaces a region of the type by one that overlaps no other. -/
theorem Resize.change {moves : Prop} (h : Resize E s m z target atype f moves s' m' res)
    (hm : m.WellPlaced) (hV : E.virt.IsVirt) (hdvd : PAGE_SIZE ∣ target)
    (hwrap : ∀ l₁ ∈ resized s m z atype f, m.NoWrap E.virt z target l₁.size)
    (hgap : moves → ∀ l₁ ∈ resized s m z atype f,
      m.freeSpace E.virt (.new target l₁.size) (some z) = some none → m.GapCanonical l₁.size) :
    ∃ gone come, Change m m' gone come ∧ (∀ k ∈ gone, m.HasRegion k atype) ∧
      ∀ e ∈ come, Outcome E s m z target atype f moves e := by
  have hresized : ∀ {l s₁ l₁}, (z, l) ∈ m.virtMap.entries → l.atype = atype →
      f s l = some (s₁, l₁, .ok ()) → l₁ ∈ resized s m z atype f := by
    intro l s₁ l₁ hl hty hf
    simp [resized, SortedMap.get?_eq_some.2 hl, VirtLayout.allocType, hty, hf]
  have hgone : ∀ {l}, (z, l) ∈ m.virtMap.entries → l.atype = atype →
      ∀ k ∈ some z, m.HasRegion k atype := by
    intro l hl hty k hk
    rw [← Option.some.inj hk]
    exact ⟨l, hl, hty⟩
  cases h with
  | refused hno => exact ⟨none, none, .refl m, by simp, by simp⟩
  | @failed l l₁ _ _ hl hty hfl =>
    have hc : Change m ⟨m.virtMap.modify z fun _ => l₁⟩ (some z) (some (z, l₁)) :=
      @Change.modify m _ z l (fun _ => l₁) hm hl rfl
    refine ⟨_, _, hc, hgone hl hty, fun e he => ?_⟩
    rw [← Option.some.inj he]
    exact .failed hl hty hfl
  | removed hl hty hfl h0 => exact ⟨_, _, .erase rfl, hgone hl hty, by simp⟩
  | @fitted l l₁ l₂ _ _ _ _ hl hty hfl h0 hfs hl₂ hm' =>
    obtain ⟨haddr, hds, hle, hlt⟩ :=
      new_spec hdvd (hwrap _ (hresized hl hty hfl) (by rw [hfs]; rfl)) rfl
    obtain ⟨hlo, hhi, hfree⟩ := hm.freeSpace_spec hV hlt hfs
    refine ⟨_, some (_, l₂), .move ⟨by rwa [haddr], hds, by omega, hlo, hhi⟩ hfree hm', hgone hl hty,
      fun e he => ?_⟩
    rw [← Option.some.inj he]
    exact .placed hl hty hfl rfl hl₂
  | @moved l l₁ l₂ _ _ r _ hmoves hl hty hfl h0 hfs hr hl₂ hm' =>
    obtain ⟨hu, hfree⟩ := hm.findRange_spec hV (hgap hmoves _ (hresized hl hty hfl) hfs)
      (Nat.pos_of_ne_zero h0) hr
    refine ⟨_, some (r, l₂), .move hu (fun k hk _ => hfree k hk) hm', hgone hl hty, fun e he => ?_⟩
    rw [← Option.some.inj he]
    exact .placed hl hty hfl (findRange_size hr) hl₂
  | @reverted l _ l₂ _ _ _ hl hty hfl h0 hfs hr hrev =>
    have hc : Change m ⟨m.virtMap.modify z fun _ => l₂⟩ (some z) (some (z, l₂)) :=
      @Change.modify m _ z l (fun _ => l₂) hm hl rfl
    refine ⟨_, _, hc, hgone hl hty, fun e he => ?_⟩
    rw [← Option.some.inj he]
    exact .reverted hl hty hfl hfs hr hrev

/-- The type of the region stays. -/
theorem Outcome.allocType {moves : Prop} {e : VirtRange × VirtLayout}
    (h : Outcome E s m z target atype f moves e)
    (hf : ∀ {s l s₁ l₁ r}, f s l = some (s₁, l₁, r) → l₁.atype = l.atype) : e.2.atype = atype := by
  cases h with
  | failed hl hty hfl => exact (hf hfl).trans hty
  | placed hl hty hfl hr hl₂ => exact hl₂.atype.trans ((hf hfl).trans hty)
  | reverted hl hty hfl hfs hr hrev =>
    exact (VirtLayout.revert_spec hrev).2.2.2.2.trans ((hf hfl).trans hty)

theorem remap_change (hm : m.WellPlaced) (hV : E.virt.IsVirt) (hsafe : RemapSafe E s m r atype f)
    (h : m.remap E s r atype f = some (s', m', res)) :
    ∃ z, r.aligned E.virt.toAddrApi = some z ∧ ∃ gone come, Change m m' gone come ∧
      (∀ k ∈ gone, m.HasRegion k atype) ∧ ∀ e ∈ come, Outcome E s m z z.addr atype f True e := by
  obtain ⟨z, hz, hcases⟩ := remap_cases h
  exact ⟨z, hz, hcases.change hm hV (AddrRange.aligned_spec hV hz).1
    (fun l₁ hl₁ => (hsafe z hz l₁ hl₁).1) fun _ l₁ hl₁ => (hsafe z hz l₁ hl₁).2⟩

theorem remapAt_change (hm : m.WellPlaced) (hV : E.virt.IsVirt)
    (hsafe : RemapAtSafe E s m r target atype f)
    (h : m.remapAt E s r target atype f = some (s', m', res)) :
    ∃ z, r.aligned E.virt.toAddrApi = some z ∧ ∃ gone come, Change m m' gone come ∧
      (∀ k ∈ gone, m.HasRegion k atype) ∧
        ∀ e ∈ come, Outcome E s m z (alignDown target PAGE_SIZE) atype f False e := by
  obtain ⟨z, hz, hcases⟩ := remapAt_cases h
  exact ⟨z, hz, hcases.change hm hV dvd_alignDown (hsafe z hz) False.elim⟩

theorem remap_spec (hm : m.WellPlaced) (hV : E.virt.IsVirt)
    (hf : ∀ {s l s₁ l₁ r}, f s l = some (s₁, l₁, r) → l₁.atype = l.atype)
    (hsafe : RemapSafe E s m r atype f) (h : m.remap E s r atype f = some (s', m', res)) :
    m.Touches m' atype := by
  obtain ⟨z, -, gone, come, hc, hgone, hcome⟩ := remap_change hm hV hsafe h
  exact ⟨gone, come, hc, hgone, fun e he => (hcome e he).allocType hf⟩

theorem remapAt_spec (hm : m.WellPlaced) (hV : E.virt.IsVirt)
    (hf : ∀ {s l s₁ l₁ r}, f s l = some (s₁, l₁, r) → l₁.atype = l.atype)
    (hsafe : RemapAtSafe E s m r target atype f)
    (h : m.remapAt E s r target atype f = some (s', m', res)) : m.Touches m' atype := by
  obtain ⟨z, -, gone, come, hc, hgone, hcome⟩ := remapAt_change hm hV hsafe h
  exact ⟨gone, come, hc, hgone, fun e he => (hcome e he).allocType hf⟩

end VirtMapper
end AuroraOs
