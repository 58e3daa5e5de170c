import AuroraOs.Mem.PageCount
import AuroraOs.Mem.PageMappingIter

/-!
# Regions in one half of the address space

`find_range` searches everything from the first page to the kernel as one interval, but the addresses in
the middle are not canonical.  As long as every range that `realloc` takes stays in one half, the ends of
the regions are what they seem to be, and `map` does not panic.
-/

namespace AuroraOs

open Machine

/-- The range, and the page behind it, lie in the lower half; or the range lies in the upper half, below
the kernel. -/
def WithinHalf (a n : ℕ) : Prop :=
  a + n + PAGE_SIZE ≤ 2 ^ 47 ∨ 2 ^ 64 - 2 ^ 47 ≤ a ∧ a + n ≤ MAX_MAP_ADDR

instance (a n : ℕ) : Decidable (WithinHalf a n) := inferInstanceAs (Decidable (_ ∨ _))

/-- A range of canonical addresses in one half, with the same end for the integers as for `VirtAddr`. -/
structure Settled (V : VirtAddrApi) (r : VirtRange) : Prop where
  half : OneHalf r
  end_eq : r.endAddr V.toAddrApi = some r.endUsize

section WithinHalf

variable {V : VirtAddrApi} {a n : ℕ} {r : VirtRange}

theorem WithinHalf.canonical (h : WithinHalf a n) : Canonical a ∧ Canonical (a + n) ∧ InHalf a n := by
  have hpage : 0 < PAGE_SIZE := by decide
  have hmax : MAX_MAP_ADDR < 2 ^ 64 := by decide
  unfold WithinHalf at h
  unfold Canonical InHalf
  omega

theorem WithinHalf.lt (h : WithinHalf a n) : a < usizeMod ∧ a + n + PAGE_SIZE ≤ usizeMod := by
  have hpage : 0 < PAGE_SIZE := by decide
  have hmax : MAX_MAP_ADDR + PAGE_SIZE ≤ 2 ^ 64 := by decide
  unfold WithinHalf at h
  simp only [usizeMod]
  omega

/-- `VirtRange::new` rounds the size up, and stays within the half. -/
theorem WithinHalf.new (h : WithinHalf a n) (hd : PAGE_SIZE ∣ a) :
    (AddrRange.new a n).addr = a ∧ WithinHalf (AddrRange.new a n).addr (AddrRange.new a n).size := by
  obtain ⟨hlt, hround⟩ := h.lt
  have haddr : (AddrRange.new a n).addr = a := alignDown_of_dvd hlt hd
  refine ⟨haddr, ?_⟩
  have hup : ∀ x, PAGE_SIZE ∣ x → x + PAGE_SIZE ≤ usizeMod → a + n ≤ x → a + alignUp n PAGE_SIZE ≤ x := by
    intro x hx hxle hle
    have := alignUp_le (a := n) (n := x - a) (by omega) (by omega) (Nat.dvd_sub hx hd)
    omega
  rw [haddr]
  unfold WithinHalf at h ⊢
  rcases h with h | ⟨hlo, hhi⟩
  · have hle := hup (2 ^ 47 - PAGE_SIZE) (by decide) (by decide) (by omega)
    have hpage : PAGE_SIZE ≤ 2 ^ 47 := by decide
    exact Or.inl (by simp only [AddrRange.new]; omega)
  · exact Or.inr ⟨hlo, hup MAX_MAP_ADDR (by decide) (by decide) hhi⟩

theorem WithinHalf.settled (h : WithinHalf r.addr r.size) (hV : V.IsVirt) : Settled V r := by
  obtain ⟨-, hcanonical, -⟩ := h.canonical
  have hlt : r.addr + r.size < usizeMod := by
    unfold Canonical at hcanonical
    simp only [usizeMod]
    omega
  refine ⟨?_, ?_⟩
  · have hmax : MAX_MAP_ADDR < 2 ^ 64 := by decide
    have hpage : 0 < PAGE_SIZE := by decide
    unfold WithinHalf at h
    unfold OneHalf
    omega
  · rw [AddrRange.endAddr, AddrRange.endUsize, hV.add_eq, Nat.mod_eq_of_lt hlt, hV.new_of_canonical hcanonical]

end WithinHalf

namespace VirtMapper

variable {σ : Type} {E : MemEnv σ} {s s' : σ} {m m' : VirtMapper} {l : VirtLayout} {r z : VirtRange}
  {atype : AllocType} {f : AllocFunc σ} {target size : ℕ} {res : Except MemErr VirtRange} {ret : SysRet}
  {options : BitVec 32} {a1 a2 a3 : Usize}

/-! ### The ranges that a call takes -/

/-- The gap that `find_range` takes has the range in one half. -/
def GapWithin (m : VirtMapper) (size : ℕ) : Prop := ∀ a ∈ m.freeAddr size, WithinHalf a size

instance : Decidable (m.GapWithin size) :=
  inferInstanceAs (Decidable (∀ a ∈ m.freeAddr size, WithinHalf a size))

/-- Where a resized region goes: it stays in one half at the target, if `free_space` accepts it there, and
otherwise in a gap. -/
def TargetWithin (V : VirtAddrApi) (m : VirtMapper) (z : VirtRange) (target : ℕ) (moves : Bool)
    (size : ℕ) : Prop :=
  ((m.freeSpace V (.new target size) (some z)).join.isSome → WithinHalf target size) ∧
    (moves → m.freeSpace V (.new target size) (some z) = some none → m.GapWithin size)

instance {V : VirtAddrApi} {moves : Bool} : Decidable (TargetWithin V m z target moves size) :=
  inferInstanceAs (Decidable (_ ∧ _))

def RemapWithin (E : MemEnv σ) (s : σ) (m : VirtMapper) (virtZone : VirtRange) (atype : AllocType)
    (f : AllocFunc σ) : Prop :=
  ∀ z ∈ virtZone.aligned E.virt.toAddrApi, ∀ l ∈ resized s m z atype f,
    TargetWithin E.virt m z z.addr true l.size

def RemapAtWithin (E : MemEnv σ) (s : σ) (m : VirtMapper) (virtZone : VirtRange) (targetAddr : ℕ)
    (atype : AllocType) (f : AllocFunc σ) : Prop :=
  ∀ z ∈ virtZone.aligned E.virt.toAddrApi, ∀ l ∈ resized s m z atype f,
    TargetWithin E.virt m z (alignDown targetAddr PAGE_SIZE) false l.size

instance : Decidable (RemapWithin E s m r atype f) := by
  delta RemapWithin
  infer_instance

instance : Decidable (RemapAtWithin E s m r target atype f) := by
  delta RemapAtWithin
  infer_instance

theorem TargetWithin.noWrap {V : VirtAddrApi} {moves : Bool} (h : TargetWithin V m z target moves size) :
    m.NoWrap V z target size := fun hfits => (h.1 hfits).lt.2

theorem GapWithin.canonical (h : m.GapWithin size) : m.GapCanonical size := by
  intro a ha hmoved
  obtain ⟨hcanonical, -⟩ := (h a ha).canonical
  simp only [MAX_VIRT_ADDR, Nat.shiftLeft_eq, one_mul] at hmoved
  unfold Canonical at hcanonical
  omega

/-- What `find_range` returns is where the gap is. -/
theorem GapWithin.findRange (h : m.GapWithin size) (hm : m.WellPlaced) (hV : E.virt.IsVirt) :
    (m.findRange E.virt size = some none ∧ m.freeAddr size = none) ∨
      ∃ a, m.freeAddr size = some a ∧ PAGE_SIZE ∣ a ∧ m.findRange E.virt size = some (some (.new a size)) := by
  unfold VirtMapper.findRange
  cases ha : m.freeAddr size with
  | none => exact Or.inl ⟨rfl, rfl⟩
  | some a =>
    have hnew := hV.new_of_canonical (h a ha).canonical.1
    exact Or.inr ⟨a, rfl, (hm.freeAddr_spec ha).1, by simp only [hnew, Option.map_some]⟩

theorem GapWithin.range (h : m.GapWithin size) (hm : m.WellPlaced) (hV : E.virt.IsVirt)
    (hr : m.findRange E.virt size = some (some r)) : WithinHalf r.addr r.size := by
  rcases h.findRange (E := E) hm hV with ⟨hnone, -⟩ | ⟨a, ha, hd, hsome⟩
  · rw [hnone] at hr
    simp at hr
  · rw [hsome] at hr
    obtain rfl := Option.some.inj (Option.some.inj hr)
    exact ((h a ha).new hd).2

/-! ### The regions after a call -/

theorem map_mem_keys (h : m.map E s l = some (s', m', res)) (hr : r ∈ m'.virtMap.keys) :
    r ∈ m.virtMap.keys ∨ m.findRange E.virt l.size = some (some r) := by
  simp only [map] at h
  split_ifs at h with h0
  · obtain ⟨_, -, h⟩ := Option.bind_eq_some_iff.1 h
    obtain ⟨-, rfl, -⟩ := by simpa using h
    exact Or.inl hr
  · obtain ⟨_ | z, hz, h⟩ := Option.bind_eq_some_iff.1 h
    · obtain ⟨_, -, h⟩ := Option.bind_eq_some_iff.1 h
      obtain ⟨-, rfl, -⟩ := by simpa using h
      exact Or.inl hr
    · obtain ⟨⟨s₁, m₁⟩, hplace, h⟩ := Option.bind_eq_some_iff.1 h
      obtain ⟨-, rfl, -⟩ := by simpa using h
      obtain ⟨l', -, hins⟩ := place_spec hplace
      rw [hins, SortedMap.mem_keys_insert] at hr
      rcases hr with rfl | hr
      · exact Or.inr hz
      · exact Or.inl hr

theorem mapAt_mem_keys (h : m.mapAt E s l z = some (s', m', res)) (hr : r ∈ m'.virtMap.keys) :
    r ∈ m.virtMap.keys ∨ z.aligned E.virt.toAddrApi = some r ∧ l.size = r.size ∧
      (m.freeSpace E.virt r none).join.isSome := by
  simp only [mapAt] at h
  obtain ⟨r', hr', h⟩ := Option.bind_eq_some_iff.1 h
  have herror : ∀ {err}, ((l.dealloc E.toMemApi s).bind fun s => some (s, m, .error err))
      = some (s', m', res) → r ∈ m.virtMap.keys := by
    intro err h
    obtain ⟨_, -, h⟩ := Option.bind_eq_some_iff.1 h
    obtain ⟨-, rfl, -⟩ := by simpa using h
    exact hr
  split_ifs at h with hsize h0
  · exact Or.inl (herror h)
  · exact Or.inl (herror h)
  · obtain ⟨_ | fs, hfs, h⟩ := Option.bind_eq_some_iff.1 h
    · exact Or.inl (herror h)
    · obtain ⟨⟨s₁, m₁⟩, hplace, h⟩ := Option.bind_eq_some_iff.1 h
      obtain ⟨-, rfl, -⟩ := by simpa using h
      obtain ⟨l', -, hins⟩ := place_spec hplace
      rw [hins, SortedMap.mem_keys_insert] at hr
      rcases hr with rfl | hr
      · exact Or.inr ⟨hr', not_not.1 hsize, by rw [hfs]; rfl⟩
      · exact Or.inl hr

/-- A region that is resized stays within its half, or moves within one. -/
theorem Resize.within {moves : Bool} (h : Resize E s m z target atype f (moves = true) s' m' res)
    (hm : m.WellPlaced) (hV : E.virt.IsVirt) (hd : PAGE_SIZE ∣ target)
    (hkeys : ∀ r ∈ m.virtMap.keys, WithinHalf r.addr r.size)
    (hwithin : ∀ l ∈ resized s m z atype f, TargetWithin E.virt m z target moves l.size) :
    ∀ r ∈ m'.virtMap.keys, WithinHalf r.addr r.size := by
  have hresized : ∀ {l s₁ l₁}, (z, l) ∈ m.virtMap.entries → l.atype = atype →
      f s l = some (s₁, l₁, .ok ()) → TargetWithin E.virt m z target moves l₁.size := by
    intro l s₁ l₁ hl hty hf
    exact hwithin l₁ (by simp [resized, SortedMap.get?_eq_some.2 hl, VirtLayout.allocType, hty, hf])
  have hinsert : ∀ {r l}, WithinHalf r.addr r.size →
      m'.virtMap = (m.virtMap.erase z).insert r l → ∀ r ∈ m'.virtMap.keys, WithinHalf r.addr r.size := by
    intro r l hr hm' k hk
    rw [hm', SortedMap.mem_keys_insert, SortedMap.mem_keys_erase] at hk
    rcases hk with rfl | ⟨hk, -⟩
    · exact hr
    · exact hkeys k hk
  cases h with
  | refused => exact hkeys
  | failed => simpa only [SortedMap.keys_modify] using hkeys
  | removed => exact fun r hr => hkeys r (SortedMap.mem_keys_erase.1 hr).1
  | fitted hl hty hf h0 hfs hl₂ hm' =>
    exact hinsert (((hresized hl hty hf).1 (by rw [hfs]; rfl)).new hd).2 hm'
  | moved hmoves hl hty hf h0 hfs hr hl₂ hm' =>
    exact hinsert (((hresized hl hty hf).2 hmoves hfs).range hm hV hr) hm'
  | reverted => simpa only [SortedMap.keys_modify] using hkeys

/-! ### `realloc` -/

/-- A call of `realloc`, with the memory of the kernel as it finds it. -/
structure ReallocCall (σ : Type) where
  mem : σ
  options : BitVec 32
  a1 : Usize
  a2 : Usize
  a3 : Usize

/-- Every range that the call takes lies in one half. -/
def ReallocWithin (E : MemEnv σ) (m : VirtMapper) (c : ReallocCall σ) : Prop :=
  let addr := c.a1.val
  let size := c.a2.val * PAGE_SIZE % usizeMod
  let atAddr := c.a3.val
  let flags := reallocFlags c.options.toNat
  PAGE_SIZE ≤ alignOf addr → PAGE_SIZE ≤ alignOf atAddr → size ≠ 0 →
    ∀ atVaddr ∈ E.virt.new atAddr,
      if addr = 0 then
        ∀ r ∈ VirtLayoutElement.new E.toMemApi c.mem size flags, ∀ elem ∈ r.2,
          if atAddr = 0 then m.GapWithin (VirtLayout.ofVec [elem] .virtMem).size
          else
            ∀ z ∈ (AddrRange.new (E.virt.newTruncate atAddr)
                (VirtLayout.ofVec [elem] .virtMem).size).aligned E.virt.toAddrApi,
              (VirtLayout.ofVec [elem] .virtMem).size = z.size → (m.freeSpace E.virt z none).join.isSome → WithinHalf z.addr z.size
      else
        ∀ z ∈ (m.getMappedRange E.virt (E.virt.newTruncate addr)).join,
          if atAddr = 0 then RemapWithin E c.mem m z .virtMem (reallocFunc E size flags)
          else RemapAtWithin E c.mem m z atVaddr .virtMem (reallocFunc E size flags)

instance (c : ReallocCall σ) : Decidable (m.ReallocWithin E c) := by
  delta ReallocWithin
  infer_instance

/-- The regions after a call. -/
def reallocStep (E : MemEnv σ) (m : VirtMapper) (c : ReallocCall σ) : Option VirtMapper :=
  (m.realloc E c.mem c.options c.a1 c.a2 c.a3).map fun r => r.2.1

variable {c : ReallocCall σ}

theorem ReallocWithin.safe (h : m.ReallocWithin E c) :
    m.ReallocSafe E c.mem c.options c.a1 c.a2 c.a3 := by
  intro h1 h3 hsize atVaddr hat
  have h := h h1 h3 hsize atVaddr hat
  by_cases haddr : c.a1.val = 0
  · rw [if_pos haddr] at h ⊢
    intro hzero r hr elem helem
    have hgap := h r hr elem helem
    rw [if_pos hzero] at hgap
    exact hgap.canonical
  · rw [if_neg haddr] at h ⊢
    intro z hz
    have h := h z hz
    by_cases hzero : c.a3.val = 0
    · rw [if_pos hzero] at h ⊢
      exact fun k hk l hl => ⟨(h k hk l hl).noWrap, fun hfs => ((h k hk l hl).2 rfl hfs).canonical⟩
    · rw [if_neg hzero] at h ⊢
      exact fun k hk l hl => (h k hk l hl).noWrap

/-- The regions lie apart, each of them in one half. -/
structure Halves (m : VirtMapper) : Prop where
  placed : m.WellPlaced
  within : ∀ r ∈ m.virtMap.keys, WithinHalf r.addr r.size

theorem reallocAlloc_within {size atAddr : ℕ} {flags : PageMappingFlags} (hm : m.Halves) (hV : E.virt.IsVirt)
    (hwithin : size ≠ 0 → ∀ r ∈ VirtLayoutElement.new E.toMemApi s size flags, ∀ elem ∈ r.2,
      if atAddr = 0 then m.GapWithin (VirtLayout.ofVec [elem] .virtMem).size
      else ∀ z ∈ (AddrRange.new (E.virt.newTruncate atAddr)
          (VirtLayout.ofVec [elem] .virtMem).size).aligned E.virt.toAddrApi,
        (VirtLayout.ofVec [elem] .virtMem).size = z.size → (m.freeSpace E.virt z none).join.isSome → WithinHalf z.addr z.size)
    (h : m.reallocAlloc E s size atAddr flags = some (s', m', ret)) :
    ∀ r ∈ m'.virtMap.keys, WithinHalf r.addr r.size := by
  unfold reallocAlloc at h
  by_cases hsize : size = 0
  · rw [if_pos hsize] at h
    obtain ⟨-, rfl, -⟩ := by simpa using h
    exact hm.within
  rw [if_neg hsize] at h
  obtain ⟨⟨s₁, _ | elem⟩, helem, h⟩ := Option.bind_eq_some_iff.1 h
  · obtain ⟨-, rfl, -⟩ := by simpa using h
    exact hm.within
  have hwithin := hwithin hsize _ helem elem rfl
  intro r hr
  by_cases hat : atAddr = 0
  · rw [if_pos hat] at hwithin
    simp only [if_pos hat] at h
    obtain ⟨⟨s₂, m₂, result⟩, hmap, h⟩ := Option.bind_eq_some_iff.1 h
    obtain ⟨-, rfl, -⟩ := by simpa using h
    rcases map_mem_keys hmap hr with hr | hr
    · exact hm.within r hr
    · exact hwithin.range hm.placed hV hr
  · rw [if_neg hat] at hwithin
    simp only [if_neg hat] at h
    obtain ⟨⟨s₂, m₂, result⟩, hmap, h⟩ := Option.bind_eq_some_iff.1 h
    obtain ⟨-, rfl, -⟩ := by simpa using h
    rcases mapAt_mem_keys hmap hr with hr | ⟨hr, hsize, hfits⟩
    · exact hm.within r hr
    · exact hwithin r hr hsize hfits

theorem reallocFree_keys {addr : ℕ} (h : m.reallocFree E s addr = some (s', m', ret)) :
    ∀ r ∈ m'.virtMap.keys, r ∈ m.virtMap.keys := by
  obtain ⟨_ | z, hz, h⟩ := Option.bind_eq_some_iff.1 h
  · obtain ⟨-, rfl, -⟩ := by simpa using h
    exact fun r hr => hr
  obtain ⟨⟨s₁, m₁, result⟩, hunmap, hrest⟩ := Option.bind_eq_some_iff.1 h
  rcases unmap_spec hunmap with ⟨hz, ⟨l, -, rfl⟩, hc⟩ | ⟨-, ⟨err, rfl⟩, rfl⟩
  · simp only [Option.bind_eq_bind, Option.bind_eq_some_iff] at hrest
    obtain ⟨_, -, _, -, hrest⟩ := hrest
    obtain ⟨-, rfl, -⟩ := by simpa using hrest
    intro r hr
    rcases hc.mem_keys.1 hr with ⟨l, hl⟩ | ⟨hr, -⟩
    · cases hl
    · exact hr
  · obtain ⟨-, rfl, -⟩ := by simpa using hrest
    exact fun r hr => hr

theorem reallocResize_within {addr size atAddr atVaddr : ℕ} {flags : PageMappingFlags} (hm : m.Halves)
    (hV : E.virt.IsVirt)
    (hwithin : ∀ z ∈ (m.getMappedRange E.virt (E.virt.newTruncate addr)).join,
      if atAddr = 0 then RemapWithin E s m z .virtMem (reallocFunc E size flags)
      else RemapAtWithin E s m z atVaddr .virtMem (reallocFunc E size flags))
    (h : m.reallocResize E s addr size atAddr atVaddr flags = some (s', m', ret)) :
    ∀ r ∈ m'.virtMap.keys, WithinHalf r.addr r.size := by
  obtain ⟨_ | z, hz, h⟩ := Option.bind_eq_some_iff.1 h
  · obtain ⟨-, rfl, -⟩ := by simpa using h
    exact hm.within
  have hwithin := hwithin z (by rw [hz]; rfl)
  by_cases h0 : atAddr = 0
  · simp only [if_pos h0] at h hwithin
    obtain ⟨⟨s₁, m₁, result⟩, hremap, h⟩ := Option.bind_eq_some_iff.1 h
    obtain ⟨-, rfl, -⟩ := by simpa using h
    obtain ⟨k, hk, hcases⟩ := remap_cases hremap
    have hresize : Resize E s m k k.addr .virtMem (reallocFunc E size flags) (true = true) s₁ m₁ result := by
      simpa using hcases
    exact hresize.within hm.placed hV (AddrRange.aligned_spec hV hk).1 hm.within (hwithin k hk)
  · simp only [if_neg h0] at h hwithin
    obtain ⟨⟨s₁, m₁, result⟩, hremap, h⟩ := Option.bind_eq_some_iff.1 h
    obtain ⟨-, rfl, -⟩ := by simpa using h
    obtain ⟨k, hk, hcases⟩ := remapAt_cases hremap
    have hresize : Resize E s m k (alignDown atVaddr PAGE_SIZE) .virtMem (reallocFunc E size flags)
        (false = true) s₁ m₁ result := by
      simpa using hcases
    exact hresize.within hm.placed hV dvd_alignDown hm.within (hwithin k hk)

/-- **A call keeps every region in one half.** -/
theorem Halves.step (hm : m.Halves) (hV : E.virt.IsVirt) (hwithin : m.ReallocWithin E c)
    (hstep : reallocStep E m c = some m') : m'.Halves := by
  obtain ⟨⟨s', m₁, ret⟩, h, he⟩ := Option.map_eq_some_iff.1 hstep
  obtain rfl : m₁ = m' := he
  refine ⟨(realloc_spec hm.placed hV hwithin.safe h).wellPlaced hm.placed, ?_⟩
  unfold realloc at h
  simp only at h
  by_cases halign : alignOf c.a1.val < PAGE_SIZE ∨ alignOf c.a3.val < PAGE_SIZE
  · rw [if_pos halign] at h
    obtain ⟨-, rfl, -⟩ := by simpa using h
    exact hm.within
  rw [if_neg halign] at h
  obtain ⟨halign₁, halign₃⟩ := not_or.1 halign
  cases hat : E.virt.new c.a3.val with
  | none =>
    rw [hat] at h
    obtain ⟨-, rfl, -⟩ := by simpa using h
    exact hm.within
  | some atVaddr =>
    rw [hat] at h
    simp only at h
    have hwithin := fun hsize =>
      hwithin (Nat.le_of_not_lt halign₁) (Nat.le_of_not_lt halign₃) hsize atVaddr hat
    by_cases haddr : c.a1.val = 0
    · simp only [if_pos haddr] at h hwithin
      exact reallocAlloc_within hm hV hwithin h
    · simp only [if_neg haddr] at h hwithin
      by_cases hsize : c.a2.val * PAGE_SIZE % usizeMod = 0
      · rw [if_pos hsize] at h
        exact fun r hr => hm.within r (reallocFree_keys h r hr)
      · rw [if_neg hsize] at h
        exact reallocResize_within hm hV (hwithin hsize) h

theorem halves_new : VirtMapper.new.Halves :=
  ⟨wellPlaced_new, by simp [new, SortedMap.empty, SortedMap.keys]⟩

/-! ### `map` does not panic -/

/-- What `map` is to do with a layout: the range that it takes is in one half, and it panics only if the
page tables or the zone manager do. -/
structure MapReturns (E : MemEnv σ) (s : σ) (m : VirtMapper) (l : VirtLayout) : Prop where
  range : ∀ s' m' r, m.map E s l = some (s', m', .ok r) → Settled E.virt r
  returns : (∀ s zones, (E.mapInternal s zones).isSome) → (∀ s mem, (E.dealloc s mem).isSome) →
    (m.map E s l).isSome
  yields : ∀ r zones, m.findRange E.virt l.size = some (some r) →
    l.mappingIter E.phys E.virt.toAddrApi r = some zones →
    (∀ z ∈ zones, z.physZone.addr + z.physZone.size < 2 ^ 52) →
    ∃ acts, PageMappingIterator.Yields E.phys E.virt.toAddrApi zones acts

theorem deallocAll_isSome (hdealloc : ∀ s mem, (E.dealloc s mem).isSome) (s : σ)
    (elems : List VirtLayoutElement) : (VirtLayout.deallocAll E.toMemApi s elems).isSome := by
  induction elems generalizing s with
  | nil => rfl
  | cons e elems ih =>
    have hone : (e.dealloc E.toMemApi s).isSome := by
      unfold VirtLayoutElement.dealloc
      split
      · exact hdealloc s _
      · rfl
    obtain ⟨s', hs'⟩ := Option.isSome_iff_exists.1 hone
    rw [VirtLayout.deallocAll, List.foldlM_cons, hs']
    exact ih s'

theorem dealloc_isSome (hdealloc : ∀ s mem, (E.dealloc s mem).isSome) (s : σ) (l : VirtLayout) :
    (l.dealloc E.toMemApi s).isSome := by
  obtain ⟨s', hs'⟩ := Option.isSome_iff_exists.1 (deallocAll_isSome hdealloc s l.data)
  rw [VirtLayout.dealloc, hs']
  exact deallocAll_isSome hdealloc s' l.deallocQue

theorem place_isSome {zones : List Pmit} (hmap : ∀ s zones, (E.mapInternal s zones).isSome)
    (hdealloc : ∀ s mem, (E.dealloc s mem).isSome)
    (hzones : l.mappingIter E.phys E.virt.toAddrApi r = some zones) : (place E s m l r).isSome := by
  obtain ⟨s₁, hs₁⟩ := Option.isSome_iff_exists.1 (hmap s zones)
  obtain ⟨s₂, hs₂⟩ := Option.isSome_iff_exists.1 (deallocAll_isSome hdealloc s₁ l.deallocQue)
  simp only [place, hzones, hs₁, VirtLayout.syncMem, hs₂, Option.bind_eq_bind, Option.bind_some, insert]
  split
  · rfl
  · next old _ =>
    obtain ⟨s₃, hs₃⟩ := Option.isSome_iff_exists.1 (dealloc_isSome hdealloc s₂ old)
    rw [hs₃]
    rfl

variable {e : VirtLayoutElement}

/-- The zone of an element that is alone in a layout, within one half. -/
theorem mappingIter_ofVec (he : e.Layable E.phys) (hV : E.virt.IsVirt) (hr : WithinHalf r.addr e.size)
    (hd : PAGE_SIZE ∣ r.addr) : (VirtLayout.ofVec [e] atype).mappingIter E.phys E.virt.toAddrApi r =
      some (VirtLayout.zonesAt E.phys VirtLayoutElement.flags r.addr [e]) := by
  obtain ⟨hstart, hend, -⟩ := hr.canonical
  have hlt : r.addr < usizeMod := hr.lt.1
  have hzero : E.virt.add r.addr 0 = some r.addr := by
    rw [hV.add_eq, Nat.add_zero, Nat.mod_eq_of_lt hlt, hV.new_of_canonical hstart]
  obtain ⟨b, hb, -⟩ := add_of_accepted hV (accepted_of_canonical hend)
  have hpmit := VirtLayout.pmit_eq (f := e.flags) he hd hlt
  simp only [VirtLayout.mappingIter, VirtLayout.ofVec, hzero, VirtLayout.pmitsDown, VirtLayout.dirtySlice,
    List.drop_zero, VirtLayout.pmits, hpmit, hb, Option.bind_eq_bind, Option.bind_some, VirtLayout.zonesAt,
    List.nil_append, List.append_nil]
  rfl

/-- **Where the gap has room within a half, `map` returns.** -/
theorem Halves.mapReturns (hm : m.Halves) (hP : E.phys.IsPhys) (hV : E.virt.IsVirt) (he : e.Layable E.phys)
    (hgap : m.GapWithin e.size) : MapReturns E s m (.ofVec [e] atype) := by
  have hsize : (VirtLayout.ofVec [e] atype).size = e.size := size_ofVec he.lt
  have hfind : ∀ r, m.findRange E.virt e.size = some (some r) → WithinHalf r.addr e.size ∧ PAGE_SIZE ∣ r.addr := by
    intro r hr
    rcases hgap.findRange (E := E) hm.placed hV with ⟨hnone, -⟩ | ⟨a, ha, hd, hsome⟩
    · rw [hnone] at hr
      simp at hr
    · rw [hsome] at hr
      obtain rfl := Option.some.inj (Option.some.inj hr)
      obtain ⟨haddr, -⟩ := (hgap a ha).new hd
      rw [haddr]
      exact ⟨hgap a ha, hd⟩
  refine ⟨fun s' m' r hmap => ?_, fun hmap hdealloc => ?_, fun r zones hr hzones hbelow => ?_⟩
  · have hr : m.findRange E.virt e.size = some (some r) := by
      simp only [map, hsize] at hmap
      split_ifs at hmap with h0
      · obtain ⟨_, -, hmap⟩ := Option.bind_eq_some_iff.1 hmap
        simp at hmap
      · obtain ⟨_ | z, hz, hmap⟩ := Option.bind_eq_some_iff.1 hmap
        · obtain ⟨_, -, hmap⟩ := Option.bind_eq_some_iff.1 hmap
          simp at hmap
        · obtain ⟨⟨s₁, m₁⟩, -, hmap⟩ := Option.bind_eq_some_iff.1 hmap
          obtain ⟨-, -, rfl⟩ := by simpa using hmap
          exact hz
    exact (hgap.range hm.placed hV hr).settled hV
  · obtain ⟨s', hs'⟩ := Option.isSome_iff_exists.1 (dealloc_isSome hdealloc s (.ofVec [e] atype))
    simp only [map, hsize, hs', Option.bind_eq_bind, Option.bind_some]
    split_ifs with h0
    · rfl
    · rcases hgap.findRange (E := E) hm.placed hV with ⟨hnone, -⟩ | ⟨a, ha, hd, hsome⟩
      · rw [hnone]
        rfl
      · obtain ⟨hwithin, hd'⟩ := hfind _ hsome
        obtain ⟨⟨s₁, m₁⟩, hplace⟩ := Option.isSome_iff_exists.1
          (@place_isSome _ E s m _ _ _ hmap hdealloc (@mappingIter_ofVec _ E _ atype e he hV hwithin hd'))
        rw [hsome, Option.bind_some]
        simp only [hplace, Option.bind_some, Option.isSome_some]
  · rw [hsize] at hr
    obtain ⟨hwithin, hd⟩ := hfind r hr
    rw [mappingIter_ofVec he hV hwithin hd] at hzones
    obtain rfl := Option.some.inj hzones
    have hl : ∀ e' ∈ [e], e'.Layable E.phys := by simpa using he
    refine ⟨_, VirtLayout.yields_zones _ hP hV (fun z hz => VirtLayout.whole_zonesAt hl hd hz) fun z hz => ?_⟩
    obtain ⟨xs, e', ys, hsplit, hpiece⟩ := VirtLayout.mem_zonesAt.1 hz
    obtain ⟨rfl, rfl⟩ : xs = [] ∧ e' = e := by
      rcases xs with _ | ⟨x, xs⟩
      · exact ⟨rfl, ((List.cons.inj hsplit).1).symm⟩
      · simp at hsplit
    obtain ⟨p, -, rfl⟩ := VirtLayout.mem_pieceAt.1 hpiece
    exact ⟨hbelow _ hz, by simpa using hwithin.canonical.2.2⟩

/-- `realloc` of pages that are reserved, where `find_range` puts them. -/
def reserve (pages : Usize) : ReallocCall Unit := ⟨(), 0, 0, pages, 0⟩

/-- Two reservations that leave room in the lower half. -/
def smallReservations : List (ReallocCall Unit) := [reserve ⟨3, by decide⟩, reserve ⟨2 ^ 34, by decide⟩]

/-- A reservation that has room only across the middle of the address space. -/
def wideElement : VirtLayoutElement := ⟨.empty (2 ^ 48), 2 ^ 48, .fromMappingFlags .USER, .USER⟩

end VirtMapper
end AuroraOs
