import AuroraOs.Cap.SharedMem
import AuroraOs.Mem.AllocSize
import AuroraOs.Mem.Shrink

/-!
# Numbers of pages

`realloc` and `smem_new` take a number of pages and multiply it by the size of a page, modulo `2 ^ 64`.
From `2 ^ 52` pages on the product wraps around, and a multiple of `2 ^ 52` pages becomes the size 0; more
than `2 ^ 51` pages are more than the largest block, for which the zone manager returns a page.
-/

namespace AuroraOs

open VirtLayoutElement

variable {σ : Type} {E : MemEnv σ} {s s' : σ}

/-- The bytes of a number of pages. -/
def pageBytes (n : Usize) : ℕ := n.val * PAGE_SIZE % usizeMod

section PageBytes

variable {n : Usize}

theorem pageBytes_lt : pageBytes n < usizeMod := Nat.mod_lt _ (by decide)

theorem page_dvd_pageBytes : PAGE_SIZE ∣ pageBytes n := by
  simp only [pageBytes, PAGE_SIZE, usizeMod]
  omega

theorem pageBytes_of_lt (h : n.val < 2 ^ 52) : pageBytes n = n.val * PAGE_SIZE := by
  rw [pageBytes, Nat.mod_eq_of_lt]
  simp only [PAGE_SIZE, usizeMod]
  omega

theorem pageBytes_eq_zero : pageBytes n = 0 ↔ n.val % 2 ^ 52 = 0 := by
  simp only [pageBytes, PAGE_SIZE, usizeMod]
  omega

theorem alignUp_pageBytes : alignUp (pageBytes n) PAGE_SIZE = pageBytes n :=
  alignUp_of_page (n := 0) page_dvd_pageBytes (by simpa using pageBytes_lt)

end PageBytes

namespace VirtMapper

variable {m m' : VirtMapper} {l : VirtLayout} {r z : VirtRange} {ret : SysRet}
  {flags : PageMappingFlags} {size atAddr : ℕ}

/-! ### The sizes of regions -/

theorem map_size (h : m.map E s l = some (s', m', .ok r)) : r.size = alignUp l.size PAGE_SIZE := by
  unfold map at h
  simp only at h
  split_ifs at h with hsize
  · simp [Option.bind_eq_some_iff] at h
  · obtain ⟨_ | r', hfind, h⟩ := Option.bind_eq_some_iff.1 h
    · simp [Option.bind_eq_some_iff] at h
    · obtain ⟨⟨s₁, m₁⟩, -, h⟩ := Option.bind_eq_some_iff.1 h
      obtain ⟨-, -, rfl⟩ := by simpa using h
      unfold findRange at hfind
      split at hfind
      · simp at hfind
      · obtain ⟨addr, -, rfl⟩ := by simpa using hfind
        rfl

theorem mapAt_size (h : m.mapAt E s l z = some (s', m', .ok r)) : r.size = l.size := by
  obtain ⟨z', -, h⟩ := Option.bind_eq_some_iff.1 h
  split_ifs at h with hsize hzero
  · simp [Option.bind_eq_some_iff] at h
  · simp [Option.bind_eq_some_iff] at h
  · obtain ⟨_ | _, -, h⟩ := Option.bind_eq_some_iff.1 h
    · simp [Option.bind_eq_some_iff] at h
    · obtain ⟨⟨s₁, m₁⟩, -, h⟩ := Option.bind_eq_some_iff.1 h
      obtain ⟨-, -, rfl⟩ := by simpa using h
      exact (not_ne_iff.1 hsize).symm

theorem size_ofVec {e : VirtLayoutElement} (hlt : e.mapSize < usizeMod) :
    (VirtLayout.ofVec [e] .virtMem).size = e.mapSize := by
  rw [VirtLayout.size, VirtLayout.sizeOf_eq]
  simpa [VirtLayout.ofVec, VirtLayoutElement.size] using Nat.mod_eq_of_lt hlt

theorem ofRange_ok {result : Except MemErr VirtRange}
    (h : (SysRet.ofRange (fun _ => .outOfMem) result).err = .ok) :
    ∃ r, result = .ok r ∧ (SysRet.ofRange (fun _ => .outOfMem) result).val2 = r.size / PAGE_SIZE := by
  cases result with
  | error err => cases h
  | ok r => exact ⟨r, rfl, rfl⟩

/-- With an element at hand `realloc` is `map` or `map_at`. -/
theorem reallocAlloc_of_elem {s₁ : σ} {e : VirtLayoutElement} (hsize : size ≠ 0)
    (helem : VirtLayoutElement.new E.toMemApi s size flags = some (s₁, some e)) :
    m.reallocAlloc E s size atAddr flags =
      let layout := VirtLayout.ofVec [e] .virtMem
      (if atAddr = 0 then m.map E s₁ layout
        else m.mapAt E s₁ layout (.new (E.virt.newTruncate atAddr) layout.size)).map fun r =>
          (r.1, r.2.1, .ofRange (fun _ => .outOfMem) r.2.2) := by
  rw [reallocAlloc, if_neg hsize, helem]
  simp only [Option.bind_eq_bind, Option.bind_some, Option.map_eq_bind, Function.comp_def]
  split_ifs <;> rfl

/-- `realloc` reports the pages of the element that it has mapped. -/
theorem reallocAlloc_pages (hsize : size ≠ 0)
    (h : m.reallocAlloc E s size atAddr flags = some (s', m', ret)) (hok : ret.err = .ok) :
    ∃ s₁ e, VirtLayoutElement.new E.toMemApi s size flags = some (s₁, some e) ∧
      (PAGE_SIZE ∣ e.mapSize → e.mapSize < usizeMod → ret.val2 = e.mapSize / PAGE_SIZE) := by
  cases helem : VirtLayoutElement.new E.toMemApi s size flags with
  | none => simp [reallocAlloc, hsize, helem] at h
  | some r =>
  obtain ⟨s₁, _ | e⟩ := r
  · simp only [reallocAlloc, if_neg hsize, helem, Option.bind_eq_bind, Option.bind_some] at h
    obtain ⟨-, -, rfl⟩ := by simpa using h
    cases hok
  refine ⟨s₁, e, rfl, fun hdvd hlt => ?_⟩
  have hlayout := size_ofVec hlt
  rw [reallocAlloc_of_elem hsize helem] at h
  obtain ⟨⟨s₂, m₂, result⟩, hresult, h⟩ := Option.map_eq_some_iff.1 h
  simp only [Prod.mk.injEq] at h
  obtain ⟨-, -, rfl⟩ := h
  obtain ⟨r, rfl, hpages⟩ := ofRange_ok hok
  rw [hpages]
  split_ifs at hresult
  · rw [map_size hresult, hlayout, alignUp_of_page (n := 0) hdvd (by simpa using hlt)]
  · rw [mapAt_size hresult, hlayout]

/-! ### What the calls promise of a number of pages -/

/-- A region that `realloc` allocates has as many pages as were asked for, and exactly as many if the
size is exact; a number of pages that has no size in bytes is answered with an error, and nothing else
happens. -/
structure AllocKept (options : BitVec 32) (n : Usize) : Prop where
  pages : ∀ {σ : Type} (E : MemEnv σ) (s : σ) (m : VirtMapper) (a3 : Usize) (s' : σ) (m' : VirtMapper)
    (ret : SysRet), E.AllocSizes s → m.realloc E s options 0 n a3 = some (s', m', ret) → ret.err = .ok →
      n.val ≤ ret.val2 ∧ ((reallocFlags options.toNat).contains .EXACT_SIZE = true → ret.val2 = n.val)
  fits : usizeMod ≤ n.val * PAGE_SIZE → ∀ {σ : Type} (E : MemEnv σ) (s : σ) (m : VirtMapper) (a3 : Usize),
    E.AllocSizes s → ∃ err ≠ .ok, m.realloc E s options 0 n a3 = some (s, m, ⟨err, 0, 0⟩)

/-- An object that `smem_new` makes has as many pages as were asked for. -/
def SmemKept (n : Usize) : Prop :=
  ∀ {σ : Type} (E : MemEnv σ) (p p' : Process σ) (options : BitVec 32) (cid : CapId),
    E.AllocSizes p.mem → p.smemNew E options n = some (p', .ok cid) →
      ∃ object, p'.objects = p.objects ++ [object] ∧ n.val * PAGE_SIZE ≤ object.mem.mem.size

/-- A call of `realloc` for a region, with a number of pages that is not zero, resizes the region to at
least a page. -/
def ResizeKept (n : Usize) : Prop :=
  n.val ≠ 0 → ∀ {σ : Type} (E : MemEnv σ) (s : σ) (m : VirtMapper) (options : BitVec 32) (a1 a3 : Usize),
    a1.val ≠ 0 → PAGE_SIZE ≤ alignOf a1.val → PAGE_SIZE ≤ alignOf a3.val →
      ∀ atVaddr ∈ E.virt.new a3.val, ∃ size, PAGE_SIZE ≤ size ∧ m.realloc E s options a1 n a3 =
        m.reallocResize E s a1.val size a3.val atVaddr (reallocFlags options.toNat)

variable {options : BitVec 32} {n a1 a3 : Usize}

theorem realloc_of_aligned {atVaddr : ℕ} (h1 : PAGE_SIZE ≤ alignOf a1.val) (h3 : PAGE_SIZE ≤ alignOf a3.val)
    (hat : E.virt.new a3.val = some atVaddr) : m.realloc E s options a1 n a3 =
      let flags := reallocFlags options.toNat
      if a1.val = 0 then m.reallocAlloc E s (pageBytes n) a3.val flags
      else if pageBytes n = 0 then m.reallocFree E s a1.val
      else m.reallocResize E s a1.val (pageBytes n) a3.val atVaddr flags := by
  unfold realloc
  simp only [hat]
  rw [if_neg (not_or.2 ⟨not_lt.2 h1, not_lt.2 h3⟩), pageBytes]

/-- A call that allocates and reports success comes as far as `reallocAlloc`. -/
theorem reallocAlloc_of_ok (h : m.realloc E s options 0 n a3 = some (s', m', ret)) (hok : ret.err = .ok) :
    m.reallocAlloc E s (pageBytes n) a3.val (reallocFlags options.toNat) = some (s', m', ret) := by
  by_cases halign : alignOf (0 : Usize).val < PAGE_SIZE ∨ alignOf a3.val < PAGE_SIZE
  · unfold realloc at h
    simp only [if_pos halign] at h
    obtain ⟨-, -, rfl⟩ := by simpa using h
    cases hok
  obtain ⟨h1, h3⟩ := not_or.1 halign
  cases hat : E.virt.new a3.val with
  | none =>
    unfold realloc at h
    simp only [if_neg halign, hat] at h
    obtain ⟨-, -, rfl⟩ := by simpa using h
    cases hok
  | some atVaddr => exact (realloc_of_aligned (not_lt.1 h1) (not_lt.1 h3) hat).symm.trans h

/-- Nothing wraps around below `2 ^ 52` pages. -/
theorem allocKept_of_lt (hn : n.val < 2 ^ 52)
    (hround : Rounds (reallocFlags options.toNat) → n.val ≤ 2 ^ 51) : AllocKept options n := by
  refine ⟨fun E s m a3 s' m' ret hsizes h hok => ?_, fun hle => ?_⟩
  swap
  · simp only [usizeMod, PAGE_SIZE] at hle
    omega
  have hbytes := pageBytes_of_lt hn
  have halloc := reallocAlloc_of_ok h hok
  by_cases hzero : pageBytes n = 0
  · rw [reallocAlloc, if_pos hzero] at halloc
    obtain ⟨-, -, rfl⟩ := by simpa using halloc
    have hn0 : n.val = 0 := by
      rw [pageBytes_eq_zero] at hzero
      omega
    exact ⟨hn0.le, fun _ => hn0.symm⟩
  obtain ⟨s₁, e, helem, hpages⟩ := reallocAlloc_pages hzero halloc hok
  obtain ⟨hexact, hrounds⟩ := new_size helem
  rw [alignUp_pageBytes] at hexact hrounds
  by_cases hflags : Rounds (reallocFlags options.toNat)
  · obtain ⟨mem, hmem, hsize⟩ := hrounds hflags
    obtain ⟨-, hroom, hle, hdvd⟩ := hsizes _ pageBytes_lt _ _ hmem
    have hn' := hround hflags
    have hfit : pageBytes n ≤ 2 ^ 63 := by
      rw [hbytes]
      simp only [PAGE_SIZE]
      omega
    rw [hpages (hsize ▸ hdvd) (by rw [hsize]; simp only [usizeMod]; omega), hsize]
    refine ⟨?_, fun hcontains => by simp [hflags.2] at hcontains⟩
    rw [Nat.le_div_iff_mul_le (by decide), ← hbytes]
    exact hroom.2 hfit
  · rw [hpages (hexact hflags ▸ page_dvd_pageBytes) (hexact hflags ▸ pageBytes_lt), hexact hflags, hbytes,
      Nat.mul_div_cancel _ (by decide)]
    exact ⟨le_rfl, fun _ => rfl⟩

/-! ### A new address space -/

/-- In a new address space `map` finds room below the kernel. -/
theorem map_new_ok {result : Except MemErr VirtRange} (hV : E.virt.IsVirt) (hzero : l.size ≠ 0)
    (hle : l.size + PAGE_SIZE ≤ MAX_MAP_ADDR) (h : VirtMapper.new.map E s l = some (s', m', result)) :
    ∃ r, result = .ok r := by
  have hroom : ¬ subUsize MAX_MAP_ADDR PAGE_SIZE < l.size := by
    have hsub : subUsize MAX_MAP_ADDR PAGE_SIZE = MAX_MAP_ADDR - PAGE_SIZE := by decide
    rw [hsub]
    omega
  have hfree : VirtMapper.new.freeAddr l.size = some PAGE_SIZE := by
    simp only [freeAddr, VirtMapper.new, SortedMap.keys, SortedMap.empty, List.map_nil, scan]
    exact if_neg fun h => hroom h.2
  have hfirst : E.virt.new PAGE_SIZE = some PAGE_SIZE := by
    rw [hV.new_eq _ (by decide), if_pos (by decide)]
  have hfind : VirtMapper.new.findRange E.virt l.size = some (some (.new PAGE_SIZE l.size)) := by
    simp only [findRange, hfree, hfirst, Option.map_some]
  unfold map at h
  simp only [if_neg hzero, hfind, Option.bind_eq_bind, Option.bind_some] at h
  obtain ⟨⟨s₁, m₁⟩, -, h⟩ := Option.bind_eq_some_iff.1 h
  obtain ⟨-, -, rfl⟩ := by simpa using h
  exact ⟨_, rfl⟩

/-- An address in the lower half. -/
def lowAddr : Usize := ⟨2 ^ 39, by decide⟩

/-- What does not fit below the kernel wraps around at this address, and `aligned` panics. -/
theorem mapAt_low {size : ℕ} (hV : E.virt.IsVirt) (hdvd : PAGE_SIZE ∣ size) (hlt : size < usizeMod)
    (hle : MAX_MAP_ADDR < size + PAGE_SIZE) :
    m.mapAt E s l (.new (E.virt.newTruncate lowAddr.val) size) = none := by
  have hlow : E.virt.newTruncate lowAddr.val = 2 ^ 39 := by
    rw [hV.newTruncate_eq]
    decide
  have hnew : AddrRange.new (2 ^ 39) size = ⟨2 ^ 39, size⟩ := by
    rw [AddrRange.new, alignUp_of_page (n := 0) hdvd (by simpa using hlt),
      alignDown_of_dvd (by decide) (by decide)]
  have hpage : PAGE_SIZE ≤ 2 ^ 20 ∧ 2 ^ 39 ≤ usizeMod ∧ MAX_MAP_ADDR + 2 ^ 39 = usizeMod + 2 ^ 20 := by
    decide
  have hfit : size + PAGE_SIZE ≤ usizeMod := by
    simp only [usizeMod, PAGE_SIZE] at hlt hdvd ⊢
    omega
  -- the end of the range is below its start
  obtain ⟨x, hx⟩ : ∃ x, 2 ^ 39 + size = usizeMod + x := ⟨2 ^ 39 + size - usizeMod, by omega⟩
  have hbelow : x ≤ 2 ^ 39 - PAGE_SIZE := by omega
  have hadd : E.virt.add (2 ^ 39) size = some x := by
    have hword : x < usizeMod := by omega
    have hhalf : x < 2 ^ 47 := by omega
    rw [hV.add_eq, hx, Nat.add_mod_left, Nat.mod_eq_of_lt hword, hV.new_eq x hword, if_pos hhalf]
  have hup : alignUp x PAGE_SIZE < 2 ^ 39 :=
    (alignUp_le (n := 2 ^ 39 - PAGE_SIZE) (by decide) hbelow (by decide)).trans_lt (by decide)
  have haligned : AddrRange.aligned E.virt.toAddrApi ⟨2 ^ 39, size⟩ = none := by
    simp only [AddrRange.aligned, AddrRange.newAligned, hadd, Option.bind_eq_bind, Option.bind_some,
      hV.diff_eq, if_neg (not_le.2 hup), Option.bind_none]
  rw [hlow, hnew, mapAt, haligned, Option.bind_eq_bind, Option.bind_none]

/-! ### Where the sizes wrap around -/

/-- A block of the order that `get_order` finds. -/
def blockFor (size : ℕ) : ZoneAllocation := ⟨⟨KERNEL_VMA + 0x200000, 2 ^ max 12 (log2Up size)⟩, 0⟩

/-- A zone manager with a block of every order to hand out, and page tables that take every entry. -/
def plenty : MemEnv Unit where
  alloc _ size := some ((), if size = 0 then none else some (blockFor size))
  dealloc _ _ := some ()
  mapInternal _ _ := some ()
  phys := MemoryRegionType.physAddr
  virt := virtAddr

theorem max_log2Up_le (hlt : size < usizeMod) : max 12 (log2Up size) ≤ 63 := by
  refine max_le (by decide) ?_
  rcases Nat.lt_or_ge (2 ^ 63) size with hgt | hle
  · rw [log2Up_of_lt hgt hlt]
    exact Nat.zero_le _
  rcases Nat.lt_or_ge 1 size with h1 | h1
  · have hpow : 2 ^ log2Up size < 2 ^ 64 := (log2Up_bounds h1 hle).2.trans_le (by omega)
    exact Nat.lt_succ_iff.1 ((Nat.pow_lt_pow_iff_right (by decide)).1 hpow)
  · obtain rfl | rfl : size = 0 ∨ size = 1 := by omega
    · decide
    · decide

theorem plenty_sizes : plenty.AllocSizes () := by
  intro size hlt s' mem he
  have hout : (if size = 0 then none else some (blockFor size)) = some mem :=
    (Prod.mk.inj (Option.some.inj he)).2
  split_ifs at hout with hzero
  obtain rfl := Option.some.inj hout
  have hpow : 2 ^ max 12 (log2Up size) ≤ 2 ^ 63 := Nat.pow_le_pow_right (by decide) (max_log2Up_le hlt)
  refine ⟨Nat.pos_of_ne_zero hzero, ⟨fun h => h.trans hpow, fun hle => ?_⟩, hpow, ?_⟩
  · rcases Nat.lt_or_ge 1 size with h1 | h1
    · exact (log2Up_bounds h1 hle).1.trans (Nat.pow_le_pow_right (by decide) (le_max_right _ _))
    · exact h1.trans Nat.one_le_two_pow
  · rw [PAGE_SIZE_eq]
    exact pow_dvd_pow 2 (le_max_left _ _)

theorem plenty_new (flags : PageMappingFlags) (hzero : pageBytes n ≠ 0) : ∃ e,
    VirtLayoutElement.new plenty.toMemApi () (pageBytes n) flags = some ((), some e) ∧
      PAGE_SIZE ∣ e.mapSize ∧ e.mapSize ≠ 0 ∧ e.mapSize < usizeMod := by
  have hlt := pageBytes_lt (n := n)
  have hpow : 2 ^ max 12 (log2Up (pageBytes n)) ≤ 2 ^ 63 :=
    Nat.pow_le_pow_right (by decide) (max_log2Up_le hlt)
  simp only [VirtLayoutElement.new, alignUp_pageBytes, plenty, if_neg hzero, Option.bind_eq_bind,
    Option.bind_some, Option.map_some]
  split_ifs
  · exact ⟨_, rfl, page_dvd_pageBytes, hzero, hlt⟩
  · refine ⟨_, rfl, ?_, (Nat.two_pow_pos _).ne', hpow.trans_lt (by decide)⟩
    rw [PAGE_SIZE_eq]
    exact pow_dvd_pow 2 (le_max_left _ _)
  · exact ⟨_, rfl, page_dvd_pageBytes, hzero, hlt⟩

/-- A number of pages without a size in bytes is not rejected. -/
theorem not_allocKept_of_wraps (hn : 2 ^ 52 ≤ n.val) : ¬ AllocKept options n := by
  intro h
  have hfits : ∀ a3 : Usize, PAGE_SIZE ≤ alignOf a3.val → plenty.virt.new a3.val = some a3.val →
      ∃ err ≠ .ok, VirtMapper.new.reallocAlloc plenty () (pageBytes n) a3.val (reallocFlags options.toNat)
        = some ((), .new, ⟨err, 0, 0⟩) := by
    intro a3 halign hat
    obtain ⟨err, herr, he⟩ := h.fits (by simp only [usizeMod, PAGE_SIZE]; omega) plenty () .new a3 plenty_sizes
    rw [realloc_of_aligned (by decide) halign hat] at he
    exact ⟨err, herr, he⟩
  obtain ⟨err, herr, hmap⟩ := hfits 0 (by decide) (by decide)
  obtain ⟨err', -, hmapAt⟩ := hfits lowAddr (by decide) (by decide)
  by_cases hzero : pageBytes n = 0
  · rw [reallocAlloc, if_pos hzero] at hmap
    simp only [Option.some.injEq, Prod.mk.injEq, SysRet.mk.injEq, true_and, and_true] at hmap
    exact herr hmap.symm
  obtain ⟨e, helem, hdvd, hpos, hlt⟩ := plenty_new (reallocFlags options.toNat) hzero
  have hsize := size_ofVec hlt
  rw [reallocAlloc_of_elem hzero helem] at hmap hmapAt
  by_cases hle : e.mapSize + PAGE_SIZE ≤ MAX_MAP_ADDR
  · -- there is room for what is left of the size
    obtain ⟨⟨s₁, m₁, result⟩, hresult, hret⟩ := Option.map_eq_some_iff.1 hmap
    obtain ⟨r, rfl⟩ := map_new_ok virtAddr_isVirt (by rwa [hsize]) (by rwa [hsize]) hresult
    simp only [SysRet.ofRange, Prod.mk.injEq, SysRet.mk.injEq] at hret
    exact herr hret.2.2.1.symm
  · have hnone := mapAt_low (E := plenty) (s := ()) (m := .new) (l := .ofVec [e] .virtMem) virtAddr_isVirt
      hdvd hlt (not_le.1 hle)
    rw [← hsize] at hnone
    obtain ⟨r, hresult, -⟩ := Option.map_eq_some_iff.1 hmapAt
    cases hnone.symm.trans hresult

/-- The element over the page that is returned for more than the largest block. -/
def pageOfPlenty (flags : PageMappingFlags) : VirtLayoutElement :=
  ⟨.allocedMem (blockFor 0), PAGE_SIZE, .fromMappingFlags flags, flags⟩

theorem plenty_new_page (hgt : 2 ^ 63 < pageBytes n) (hround : Rounds flags) :
    VirtLayoutElement.new plenty.toMemApi () (pageBytes n) flags = some ((), some (pageOfPlenty flags)) := by
  have hzero : pageBytes n ≠ 0 := by omega
  have hblock : blockFor (pageBytes n) = blockFor 0 := by
    rw [blockFor, blockFor, log2Up_of_lt hgt pageBytes_lt]
    rfl
  simp only [VirtLayoutElement.new, alignUp_pageBytes, plenty, if_neg hzero, hround.1, if_true, hround.2,
    hblock, Option.bind_eq_bind, Option.bind_some, Option.map_some]
  rfl

theorem map_pageOfPlenty : ∀ flags : PageMappingFlags,
    (VirtMapper.new.map plenty () (.ofVec [pageOfPlenty flags] .virtMem)).map (fun r => r.2.2)
      = some (.ok ⟨PAGE_SIZE, PAGE_SIZE⟩) := by
  decide +kernel

/-- Memory for more than `2 ^ 51` pages is a region of one page. -/
theorem not_allocKept_of_rounds (hgt : 2 ^ 51 < n.val) (hlt : n.val < 2 ^ 52)
    (hround : Rounds (reallocFlags options.toNat)) : ¬ AllocKept options n := by
  intro h
  have hbytes : 2 ^ 63 < pageBytes n := by
    rw [pageBytes_of_lt hlt]
    simp only [PAGE_SIZE]
    omega
  obtain ⟨⟨s₁, m₁, result⟩, hmap, rfl⟩ := Option.map_eq_some_iff.1 (map_pageOfPlenty (reallocFlags options.toNat))
  have hret : VirtMapper.new.realloc plenty () options 0 n 0 =
      some (s₁, m₁, ⟨.ok, PAGE_SIZE, 1⟩) := by
    rw [realloc_of_aligned (by decide) (by decide) rfl]
    simp only [Fin.val_zero, if_true]
    rw [reallocAlloc_of_elem (by omega) (plenty_new_page hbytes hround)]
    simp only [if_true, hmap]
    rfl
  have hpages : n.val ≤ 1 := (h.pages plenty () .new 0 _ _ _ plenty_sizes hret rfl).1
  omega

/-- **What `realloc` allocates** has the pages that were asked for exactly if their size does not wrap
around, and is at most `2 ^ 63` bytes if the region takes the size of its memory. -/
theorem allocKept_iff : AllocKept options n ↔
    n.val < 2 ^ 52 ∧ (Rounds (reallocFlags options.toNat) → n.val ≤ 2 ^ 51) := by
  refine ⟨fun h => ?_, fun h => allocKept_of_lt h.1 h.2⟩
  have hlt : n.val < 2 ^ 52 := not_le.1 fun hle => not_allocKept_of_wraps hle h
  exact ⟨hlt, fun hround => not_lt.1 fun hgt => not_allocKept_of_rounds hgt hlt hround h⟩

/-! ### Shared memory -/

theorem smemNew_ok {p p' : Process σ} {cid : CapId} (h : p.smemNew E options n = some (p', .ok cid)) :
    ∃ s₁ mem, E.alloc p.mem (pageBytes n) = some (s₁, some mem) ∧
      p'.objects = p.objects ++ [⟨mem, ∅⟩] := by
  obtain ⟨⟨s₁, _ | mem⟩, halloc, h⟩ := Option.bind_eq_some_iff.1 h
  · simp at h
  · obtain ⟨⟨smem, cid'⟩, -, h⟩ := Option.bind_eq_some_iff.1 h
    obtain ⟨rfl, -⟩ := by simpa using h
    exact ⟨s₁, mem, halloc, rfl⟩

/-- **What `smem_new` makes** has the pages that were asked for exactly if they are at most `2 ^ 63`
bytes, or if their size wraps around to 0 and there is no object. -/
theorem smemKept_iff : SmemKept n ↔ n.val ≤ 2 ^ 51 ∨ n.val % 2 ^ 52 = 0 := by
  constructor
  · intro h
    by_contra hcon
    obtain ⟨hgt, hmod⟩ := not_or.1 hcon
    have hzero : pageBytes n ≠ 0 := mt pageBytes_eq_zero.1 hmod
    have hsome : (CapMap.new.insert (Capability.new (⟨0⟩ : Arc SharedMem) (.fromBitsTruncate 0))).isSome := by
      decide +kernel
    obtain ⟨⟨smem, cid⟩, hcap⟩ := Option.isSome_iff_exists.1 hsome
    have halloc : plenty.alloc () (n.val * PAGE_SIZE % usizeMod) = some ((), some (blockFor (pageBytes n))) :=
      congrArg (fun mem => some ((), mem)) (if_neg hzero)
    have hnew : Process.smemNew plenty ⟨.new, [], .new, ()⟩ 0 n =
        some (⟨smem, [⟨blockFor (pageBytes n), ∅⟩], .new, ()⟩, .ok cid) := by
      simp only [Process.smemNew, halloc, Option.bind_eq_bind, Option.bind_some]
      rw [show ([] : List SharedMem).length = 0 from rfl, show (0 : BitVec 32).toNat = 0 from rfl, hcap]
      rfl
    -- the block is smaller than half of the address space
    obtain ⟨object, hobjects, hle⟩ := h plenty _ _ 0 cid plenty_sizes hnew
    obtain rfl : (⟨blockFor (pageBytes n), ∅⟩ : SharedMem) = object := by simpa using hobjects
    have hblock := (plenty_sizes _ pageBytes_lt _ _ halloc).2.2.1
    simp only [PAGE_SIZE] at hle
    omega
  · rintro hn σ E p p' options cid hsizes h
    obtain ⟨s₁, mem, halloc, hobjects⟩ := smemNew_ok h
    obtain ⟨hpos, hroom, -⟩ := hsizes _ pageBytes_lt _ _ halloc
    refine ⟨_, hobjects, ?_⟩
    rcases hn with hle | hmod
    · have hbytes := pageBytes_of_lt (n := n) (by omega)
      rw [← hbytes]
      refine hroom.2 ?_
      rw [hbytes]
      simp only [PAGE_SIZE]
      omega
    · exact absurd (pageBytes_eq_zero.2 hmod) hpos.ne'

/-! ### Resizing -/

/-- A zone manager with nothing left. -/
def spent : MemEnv Unit := { plenty with alloc := fun _ _ => some ((), none) }

/-- A page of memory that is mapped. -/
def onePage : VirtLayout := ⟨[pageOfPlenty (.READ ||| .USER)], [], 1, PAGE_SIZE, .virtMem, le_rfl⟩

/-- An address space with a page. -/
def withPage : VirtMapper := ⟨SortedMap.empty.insert ⟨PAGE_SIZE, PAGE_SIZE⟩ onePage⟩

theorem reallocFree_withPage :
    (withPage.reallocFree spent () PAGE_SIZE).map (fun r => r.2.2) = some ⟨.ok, 0, 0⟩ := by
  decide +kernel

theorem reallocFunc_spent (hgt : PAGE_SIZE < size) :
    reallocFunc spent size flags () onePage = some ((), onePage, .error (.outOfMem "out of memory")) := by
  have hpages : onePage.size = PAGE_SIZE := by decide
  have hflags : onePage.flags = some (.READ ||| .USER) := rfl
  have hnew : ∀ flags' : PageMappingFlags, flags'.exists_ = true →
      VirtLayoutElement.new spent.toMemApi () (size - PAGE_SIZE) flags' = some ((), none) :=
    fun flags' h => by rw [VirtLayoutElement.new, if_pos h]; rfl
  simp only [reallocFunc, hpages, hflags, Option.bind_eq_bind, Option.bind_some, if_pos hgt]
  split_ifs
  · rw [hnew _ (by decide)]
    rfl
  · rw [hnew _ (by decide)]
    rfl

/-- The page is not freed when it is resized to a page or more. -/
theorem reallocResize_withPage (hle : PAGE_SIZE ≤ size) {r : Unit × VirtMapper × SysRet}
    (h : withPage.reallocResize spent () PAGE_SIZE size 0 0 (reallocFlags 0) = some r) :
    r.2.2 ≠ ⟨.ok, 0, 0⟩ := by
  rcases hle.eq_or_lt with rfl | hgt
  · have hret : (withPage.reallocResize spent () PAGE_SIZE PAGE_SIZE 0 0 (reallocFlags 0)).map
        (fun r => r.2.2) = some ⟨.ok, 2 * PAGE_SIZE, 1⟩ := by decide +kernel
    rw [h, Option.map_some, Option.some.injEq] at hret
    rw [hret]
    decide
  · have hmapped : withPage.getMappedRange spent.virt (spent.virt.newTruncate PAGE_SIZE)
        = some (some ⟨PAGE_SIZE, PAGE_SIZE⟩) := by decide +kernel
    have haligned : AddrRange.aligned spent.virt.toAddrApi ⟨PAGE_SIZE, PAGE_SIZE⟩
        = some ⟨PAGE_SIZE, PAGE_SIZE⟩ := by decide +kernel
    have hget : withPage.virtMap.get? ⟨PAGE_SIZE, PAGE_SIZE⟩ = some onePage := by decide +kernel
    have htype : ¬ onePage.allocType ≠ .virtMem := by decide
    simp only [reallocResize, hmapped, remap, haligned, remapTo, hget, if_neg htype, if_true,
      reallocFunc_spent hgt, Option.bind_eq_bind, Option.bind_some, Option.some.injEq] at h
    obtain rfl := h
    intro hret
    cases congrArg SysRet.err hret

/-- **A number of pages that is not zero** resizes a region exactly if its size does not wrap around to 0. -/
theorem resizeKept_iff : ResizeKept n ↔ n.val = 0 ∨ n.val % 2 ^ 52 ≠ 0 := by
  constructor
  · intro h
    by_contra hcon
    obtain ⟨hn, hmod⟩ := not_or.1 hcon
    have hzero : pageBytes n = 0 := pageBytes_eq_zero.2 (not_ne_iff.1 hmod)
    obtain ⟨size, hle, he⟩ := h hn spent () withPage 0 ⟨PAGE_SIZE, by decide⟩ 0 (by decide) (by decide)
      (by decide) 0 rfl
    rw [realloc_of_aligned (by decide) (by decide) rfl] at he
    obtain ⟨r, hr, hret⟩ := Option.map_eq_some_iff.1 reallocFree_withPage
    simp only [hzero, if_true] at he
    rw [if_neg (by decide)] at he
    exact reallocResize_withPage hle (he.symm.trans hr) hret
  · intro hn h0 σ E s m options a1 a3 ha1 h1 h3 atVaddr hat
    have hzero : pageBytes n ≠ 0 := mt pageBytes_eq_zero.1 (hn.resolve_left h0)
    refine ⟨pageBytes n, Nat.le_of_dvd (Nat.pos_of_ne_zero hzero) page_dvd_pageBytes, ?_⟩
    rw [realloc_of_aligned h1 h3 hat]
    simp only [if_neg ha1, if_neg hzero]

/-! ### All three -/

/-- **When a number of pages is what the calls say it is**: each call has its own bound, and below
`2 ^ 51` pages nothing goes wrong. -/
theorem pages_kept_iff (options : BitVec 32) (n : Usize) :
    (AllocKept options n ↔ n.val < 2 ^ 52 ∧ (Rounds (reallocFlags options.toNat) → n.val ≤ 2 ^ 51)) ∧
    (SmemKept n ↔ n.val ≤ 2 ^ 51 ∨ n.val % 2 ^ 52 = 0) ∧
    (ResizeKept n ↔ n.val = 0 ∨ n.val % 2 ^ 52 ≠ 0) ∧
    (AllocKept options n ∧ SmemKept n ∧ ResizeKept n ↔ n.val ≤ 2 ^ 51) := by
  refine ⟨allocKept_iff, smemKept_iff, resizeKept_iff, ?_⟩
  rw [allocKept_iff, smemKept_iff, resizeKept_iff]
  constructor
  · rintro ⟨⟨hlt, -⟩, hsmem, hresize⟩
    omega
  · intro hle
    exact ⟨⟨by omega, fun _ => hle⟩, Or.inl hle, by omega⟩

/-- `2 ^ 52` pages are granted, with a region of no pages. -/
theorem not_pages_kept :
    ¬ ∀ (options : BitVec 32) (n : Usize), AllocKept options n ∧ SmemKept n ∧ ResizeKept n := by
  intro h
  have hret : (VirtMapper.new.realloc plenty () 0 0 ⟨2 ^ 52, by decide⟩ 0).map (fun r => r.2.2)
      = some ⟨.ok, 0, 0⟩ := by decide +kernel
  obtain ⟨err, herr, he⟩ := (h 0 ⟨2 ^ 52, by decide⟩).1.fits (by decide) plenty () .new 0 plenty_sizes
  rw [he, Option.map_some] at hret
  exact herr (congrArg SysRet.err (Option.some.inj hret))

end VirtMapper
end AuroraOs
