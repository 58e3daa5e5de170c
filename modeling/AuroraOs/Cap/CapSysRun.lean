import AuroraOs.Cap.CapSys

/-!
# The answers of the system calls on capabilities

When `cap_destroy`, `cap_clone`, `cap_map` and `cap_unmap` return, and that they change nothing where there
is no capability with the id: first for the objects of shared memory, then for their process, and last
along every run.
-/

namespace AuroraOs

open Machine

/-! ### Shared memory -/

/-- The block lies in the kernel's map of physical memory. -/
def InMap (mem : Allocation) : Prop := KERNEL_VMA ≤ mem.addr ∧ 0 < mem.size ∧ mem.addr + mem.size ≤ 2 ^ 64

/-- `aligned` of whole pages of physical memory. -/
theorem aligned_of_page {P : AddrApi} (hP : P.IsPhys) {b n : ℕ} (hb : PAGE_SIZE ∣ b) (hn : PAGE_SIZE ∣ n)
    (hlt : b + n < 2 ^ 52) : AddrRange.aligned P ⟨b, n⟩ = some ⟨b, n⟩ := by
  have hval : usizeMod = 2 ^ 64 := rfl
  have hup : alignUp (b + n) PAGE_SIZE = b + n := alignUp_of_page (hb.add hn) (n := 0) (by omega)
  have hupn : alignUp n PAGE_SIZE = n := alignUp_of_page hn (n := 0) (by omega)
  have hdown : alignDown b PAGE_SIZE = b := alignDown_of_dvd (by omega) hb
  simp only [AddrRange.aligned, AddrRange.newAligned, AddrRange.add_of_lt hP hlt, Option.bind_eq_bind,
    Option.bind_some, hup, hP.diff_eq, if_pos (Nat.le_add_right b n), Nat.add_sub_cancel_left, hupn, hdown]

/-- The pages of a block. -/
theorem fromAllocation_inMap {P : AddrApi} (hP : P.IsPhys) {mem : Allocation} (h : InMap mem) :
    ∃ b n, AddrRange.fromAllocation P mem = some ⟨b, n⟩ ∧ PAGE_SIZE ∣ b ∧ PAGE_SIZE ∣ n ∧ 0 < n ∧
      n ≤ 2 ^ 40 ∧ b + n < 2 ^ 52 := by
  obtain ⟨hlo, hpos, hhi⟩ := h
  have hvma : KERNEL_VMA = 2 ^ 64 - 2 ^ 39 := by decide
  have hvirt : virtToPhys P mem.addr = some (mem.addr - KERNEL_VMA) := by
    rw [virtToPhys, if_neg (by omega), hP.new_eq, if_pos (by omega)]
  refine ⟨_, _, by rw [AddrRange.fromAllocation, hvirt]; rfl, dvd_alignDown, dvd_alignUp, ?_⟩
  have hn : alignUp mem.size PAGE_SIZE ≤ 2 ^ 39 := alignUp_le (by decide) (by omega) (by decide)
  have hsize : mem.size ≤ alignUp mem.size PAGE_SIZE :=
    le_alignUp (by rw [PAGE_SIZE_eq]; simp only [usizeMod]; omega)
  have hb : alignDown (mem.addr - KERNEL_VMA) PAGE_SIZE ≤ mem.addr - KERNEL_VMA := Nat.and_le_left
  omega

/-- The layout of shared memory has one element. -/
theorem virtLayout_given {P : AddrApi} (hP : P.IsPhys) {object : SharedMem} (h : InMap object.mem.mem)
    (flags : CapFlags) : ∃ e, Map.virtLayout P object flags = some (.ofVec [e] .shared) ∧ VirtMapper.Given P e := by
  obtain ⟨b, n, hfrom, hb, hn, hpos, hle, hlt⟩ := fromAllocation_inMap hP h
  have haligned := aligned_of_page hP hb hn hlt
  obtain ⟨e, he, hdata, hsize⟩ : ∃ e, VirtLayoutElement.fromRange P ⟨b, n⟩ (.fromCapFlags flags) = some e ∧
      e.physData = .mem ⟨b, n⟩ ∧ e.size = n :=
    ⟨_, by rw [VirtLayoutElement.fromRange, haligned]; rfl, rfl, rfl⟩
  refine ⟨e, ?_, VirtLayoutElement.layable_fromRange he, ⟨_, hdata⟩, by omega, by omega, ?_⟩
  · simp only [Map.virtLayout, hfrom, he, Option.bind_eq_bind, Option.bind_some]
  · intro r hr
    unfold VirtLayoutElement.asPhysZone at hr
    rw [hdata] at hr
    split_ifs at hr
    · simp at hr
    obtain rfl := Option.some.inj (Option.some.inj hr)
    have hdown : alignDown b PAGE_SIZE ≤ b := Nat.and_le_left
    simp only [AddrRange.new]
    omega

/-- What `VirtAddr::new` makes of the address of a page. -/
theorem new_page {V : VirtAddrApi} (hV : V.IsVirt) {a b : ℕ} (hlt : a < usizeMod) (ha : pageAligned a = true)
    (hb : V.new a = some b) : PAGE_SIZE ∣ b ∧ Canonical b := by
  have hd : PAGE_SIZE ∣ a := (bytes_le_alignOf_iff (k := .k4) hlt).1 (of_decide_eq_true ha)
  rw [hV.new_eq a hlt] at hb
  have hoff : PAGE_SIZE ∣ 2 ^ 64 - 2 ^ 48 := by decide
  simp only [usizeMod] at hlt
  split_ifs at hb
  all_goals
    obtain rfl := Option.some.inj hb
    refine ⟨?_, by unfold Canonical; omega⟩
  exacts [hd, hd.add hoff, hd]

namespace Map

variable {σ : Type} {E : MemEnv σ} {s : σ} {m : VirtMapper} {object : SharedMem} {id : CapId} {a2 : Usize}

/-- What a call that maps shared memory is to do: it returns if there is room, and at most adds a region. -/
def MapsInto (E : MemEnv σ) (m : VirtMapper) (object : SharedMem) (room : Prop)
    (c : Option (σ × VirtMapper × SharedMem × Except SysErr VirtRange)) : Prop :=
  (c.isSome ↔ room) ∧ ∀ s' m' object' res, c = some (s', m', object', res) →
    object'.mem = object.mem ∧ VirtMapper.GivenAdded E.phys m m'

theorem mapsInto_error {err : SysErr} {room : Prop} (h : room) :
    MapsInto E m object room (some (s, m, object, .error err)) := by
  refine ⟨by simp [h], ?_⟩
  rintro s' m' object' res ⟨⟩
  exact ⟨rfl, Or.inl rfl⟩

theorem mapsInto_record {c : Option (σ × VirtMapper × Except MemErr VirtRange)} {room : Prop}
    (h : (c.isSome ↔ room) ∧ ∀ s' m' res, c = some (s', m', res) → VirtMapper.GivenAdded E.phys m m') :
    MapsInto E m object room (c.map (record object id)) := by
  refine ⟨by rw [Option.isSome_map, h.1], ?_⟩
  intro s' m' object' res he
  obtain ⟨⟨s₁, m₁, result⟩, rfl, he⟩ := Option.map_eq_some_iff.1 he
  have hm₁ := h.2 _ _ _ rfl
  cases result with
  | error err =>
    obtain ⟨-, rfl, rfl, -⟩ := by simpa [record] using he
    exact ⟨rfl, hm₁⟩
  | ok r =>
    obtain ⟨-, rfl, rfl, -⟩ := by simpa [record] using he
    exact ⟨rfl, hm₁⟩

/-- **`Map::map` of shared memory** returns exactly if there is room. -/
theorem map_mapsInto (hm : m.Halves) (hP : E.phys.IsPhys) (hV : E.virt.IsVirt) (h : InMap object.mem.mem)
    (hwithin : a2.val = 0 → object.capData[id]? = none → ∀ l ∈ virtLayout E.phys object (CapId.flags id),
      m.GapWithin l.size) :
    MapsInto E m object
      (object.capData[id]? = none → ∀ l ∈ virtLayout E.phys object (CapId.flags id),
        if a2.val = 0 then ∀ r, m.findRange E.virt l.size = some (some r) → VirtMapper.Takes E s l r
        else pageAligned a2.val → ∀ vaddr ∈ E.virt.new a2.val, VirtMapper.FitsAt E s m l vaddr)
      (map E s m object id (if a2.val = 0 then none else some a2.val)) := by
  obtain ⟨e, hl, he⟩ := virtLayout_given hP h (CapId.flags id)
  cases hdata : object.capData[id]? with
  | some r =>
    have hdata' : capMapData object id = some r := hdata
    rw [map, hdata']
    exact mapsInto_error (by simp)
  | none =>
    have hdata' : capMapData object id = none := hdata
    have hsize := @VirtMapper.size_given _ E e .shared he
    simp only [map, hdata', hl, Option.bind_eq_bind, Option.bind_some, Option.mem_some, forall_eq', forall_const]
    by_cases hzero : a2.val = 0
    · have hgap := hwithin hzero hdata _ hl
      rw [hsize] at hgap
      simp only [if_pos hzero, hsize]
      exact mapsInto_record (hm.map_given hV he hgap)
    simp only [if_neg hzero, he.dealloc, Option.bind_some]
    by_cases hpage : pageAligned a2.val = true
    · cases hnew : E.virt.new a2.val with
      | none =>
        simp only [hpage, Bool.not_true, Bool.false_eq_true, if_false]
        exact mapsInto_error (by simp)
      | some vaddr =>
        obtain ⟨hd, hcanonical⟩ := new_page hV a2.isLt hpage hnew
        simp only [hpage, Bool.not_true, Bool.false_eq_true, if_false, forall_const, Option.mem_some, forall_eq',
          hsize]
        exact mapsInto_record (hm.mapAt_given hV he hcanonical hd)
    · simp only [hpage, Bool.not_false, if_true, Bool.false_eq_true, false_imp_iff]
      exact mapsInto_error trivial

/-- **`Map::unmap` of shared memory** returns exactly if the page tables give it back. -/
theorem unmap_room (hV : E.virt.IsVirt) (hregion : ∀ r, object.capData[id]? = some r →
      ∃ l, m.virtMap.get? r = some l ∧ l.atype = .shared ∧ VirtMapper.GivenRegion E.phys r l) :
    (unmap E s m object id).isSome ↔
      ∀ r ∈ object.capData[id]?, ∀ l ∈ m.virtMap.get? r, VirtMapper.TakesBack E s l r := by
  cases hdata : object.capData[id]? with
  | none =>
    have hdata' : capMapData object id = none := hdata
    rw [unmap, hdata']
    simp
  | some r =>
    have hdata' : capMapData object id = some r := hdata
    obtain ⟨l, hl, hty, hgiven⟩ := hregion r hdata
    obtain ⟨hiff, hres⟩ := @VirtMapper.unmap_given _ E s m l r _ hl hgiven hV hty
    simp only [Option.mem_some, forall_eq', hl, ← hiff]
    rw [unmap, hdata']
    have htype : allocType object = .shared := rfl
    simp only [htype]
    cases hunmap : m.unmap E s r .shared with
    | none => simp
    | some c =>
      obtain ⟨s₁, m₁, result⟩ := c
      obtain ⟨l', rfl, hdrop⟩ := hres _ _ _ hunmap
      simp [hdrop]

/-- The memory of an object does not change. -/
theorem unmap_mem {s' : σ} {m' : VirtMapper} {object' : SharedMem} {res : Except SysErr Unit}
    (he : unmap E s m object id = some (s', m', object', res)) : object'.mem = object.mem := by
  unfold unmap at he
  split at he
  · obtain ⟨⟨s₁, m₁, result⟩, -, he⟩ := Option.bind_eq_some_iff.1 he
    cases result with
    | ok l =>
      obtain ⟨_, -, he⟩ := Option.bind_eq_some_iff.1 he
      obtain ⟨-, -, rfl, -⟩ := by simpa using he
      rfl
    | error err => simp at he
  · obtain ⟨-, -, rfl, -⟩ := by simpa using he
    rfl

end Map

namespace Process

variable {σ : Type} {E : MemEnv σ} {p p' : Process σ}

/-- The invariant of a process, as far as shared memory goes: that of its two tables, for some history of
it; the regions lie in one half each; and the regions of shared memory can be unmapped. -/
structure Inv (E : MemEnv σ) (p : Process σ) : Prop where
  tables : ∃ issued mapped, SmemWorld.Inv ⟨p, issued, mapped⟩
  halves : p.addrSpace.Halves
  objects : ∀ object ∈ p.objects, InMap object.mem.mem
  regions : ∀ r l, (r, l) ∈ p.addrSpace.virtMap.entries → l.atype = .shared → VirtMapper.GivenRegion E.phys r l

/-- The tables after a call. -/
theorem tables_of_step (op : Syscall) {issued : List (CapId × Arc SharedMem)} {mapped : List (CapId × VirtRange)}
    (h : SmemWorld.Inv ⟨p, issued, mapped⟩) (hV : E.virt.IsVirt) (hsafe : SmemWorld.Safe E ⟨p, issued, mapped⟩ op)
    (he : (SmemWorld.step E ⟨p, issued, mapped⟩ op).map SmemWorld.proc = some p') :
    ∃ issued mapped, SmemWorld.Inv ⟨p', issued, mapped⟩ := by
  obtain ⟨w', hstep, rfl⟩ := Option.map_eq_some_iff.1 he
  exact ⟨w'.issued, w'.mapped, SmemWorld.inv_step _ op w' hV h hsafe hstep⟩

theorem Inv.numbered (h : Inv E p) : p.smem.Numbered := by
  obtain ⟨issued, mapped, hw⟩ := h.tables
  exact ⟨hw.nextId_le, fun id cap hcap => hw.id_eq (hw.cap_issued hcap)⟩

/-- A call that leaves the regions as they are. -/
theorem Inv.of_regions (h : Inv E p) (htables : ∃ issued mapped, SmemWorld.Inv ⟨p', issued, mapped⟩)
    (haddr : p'.addrSpace = p.addrSpace) (hobjects : ∀ object ∈ p'.objects, InMap object.mem.mem) : Inv E p' where
  tables := htables
  halves := haddr ▸ h.halves
  objects := hobjects
  regions := haddr ▸ h.regions

theorem Inv.smemNew {options : BitVec 32} {a1 : Usize} {res : Except SysErr CapId} (h : Inv E p)
    (hV : E.virt.IsVirt) (hA : ∀ s size s' a, E.alloc s size = some (s', some a) → InMap a.mem)
    (he : p.smemNew E options a1 = some (p', res)) : Inv E p' := by
  obtain ⟨issued, mapped, hw⟩ := h.tables
  have htables : ∃ issued mapped, SmemWorld.Inv ⟨p', issued, mapped⟩ := by
    refine tables_of_step (.smemNew options a1) hw hV trivial ?_
    cases res <;> simp [SmemWorld.step, he, SmemWorld.give]
  obtain ⟨⟨mem, _ | allocation⟩, halloc, he⟩ := Option.bind_eq_some_iff.1 he
  · obtain ⟨rfl, -⟩ := by simpa using he
    exact h.of_regions htables rfl h.objects
  · obtain ⟨⟨smem, cid⟩, -, he⟩ := Option.bind_eq_some_iff.1 he
    obtain ⟨rfl, -⟩ := by simpa using he
    refine h.of_regions htables rfl fun object hobject => ?_
    rcases List.mem_append.1 hobject with hobject | hobject
    · exact h.objects object hobject
    · obtain rfl := List.mem_singleton.1 hobject
      exact hA _ _ _ _ halloc

theorem Inv.remove {a1 : Usize} (h : Inv E p) (hV : E.virt.IsVirt)
    (hty : CapId.capObjectType a1.val = some .sMem) : Inv E { p with smem := (p.smem.remove a1.val).1 } := by
  obtain ⟨issued, mapped, hw⟩ := h.tables
  refine h.of_regions (tables_of_step (.capDestroy a1) hw hV trivial ?_) rfl h.objects
  simp [SmemWorld.step, Process.capDestroy, onCapmap, hty, CapMap.destroy, CapMap.remove]

theorem Inv.cloneCap {a1 : Usize} {options : BitVec 32} {smem : CapMap (Arc SharedMem)} {out : Option CapId}
    (h : Inv E p) (hV : E.virt.IsVirt) (hty : CapId.capObjectType a1.val = some .sMem)
    (he : p.smem.cloneCap a1.val (.fromBitsTruncate options.toNat) = some (smem, out)) :
    Inv E { p with smem := smem } := by
  obtain ⟨issued, mapped, hw⟩ := h.tables
  refine h.of_regions (tables_of_step (.capClone options a1) hw hV trivial ?_) rfl h.objects
  cases out <;> simp [SmemWorld.step, Process.capClone, onCapmap, hty, he, SmemWorld.give]

theorem mem_objectOf {id : CapId} {cap : Capability (Arc SharedMem)} {object : SharedMem}
    (hcap : p.smem.data[id]? = some cap) (hobject : p.objects[cap.object.ptr]? = some object) :
    object ∈ p.objectOf id := by
  rw [objectOf, hcap]
  exact hobject

theorem Inv.objects_set {i : ℕ} {object : SharedMem} (h : Inv E p) (hobject : InMap object.mem.mem) :
    ∀ object' ∈ p.objects.set i object, InMap object'.mem.mem := by
  intro object' hmem
  rcases List.mem_or_eq_of_mem_set hmem with hmem | rfl
  · exact h.objects object' hmem
  · exact hobject

theorem Inv.capMap {a1 a2 : Usize} {res : Except SysErr VirtRange} (h : Inv E p) (hP : E.phys.IsPhys)
    (hV : E.virt.IsVirt) (hwithin : a2.val = 0 → ∀ object ∈ p.objectOf a1.val, object.capData[a1.val]? = none →
      ∀ l ∈ Map.virtLayout E.phys object (CapId.flags a1.val), p.addrSpace.GapWithin l.size)
    (he : p.capMap E a1 a2 = some (p', res)) : Inv E p' := by
  obtain ⟨issued, mapped, hw⟩ := h.tables
  have htables : ∃ issued mapped, SmemWorld.Inv ⟨p', issued, mapped⟩ := by
    refine tables_of_step (.capMap a1 a2) hw hV ?_ ?_
    · intro cap hcap object hobject hnone hdata l hl
      have hzero : a2.val = 0 := by
        by_contra hne
        rw [if_neg hne] at hnone
        cases hnone
      exact (hwithin hzero object (mem_objectOf hcap hobject) hdata l hl).canonical
    · cases res <;> simp [SmemWorld.step, he]
  rcases onMappable_spec he with ⟨err, rfl, rfl⟩ | ⟨cap, object, object', m', mem, hcap, hobject, hmap, rfl⟩
  · exact h
  have hin := h.objects object (List.mem_of_getElem? hobject)
  obtain ⟨hmem, hadded⟩ := (Map.map_mapsInto h.halves hP hV hin
    fun hzero => hwithin hzero object (mem_objectOf hcap hobject)).2 _ _ _ _ hmap
  have hplaced : m'.WellPlaced := htables.choose_spec.choose_spec.placed
  refine ⟨htables, hadded.halves h.halves hplaced, ?_, hadded.regions h.regions⟩
  exact h.objects_set (hmem ▸ hin)

theorem Inv.capUnmap {a1 : Usize} {res : Except SysErr Unit} (h : Inv E p) (hV : E.virt.IsVirt)
    (he : p.capUnmap E a1 = some (p', res)) : Inv E p' := by
  obtain ⟨issued, mapped, hw⟩ := h.tables
  have htables : ∃ issued mapped, SmemWorld.Inv ⟨p', issued, mapped⟩ := by
    refine tables_of_step (.capUnmap a1) hw hV trivial ?_
    cases res <;> simp [SmemWorld.step, he]
  rcases onMappable_spec he with ⟨err, rfl, rfl⟩ | ⟨cap, object, object', m', mem, hcap, hobject, hunmap, rfl⟩
  · exact h
  have hin := h.objects object (List.mem_of_getElem? hobject)
  have hobjects := h.objects_set (i := cap.object.ptr) ((Map.unmap_mem hunmap) ▸ hin)
  rcases Map.unmap_spec hunmap with ⟨err, rfl, rfl, rfl⟩ | ⟨r, rfl, -, -, hc⟩
  · exact ⟨htables, h.halves, hobjects, h.regions⟩
  · refine ⟨htables, ⟨hc.wellPlaced h.halves.placed, fun k hk => ?_⟩, hobjects, fun k l hk hty => ?_⟩
    · rcases hc.mem_keys.1 hk with ⟨l, hl⟩ | ⟨hk, -⟩
      · cases hl
      · exact h.halves.within k hk
    · rcases (hc.mem_iff _).1 hk with hl | ⟨hk, -⟩
      · cases hl
      · exact h.regions k l hk hty

theorem Inv.realloc {options : BitVec 32} {a1 a2 a3 : Usize} {ret : SysRet} (h : Inv E p) (hV : E.virt.IsVirt)
    (hwithin : p.addrSpace.ReallocWithin E ⟨p.mem, options, a1, a2, a3⟩)
    (he : p.realloc E options a1 a2 a3 = some (p', ret)) : Inv E p' := by
  obtain ⟨issued, mapped, hw⟩ := h.tables
  have htables : ∃ issued mapped, SmemWorld.Inv ⟨p', issued, mapped⟩ := by
    refine tables_of_step (.realloc options a1 a2 a3) hw hV hwithin.safe ?_
    simp [SmemWorld.step, he]
  obtain ⟨⟨mem, m', ret'⟩, hrealloc, he⟩ := Option.bind_eq_some_iff.1 he
  obtain ⟨rfl, -⟩ := by simpa using he
  have hstep : VirtMapper.reallocStep E p.addrSpace ⟨p.mem, options, a1, a2, a3⟩ = some m' := by
    rw [VirtMapper.reallocStep, hrealloc]
    rfl
  refine ⟨htables, h.halves.step hV hwithin hstep, h.objects, fun r l hr hty => ?_⟩
  have htouch := VirtMapper.realloc_spec h.halves.placed hV hwithin.safe hrealloc
  exact h.regions r l ((htouch.mem_iff (by rw [hty]; decide)).1 hr) hty

/-- The type field decides whether a call on a mappable capability returns, and then the object does. -/
theorem Inv.onMappable_isSome {α : Type} {id : CapId}
    {f : σ → VirtMapper → SharedMem → Option (σ × VirtMapper × SharedMem × Except SysErr α)} (h : Inv E p) :
    (p.onMappable id f).isSome ↔ getBits id 2 5 < 7 ∧ getBits id 2 5 ≠ 4 ∧
      ∀ object ∈ p.objectOf id, (f p.mem p.addrSpace object).isSome := by
  have habsent : CapId.capObjectType id ≠ some .sMem → p.objectOf id = none := by
    intro hty
    rw [objectOf, h.numbered.getElem?_eq_none hty]
    rfl
  rw [onMappable]
  cases hty : CapId.capObjectType id with
  | none =>
    have hbits := CapId.capObjectType_eq_none.1 hty
    refine iff_of_false (by simp) fun hlt => ?_
    omega
  | some typ =>
    have hbits := CapId.capObjectType_eq_some.1 hty
    rw [hbits]
    cases typ with
    | sMem =>
      simp only [CapObjectType.asUsize, onObject, objectOf]
      cases hcap : p.smem.data[id]? with
      | none => simp
      | some cap =>
        obtain ⟨issued, mapped, hw⟩ := h.tables
        obtain ⟨object, hobject⟩ : ∃ object, p.objects[cap.object.ptr]? = some object :=
          ⟨_, List.getElem?_eq_getElem (hw.object_lt (hw.cap_issued hcap))⟩
        simp only [hobject, Option.bind_eq_bind, Option.bind_some, Option.mem_some, forall_eq']
        cases f p.mem p.addrSpace object <;> simp
    | mmio => simp [CapObjectType.asUsize]
    | _ => simp [CapObjectType.asUsize, habsent (by simp [hty])]

/-- A call on a mappable capability that is not there. -/
theorem onMappable_of_absent {α : Type} {id : CapId} {res : Except SysErr α}
    {f : σ → VirtMapper → SharedMem → Option (σ × VirtMapper × SharedMem × Except SysErr α)}
    (habsent : p.smem.data[id]? = none) (he : p.onMappable id f = some (p', res)) :
    p' = p ∧ res = .error .invlId := by
  rw [onMappable] at he
  cases hty : CapId.capObjectType id with
  | none => simp [hty] at he
  | some typ =>
    cases typ <;> simp [hty, onObject, habsent] at he <;> exact ⟨he.1.symm, he.2.symm⟩

theorem mem_of_objectOf {id : CapId} {object : SharedMem} (h : object ∈ p.objectOf id) : object ∈ p.objects := by
  obtain ⟨cap, -, hobject⟩ := Option.bind_eq_some_iff.1 h
  exact List.mem_of_getElem? hobject

/-- **`cap_map` returns** exactly if the type field is right and there is room. -/
theorem Inv.capMap_isSome {a1 a2 : Usize} (h : Inv E p) (hP : E.phys.IsPhys) (hV : E.virt.IsVirt)
    (hwithin : a2.val = 0 → ∀ object ∈ p.objectOf a1.val, object.capData[a1.val]? = none →
      ∀ l ∈ Map.virtLayout E.phys object (CapId.flags a1.val), p.addrSpace.GapWithin l.size) :
    (p.capMap E a1 a2).isSome ↔ getBits a1.val 2 5 < 7 ∧ getBits a1.val 2 5 ≠ 4 ∧ p.MapRoom E a1 a2 := by
  rw [Process.capMap, h.onMappable_isSome]
  refine and_congr_right fun _ => and_congr_right fun _ => forall₂_congr fun object hobject => ?_
  exact (Map.map_mapsInto h.halves hP hV (h.objects object (mem_of_objectOf hobject))
    fun hzero => hwithin hzero object hobject).1

/-- **`cap_unmap` returns** exactly if the type field is right and there is room. -/
theorem Inv.capUnmap_isSome {a1 : Usize} (h : Inv E p) (hV : E.virt.IsVirt) :
    (p.capUnmap E a1).isSome ↔ getBits a1.val 2 5 < 7 ∧ getBits a1.val 2 5 ≠ 4 ∧ p.UnmapRoom E a1 := by
  rw [Process.capUnmap, h.onMappable_isSome]
  refine and_congr_right fun _ => and_congr_right fun _ => forall₂_congr fun object hobject => ?_
  refine Map.unmap_room hV fun r hr => ?_
  obtain ⟨issued, mapped, hw⟩ := h.tables
  obtain ⟨cap, hcap, hobject⟩ := Option.bind_eq_some_iff.1 hobject
  -- a range that is recorded is that of a region
  obtain ⟨l, hl, hty⟩ := hw.region_iff.2 ⟨_, ((hw.capData_iff hobject).1 hr).1⟩
  exact ⟨l, SortedMap.get?_eq_some.2 hl, hty, h.regions r l hl hty⟩

end Process

/-! ### The invariant of a process -/

namespace CapProcess

variable {σ : Type} {E : MemEnv σ} {p p' : CapProcess σ} {id : CapId} {typ : CapObjectType} {a1 a2 : Usize}
  {options : BitVec 32}

/-- The invariant. -/
structure Inv (E : MemEnv σ) (p : CapProcess σ) : Prop where
  proc : p.proc.Inv E
  channels : p.channels.Numbered
  keys : p.keys.Numbered
  futexes : p.futexes.Inv

/-- What is not there is in none of the maps. -/
theorem not_hasCap : ¬ p.HasCap id ↔ p.channels.data[id]? = none ∧ p.keys.data[id]? = none ∧
    p.proc.smem.data[id]? = none ∧ ∀ map ∈ p.futexes.maps[p.pid]?, map.data[id]? = none := by
  simp only [HasCap, not_or, not_exists, not_and, Option.not_isSome_iff_eq_none]

theorem Unchanged.refl (p : CapProcess σ) : Unchanged p p := ⟨.refl _, .refl _, .refl _, rfl, rfl, rfl, rfl⟩

/-- What the operations of the map that an id is looked up in are to do: `destroy` returns, and `clone_cap`
if there is room; and where there is no capability with the id they change nothing. -/
structure Sound (E : MemEnv σ) (p : CapProcess σ) (id : CapId) (flags : CapFlags) (map : CapSys (CapProcess σ)) :
    Prop where
  destroys : (map.destroy p id).isSome
  destroyed : ∀ p' found, map.destroy p id = some (p', found) →
    p'.Inv E ∧ (¬ p.HasCap id → found = false ∧ Unchanged p p')
  clones : (map.cloneCap p id flags).isSome ↔ p.CloneRoom id
  cloned : ∀ p' out, map.cloneCap p id flags = some (p', out) →
    p'.Inv E ∧ (¬ p.HasCap id → out = none ∧ Unchanged p p')

/-- `CapSys` for `CapMap`. -/
theorem sound_ofMap {T : Type} [CapObject T] {get : CapProcess σ → CapMap T}
    {set : CapProcess σ → CapMap T → CapProcess σ} {flags : CapFlags}
    (hremove : (set p ((get p).remove id).1).Inv E)
    (hclone : ∀ map out, (get p).cloneCap id flags = some (map, out) → (set p map).Inv E)
    (habsent : ¬ p.HasCap id → (get p).data[id]? = none)
    (hsame : ∀ map, (get p).Same map → Unchanged p (set p map))
    (hroom : p.CloneRoom id ↔ (get p).Room id) : Sound E p id flags (.ofMap get set) where
  destroys := rfl
  destroyed := by
    rintro p' found ⟨⟩
    refine ⟨hremove, fun hno => ?_⟩
    have hnone := habsent hno
    exact ⟨by simp [hnone], hsame _ (CapMap.remove_same hnone)⟩
  clones := by
    rw [hroom, ← CapMap.cloneCap_isSome flags, CapSys.ofMap]
    cases hclone : (get p).cloneCap id flags <;> simp [hclone]
  cloned := by
    intro p' out he
    obtain ⟨⟨map, out'⟩, hmap, he⟩ := Option.bind_eq_some_iff.1 he
    obtain ⟨rfl, rfl⟩ := by simpa using he
    refine ⟨hclone map out' hmap, fun hno => ?_⟩
    rw [CapMap.cloneCap_of_absent (habsent hno)] at hmap
    obtain ⟨rfl, rfl⟩ := by simpa using hmap
    exact ⟨rfl, hsame _ (.refl _)⟩

/-- A capability is in the map of the type that its id tells. -/
theorem Inv.absent (h : p.Inv E) (hty : CapId.capObjectType id = some typ) :
    (typ ≠ .channel → p.channels.data[id]? = none) ∧ (typ ≠ .key → p.keys.data[id]? = none) ∧
      (typ ≠ .sMem → p.proc.smem.data[id]? = none) ∧
      (typ ≠ .futex → ∀ map ∈ p.futexes.maps[p.pid]?, map.data[id]? = none) := by
  have hne : ∀ t, typ ≠ t → CapId.capObjectType id ≠ some t := by
    intro t hne he
    exact hne (Option.some.inj (hty.symm.trans he))
  exact ⟨fun ht => h.channels.getElem?_eq_none (hne _ ht), fun ht => h.keys.getElem?_eq_none (hne _ ht),
    fun ht => h.proc.numbered.getElem?_eq_none (hne _ ht), fun ht map hmap =>
      (h.futexes.numbered map (List.mem_of_getElem? hmap)).getElem?_eq_none (hne _ ht)⟩

/-- Where the other maps do not have the id, they have room. -/
theorem cloneRoom_iff (hfutexes : ∀ map ∈ p.futexes.maps[p.pid]?, map.data[id]? = none) :
    p.CloneRoom id ↔ p.channels.Room id ∧ p.keys.Room id ∧ p.proc.smem.Room id := by
  refine ⟨fun h => ⟨h.1, h.2.1, h.2.2.1⟩, fun h => ⟨h.1, h.2.1, h.2.2, fun map hmap cap hcap => ?_⟩⟩
  rw [hfutexes map hmap] at hcap
  cases hcap

/-- **The map that an id is looked up in** does what it is to do. -/
theorem Inv.sound (h : p.Inv E) (options : BitVec 32) (hV : E.virt.IsVirt) (hty : CapId.capObjectType a1.val = some typ)
    {map : CapSys (CapProcess σ)} (hmap : getCapmap typ = some map) :
    Sound E p a1.val (.fromBitsTruncate options.toNat) map := by
  obtain ⟨hchannels, hkeys, hsmem, hfutexes⟩ := h.absent hty
  cases typ with
  | channel =>
    obtain rfl := Option.some.inj hmap
    have hkeys := CapMap.room_of_absent (hkeys (by decide))
    have hsmem := CapMap.room_of_absent (hsmem (by decide))
    refine sound_ofMap ⟨h.proc, h.channels.remove, h.keys, h.futexes⟩ ?_ ?_ ?_ ?_
    · exact fun map out he => ⟨h.proc, h.channels.cloneCap he, h.keys, h.futexes⟩
    · exact fun hno => (not_hasCap.1 hno).1
    · exact fun map hsame => ⟨hsame, .refl _, .refl _, rfl, rfl, rfl, rfl⟩
    · rw [cloneRoom_iff (hfutexes (by decide))]
      exact ⟨fun hr => hr.1, fun hr => ⟨hr, hkeys, hsmem⟩⟩
  | key =>
    obtain rfl := Option.some.inj hmap
    have hchannels := CapMap.room_of_absent (hchannels (by decide))
    have hsmem := CapMap.room_of_absent (hsmem (by decide))
    refine sound_ofMap ⟨h.proc, h.channels, h.keys.remove, h.futexes⟩ ?_ ?_ ?_ ?_
    · exact fun map out he => ⟨h.proc, h.channels, h.keys.cloneCap he, h.futexes⟩
    · exact fun hno => (not_hasCap.1 hno).2.1
    · exact fun map hsame => ⟨.refl _, hsame, .refl _, rfl, rfl, rfl, rfl⟩
    · rw [cloneRoom_iff (hfutexes (by decide))]
      exact ⟨fun hr => hr.2.1, fun hr => ⟨hchannels, hr, hsmem⟩⟩
  | sMem =>
    obtain rfl := Option.some.inj hmap
    have hchannels := CapMap.room_of_absent (hchannels (by decide))
    have hkeys := CapMap.room_of_absent (hkeys (by decide))
    refine sound_ofMap ⟨h.proc.remove hV hty, h.channels, h.keys, h.futexes⟩ ?_ ?_ ?_ ?_
    · exact fun map out he => ⟨h.proc.cloneCap hV hty he, h.channels, h.keys, h.futexes⟩
    · exact fun hno => (not_hasCap.1 hno).2.2.1
    · exact fun map hsame => ⟨.refl _, .refl _, hsame, rfl, rfl, rfl, rfl⟩
    · rw [cloneRoom_iff (hfutexes (by decide))]
      exact ⟨fun hr => hr.2.2, fun hr => ⟨hchannels, hkeys, hr⟩⟩
  | futex =>
    obtain rfl := Option.some.inj hmap
    have hchannels := CapMap.room_of_absent (hchannels (by decide))
    have hkeys := CapMap.room_of_absent (hkeys (by decide))
    have hsmem := CapMap.room_of_absent (hsmem (by decide))
    obtain ⟨w, found, hdestroy, hw⟩ := h.futexes.mapDestroy p.pid a1.val
    have habsent := fun hno : ¬ p.HasCap a1.val => (not_hasCap.1 hno).2.2.2
    have hsame := Unchanged.refl p
    refine ⟨by simp [hdestroy], ?_, ?_, ?_⟩
    · intro p' found' he
      obtain ⟨rfl, rfl⟩ : { p with futexes := w } = p' ∧ found = found' := by simpa [hdestroy] using he
      refine ⟨⟨h.proc, h.channels, h.keys, hw⟩, fun hno => ?_⟩
      rw [FutexWorld.mapDestroy_of_absent (habsent hno)] at hdestroy
      obtain ⟨rfl, rfl⟩ := Prod.mk.inj (Option.some.inj hdestroy)
      exact ⟨rfl, hsame⟩
    · have hclones := @FutexWorld.Inv.mapCloneCap_isSome p.futexes p.pid a1.val (.fromBitsTruncate options.toNat) h.futexes
      refine Iff.trans ?_ (hclones.trans ⟨fun hr => ⟨hchannels, hkeys, hsmem, hr⟩, fun hr => hr.2.2.2⟩)
      cases hclone : p.futexes.mapCloneCap p.pid a1.val (.fromBitsTruncate options.toNat) <;> simp [hclone]
    · intro p' out he
      obtain ⟨⟨w₁, out'⟩, hclone, he⟩ := Option.bind_eq_some_iff.1 he
      obtain ⟨rfl, rfl⟩ := by simpa using he
      refine ⟨⟨h.proc, h.channels, h.keys, h.futexes.mapCloneCap hclone⟩, fun hno => ?_⟩
      rw [FutexWorld.mapCloneCap_of_absent (habsent hno)] at hclone
      obtain ⟨rfl, rfl⟩ := Prod.mk.inj (Option.some.inj hclone)
      exact ⟨rfl, hsame⟩
  | _ => cases hmap

/-- An id whose type field is less than 4 is looked up in a map. -/
theorem capmap_of_lt (hlt : getBits id 2 5 < 4) : ∃ typ map,
    CapId.capObjectType id = some typ ∧ (getCapmap typ : Option (CapSys (CapProcess σ))) = some map := by
  cases hty : CapId.capObjectType id with
  | none =>
    have := CapId.capObjectType_eq_none.1 hty
    omega
  | some typ =>
    rw [CapId.capObjectType_eq_some.1 hty] at hlt
    cases typ with
    | channel | futex | sMem | key => exact ⟨_, _, rfl, rfl⟩
    | _ => simp [CapObjectType.asUsize] at hlt

/-- There is no map for the others. -/
theorem getCapmap_of_le (hle : 4 ≤ getBits id 2 5) (hty : CapId.capObjectType id = some typ) :
    (getCapmap typ : Option (CapSys (CapProcess σ))) = none := by
  rw [CapId.capObjectType_eq_some.1 hty] at hle
  cases typ with
  | channel | futex | sMem | key => simp [CapObjectType.asUsize] at hle
  | _ => rfl

/-- A call on the map of an id: it panics where there is none. -/
theorem Inv.on_capmap {α : Type} {invlId : α} {room : Prop} {f : CapSys (CapProcess σ) → Option (CapProcess σ × α)}
    (h : p.Inv E) (hV : E.virt.IsVirt) (options : BitVec 32)
    (hf : ∀ map, Sound E p a1.val (.fromBitsTruncate options.toNat) map →
      (Answers p a1.val invlId (f map) ↔ room) ∧ ∀ p' a, f map = some (p', a) → p'.Inv E) :
    (Answers p a1.val invlId ((CapId.capObjectType a1.val).bind fun typ => (getCapmap typ).bind f) ↔
        getBits a1.val 2 5 < 4 ∧ room) ∧
      ∀ p' a, ((CapId.capObjectType a1.val).bind fun typ => (getCapmap typ).bind f) = some (p', a) → p'.Inv E := by
  rcases Nat.lt_or_ge (getBits a1.val 2 5) 4 with hlt | hle
  · obtain ⟨typ, map, hty, hmap⟩ := @capmap_of_lt σ _ hlt
    simp only [hty, hmap, Option.bind_some, hlt, true_and]
    exact hf map (h.sound options hV hty hmap)
  · have hnone : ((CapId.capObjectType a1.val).bind fun typ => (getCapmap typ).bind f) = none := by
      cases hty : CapId.capObjectType a1.val with
      | none => rfl
      | some typ => rw [Option.bind_some, getCapmap_of_le hle hty, Option.bind_none]
    rw [hnone]
    refine ⟨iff_of_false ?_ fun hlt => Nat.not_lt_of_le hle hlt.1, by simp⟩
    rintro ⟨_, _, ⟨⟩, -⟩

/-- **`cap_destroy` answers** exactly if the type field is that of a type with a map. -/
theorem Inv.capDestroy (h : p.Inv E) (hV : E.virt.IsVirt) :
    (Answers p a1.val .invlId (p.capDestroy a1) ↔ getBits a1.val 2 5 < 4) ∧
      ∀ p' err, p.capDestroy a1 = some (p', err) → p'.Inv E := by
  rw [← and_true (getBits a1.val 2 5 < 4)]
  refine h.on_capmap hV 0 ?_
  intro map hsound
  obtain ⟨⟨p', found⟩, hdestroy⟩ := Option.isSome_iff_exists.1 hsound.destroys
  obtain ⟨hinv, habsent⟩ := hsound.destroyed p' found hdestroy
  simp only [hdestroy]
  refine ⟨iff_of_true ⟨_, _, rfl, fun hno => ?_⟩ trivial, ?_⟩
  · obtain ⟨rfl, hsame⟩ := habsent hno
    exact ⟨rfl, hsame⟩
  · rintro p'' err ⟨⟩
    exact hinv

/-- **`cap_clone` answers** exactly if the type field is that of a type with a map and there is room. -/
theorem Inv.capClone (h : p.Inv E) (hV : E.virt.IsVirt) :
    (Answers p a1.val (.invlId, 0) (p.capClone options a1) ↔ getBits a1.val 2 5 < 4 ∧ p.CloneRoom a1.val) ∧
      ∀ p' res, p.capClone options a1 = some (p', res) → p'.Inv E := by
  refine h.on_capmap hV options ?_
  intro map hsound
  rw [← hsound.clones]
  cases hclone : map.cloneCap p a1.val (.fromBitsTruncate options.toNat) with
  | none =>
    refine ⟨iff_of_false ?_ (by simp), by simp⟩
    rintro ⟨_, _, ⟨⟩, -⟩
  | some r =>
    obtain ⟨p', out⟩ := r
    obtain ⟨hinv, habsent⟩ := hsound.cloned p' out hclone
    cases out with
    | none =>
      refine ⟨iff_of_true ⟨_, _, rfl, fun hno => ⟨rfl, (habsent hno).2⟩⟩ rfl, ?_⟩
      rintro p'' res ⟨⟩
      exact hinv
    | some cid =>
      refine ⟨iff_of_true ⟨_, _, rfl, fun hno => ?_⟩ rfl, ?_⟩
      · cases (habsent hno).1
      · rintro p'' res ⟨⟩
        exact hinv

/-- **`cap_map` answers** exactly if the type field is right and there is room. -/
theorem Inv.capMap (h : p.Inv E) (hP : E.phys.IsPhys) (hV : E.virt.IsVirt) (hwithin : Within E p (.capMap a1 a2)) :
    (Answers p a1.val ⟨.invlId, 0, 0⟩ (p.capMap E a1 a2) ↔ Fits E p (.capMap a1 a2)) ∧
      ∀ p' ret, p.capMap E a1 a2 = some (p', ret) → p'.Inv E := by
  rw [Fits, ← h.proc.capMap_isSome hP hV hwithin, CapProcess.capMap]
  cases hmap : p.proc.capMap E a1 a2 with
  | none =>
    refine ⟨iff_of_false ?_ (by simp), by simp⟩
    rintro ⟨_, _, ⟨⟩, -⟩
  | some r =>
    obtain ⟨proc, out⟩ := r
    refine ⟨iff_of_true ⟨_, _, rfl, fun hno => ?_⟩ rfl, ?_⟩
    · obtain ⟨rfl, rfl⟩ := Process.onMappable_of_absent (not_hasCap.1 hno).2.2.1 hmap
      exact ⟨rfl, .refl p⟩
    · rintro p' ret ⟨⟩
      exact ⟨h.proc.capMap hP hV hwithin hmap, h.channels, h.keys, h.futexes⟩

/-- **`cap_unmap` answers** exactly if the type field is right and there is room. -/
theorem Inv.capUnmap (h : p.Inv E) (hV : E.virt.IsVirt) :
    (Answers p a1.val .invlId (p.capUnmap E a1) ↔ Fits E p (.capUnmap a1)) ∧
      ∀ p' err, p.capUnmap E a1 = some (p', err) → p'.Inv E := by
  rw [Fits, ← h.proc.capUnmap_isSome hV, CapProcess.capUnmap]
  cases hunmap : p.proc.capUnmap E a1 with
  | none =>
    refine ⟨iff_of_false ?_ (by simp), by simp⟩
    rintro ⟨_, _, ⟨⟩, -⟩
  | some r =>
    obtain ⟨proc, out⟩ := r
    have hinv : CapProcess.Inv E { p with proc := proc } :=
      ⟨h.proc.capUnmap hV hunmap, h.channels, h.keys, h.futexes⟩
    have habsent := fun hno => Process.onMappable_of_absent (not_hasCap.1 hno).2.2.1 hunmap
    cases out with
    | ok u =>
      refine ⟨iff_of_true ⟨_, _, rfl, fun hno => ?_⟩ rfl, ?_⟩
      · cases (habsent hno).2
      · rintro p' err ⟨⟩
        exact hinv
    | error e =>
      refine ⟨iff_of_true ⟨_, _, rfl, fun hno => ?_⟩ rfl, ?_⟩
      · obtain ⟨rfl, he⟩ := habsent hno
        cases he
        exact ⟨rfl, .refl p⟩
      · rintro p' err ⟨⟩
        exact hinv

/-! ### Every run -/

/-- A step meets what is asked of it exactly if the condition holds, and keeps the invariant. -/
theorem Inv.step_iff (h : p.Inv E) (hP : E.phys.IsPhys) (hV : E.virt.IsVirt)
    (hA : ∀ s size s' a, E.alloc s size = some (s', some a) → InMap a.mem) (op : Op) (hwithin : Within E p op) :
    (Right E p op ↔ Fits E p op) ∧ (Fits E p op → ∀ p' ∈ step E p op, p'.Inv E) := by
  have hcall : ∀ {α : Type} {c : Option (CapProcess σ × α)}, (∀ p' a, c = some (p', a) → p'.Inv E) →
      ∀ p' ∈ c.map Prod.fst, p'.Inv E := by
    intro α c hc p' hp'
    obtain ⟨⟨p₁, a⟩, he, rfl⟩ := Option.map_eq_some_iff.1 hp'
    exact hc p₁ a he
  cases op with
  | capDestroy a1 =>
    obtain ⟨hiff, hinv⟩ := @Inv.capDestroy _ _ _ a1 h hV
    exact ⟨hiff, fun _ => hcall hinv⟩
  | capClone options a1 =>
    obtain ⟨hiff, hinv⟩ := @Inv.capClone _ _ _ a1 options h hV
    exact ⟨hiff, fun _ => hcall hinv⟩
  | capMap a1 a2 =>
    obtain ⟨hiff, hinv⟩ := h.capMap hP hV hwithin
    exact ⟨hiff, fun _ => hcall hinv⟩
  | capUnmap a1 =>
    obtain ⟨hiff, hinv⟩ := @Inv.capUnmap _ _ _ a1 h hV
    exact ⟨hiff, fun _ => hcall hinv⟩
  | smemNew options a1 =>
    refine ⟨Iff.rfl, fun _ p' hp' => ?_⟩
    obtain ⟨⟨proc, res⟩, he, rfl⟩ := Option.map_eq_some_iff.1 hp'
    exact ⟨h.proc.smemNew hV hA he, h.channels, h.keys, h.futexes⟩
  | realloc options a1 a2 a3 =>
    refine ⟨Iff.rfl, fun _ p' hp' => ?_⟩
    obtain ⟨⟨proc, ret⟩, he, rfl⟩ := Option.map_eq_some_iff.1 hp'
    exact ⟨h.proc.realloc hV hwithin he, h.channels, h.keys, h.futexes⟩
  | channel cap =>
    refine ⟨Iff.rfl, fun _ p' hp' => ?_⟩
    obtain ⟨⟨map, cid⟩, he, rfl⟩ := Option.map_eq_some_iff.1 hp'
    exact ⟨h.proc, h.channels.insert he, h.keys, h.futexes⟩
  | key cap =>
    refine ⟨Iff.rfl, fun _ p' hp' => ?_⟩
    obtain ⟨⟨map, cid⟩, he, rfl⟩ := Option.map_eq_some_iff.1 hp'
    exact ⟨h.proc, h.channels, h.keys.insert he, h.futexes⟩
  | futex op =>
    refine ⟨Iff.rfl, fun _ p' hp' => ?_⟩
    obtain ⟨w, he, rfl⟩ := Option.map_eq_some_iff.1 hp'
    exact ⟨h.proc, h.channels, h.keys, h.futexes.of_step he⟩

theorem inv_new {addrSpace : VirtMapper} {mem : σ} {sched : ThreadList.World} {processes pid : ℕ}
    (hhalves : addrSpace.Halves) (hshared : ∀ r, ¬ addrSpace.HasRegion r .shared) :
    (new addrSpace mem sched processes pid).Inv E where
  proc := by
    refine ⟨⟨[], [], SmemWorld.inv_new hhalves.placed hshared⟩, hhalves, by simp [new], ?_⟩
    exact fun r l hl hty => absurd ⟨l, hl, hty⟩ (hshared r)
  channels := CapMap.numbered_new
  keys := CapMap.numbered_new
  futexes := FutexWorld.inv_init sched processes

/-- **The calls answer in every run** exactly if the type fields of their ids are right and there is room. -/
theorem run_answers_iff {E : MemEnv σ} (hP : E.phys.IsPhys) (hV : E.virt.IsVirt)
    (hA : ∀ s size s' a, E.alloc s size = some (s', some a) → InMap a.mem) (addrSpace : VirtMapper) (mem : σ)
    (sched : ThreadList.World) (processes pid : ℕ) (hhalves : addrSpace.Halves)
    (hshared : ∀ r, ¬ addrSpace.HasRegion r .shared) (ops : List Op)
    (hwithin : Along (step E) (Within E) (new addrSpace mem sched processes pid) ops) :
    Along (step E) (Right E) (new addrSpace mem sched processes pid) ops ↔
      Along (step E) (Fits E) (new addrSpace mem sched processes pid) ops :=
  along_iff (Inv E) (fun _ op h hw => h.step_iff hP hV hA op hw) (inv_new hhalves hshared) hwithin

/-! ### A run, and a type without a map -/

/-- Memory with one page to hand out, and page tables that take every entry. -/
def onePage : MemEnv Unit where
  alloc _ size := some ((), if size = PAGE_SIZE then some ⟨⟨KERNEL_VMA + 0x200000, PAGE_SIZE⟩, 0⟩ else none)
  dealloc _ _ := some ()
  mapInternal _ _ := some ()
  phys := MemoryRegionType.physAddr
  virt := virtAddr

/-- A process in an address space with no regions. -/
def fresh : CapProcess Unit := new .new () (.new (fun _ => ⟨0, 0⟩) fun _ => 0) 1 0

/-- A page of shared memory is mapped through a clone of its capability, and unmapped; the capability is
destroyed twice. -/
def cloneMapped : List Op :=
  [.smemNew 3 1, .capClone 1 11, .capMap 41 0, .capUnmap 41, .capDestroy 11, .capDestroy 11]

theorem run_answers_iff_cloneMapped : Along (step onePage) (Within onePage) fresh cloneMapped ∧
    (Along (step onePage) (Right onePage) fresh cloneMapped ↔ Along (step onePage) (Fits onePage) fresh cloneMapped) := by
  have hwithin : Along (step onePage) (Within onePage) fresh cloneMapped := by decide +kernel
  have hA : ∀ s size s' a, onePage.alloc s size = some (s', some a) → InMap a.mem := by
    intro s size s' a he
    obtain ⟨-, he⟩ := Prod.mk.inj (Option.some.inj he)
    split_ifs at he
    obtain rfl := Option.some.inj he
    exact ⟨by decide, by decide, by decide⟩
  have hshared : ∀ r, ¬ VirtMapper.new.HasRegion r .shared := by
    rintro r ⟨l, hl, -⟩
    simp [VirtMapper.new, SortedMap.empty] at hl
  exact ⟨hwithin, run_answers_iff MemoryRegionType.physAddr_isPhys virtAddr_isVirt hA .new () _ 1 0
    VirtMapper.halves_new hshared cloneMapped hwithin⟩

/-- `cap_destroy` of an id whose type field is 7 panics. -/
theorem not_run_answers : ¬ ∀ ops : List Op, Along (step onePage) (Right onePage) fresh ops := by
  intro h
  obtain ⟨_, _, he, -⟩ := (h [.capDestroy 28]).1
  have hnone : (fresh.capDestroy 28).isNone = true := by decide
  rw [he] at hnone
  cases hnone

end CapProcess

end AuroraOs
