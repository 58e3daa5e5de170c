import AuroraOs.Cap.SharedMem
import AuroraOs.Boot.Mb2Run

/-!
# The two tables of shared memory

In every run, the range that an object of shared memory keeps for a capability is that of a region of
type `Shared` that was mapped through the capability, and the other way round.  This fails if a call
places a region over another one; that takes a range whose address `VirtAddr::new` moves, or one
whose end wraps around.
-/

namespace AuroraOs

open VirtMapper

/-! ### One object -/

namespace Map

variable {σ : Type} {E : MemEnv σ} {s s' : σ} {m m' : VirtMapper} {self self' : SharedMem} {id : CapId}

theorem virtLayout_atype {P : AddrApi} {flags : CapFlags} {l : VirtLayout}
    (h : virtLayout P self flags = some l) : l.atype = .shared := by
  simp only [virtLayout, Option.bind_eq_bind, Option.bind_eq_some_iff] at h
  obtain ⟨_, -, _, -, h⟩ := h
  rw [← Option.some.inj h]
  rfl

/-- The gap that `map` leaves to `find_range` begins at a canonical address. -/
def MapSafe (E : MemEnv σ) (m : VirtMapper) (self : SharedMem) (id : CapId) (atAddr : Option ℕ) : Prop :=
  atAddr = none → self.capData[id]? = none →
    ∀ l ∈ virtLayout E.phys self (CapId.flags id), m.GapCanonical l.size

instance {atAddr : Option ℕ} : Decidable (MapSafe E m self id atAddr) := by
  delta MapSafe
  infer_instance

/-- `map` records the range of the region that it adds, or changes nothing. -/
theorem map_spec {atAddr : Option ℕ} {res : Except SysErr VirtRange} (hm : m.WellPlaced)
    (hV : E.virt.IsVirt) (hsafe : MapSafe E m self id atAddr)
    (h : map E s m self id atAddr = some (s', m', self', res)) :
    (∃ err, res = .error err ∧ m' = m ∧ self' = self) ∨
      ∃ r, res = .ok r ∧ self.capData[id]? = none ∧ self'.capData = self.capData.insert id r ∧
        ∃ l, l.atype = .shared ∧ VirtMapper.Change m m' none (some (r, l)) := by
  have hrecord : ∀ {l : VirtLayout} {s₁ m₁ result}, self.capData[id]? = none → l.atype = .shared →
      m.Added m₁ l result → some (record self id (s₁, m₁, result)) = some (s', m', self', res) →
      (∃ err, res = .error err ∧ m' = m ∧ self' = self) ∨
        ∃ r, res = .ok r ∧ self.capData[id]? = none ∧ self'.capData = self.capData.insert id r ∧
          ∃ l, l.atype = .shared ∧ VirtMapper.Change m m' none (some (r, l)) := by
    intro l s₁ m₁ result hnone hl hadd h
    cases result with
    | error err =>
      obtain ⟨-, rfl, rfl, rfl⟩ := by simpa [record] using h
      exact Or.inl ⟨_, rfl, hadd, rfl⟩
    | ok r =>
      obtain ⟨-, rfl, rfl, rfl⟩ := by simpa [record] using h
      obtain ⟨-, l', hl', hc⟩ := hadd
      exact Or.inr ⟨r, rfl, hnone, rfl, l', hl'.atype.trans hl, hc⟩
  unfold map at h
  rcases Option.eq_none_or_eq_some (self.capData[id]?) with hdata | ⟨r, hdata⟩
  swap
  · have hdata' : capMapData self id = some r := hdata
    rw [hdata'] at h
    obtain ⟨-, rfl, rfl, rfl⟩ := by simpa using h
    exact Or.inl ⟨_, rfl, rfl, rfl⟩
  · have hdata' : capMapData self id = none := hdata
    rw [hdata'] at h
    obtain ⟨l, hl, h⟩ := Option.bind_eq_some_iff.1 h
    have hty := virtLayout_atype hl
    cases atAddr with
    | none =>
      obtain ⟨⟨s₁, m₁, result⟩, hmap, h⟩ := Option.map_eq_some_iff.1 h
      have hadd := VirtMapper.map_spec hm hV (hsafe rfl hdata l hl) hmap
      exact hrecord hdata hty hadd (congrArg some h)
    | some a =>
      simp only at h
      by_cases halign : pageAligned a
      · rw [if_neg (by simp [halign])] at h
        cases hnew : E.virt.new a with
        | none =>
          rw [hnew] at h
          obtain ⟨_, -, h⟩ := Option.bind_eq_some_iff.1 h
          obtain ⟨-, rfl, rfl, rfl⟩ := by simpa using h
          exact Or.inl ⟨_, rfl, rfl, rfl⟩
        | some vaddr =>
          rw [hnew] at h
          obtain ⟨⟨s₁, m₁, result⟩, hmap, h⟩ := Option.map_eq_some_iff.1 h
          exact hrecord hdata hty (mapAt_spec hm hV hmap) (congrArg some h)
      · rw [if_pos (by simp [halign])] at h
        obtain ⟨_, -, h⟩ := Option.bind_eq_some_iff.1 h
        obtain ⟨-, rfl, rfl, rfl⟩ := by simpa using h
        exact Or.inl ⟨_, rfl, rfl, rfl⟩

/-- `unmap` forgets the range of the region that it removes, or changes nothing. -/
theorem unmap_spec {res : Except SysErr Unit} (h : unmap E s m self id = some (s', m', self', res)) :
    (∃ err, res = .error err ∧ m' = m ∧ self' = self) ∨
      ∃ r, res = .ok () ∧ self.capData[id]? = some r ∧ self'.capData = self.capData.erase id ∧
        Change m m' (some r) none := by
  unfold unmap at h
  rcases Option.eq_none_or_eq_some (self.capData[id]?) with hdata | ⟨r, hdata⟩
  · have hdata' : capMapData self id = none := hdata
    rw [hdata'] at h
    obtain ⟨-, rfl, rfl, rfl⟩ := by simpa using h
    exact Or.inl ⟨_, rfl, rfl, rfl⟩
  · have hdata' : capMapData self id = some r := hdata
    rw [hdata'] at h
    obtain ⟨⟨s₁, m₁, result⟩, hunmap, hrest⟩ := Option.bind_eq_some_iff.1 h
    rcases VirtMapper.unmap_spec hunmap with ⟨-, ⟨l, -, rfl⟩, hc⟩ | ⟨-, ⟨err, rfl⟩, -⟩
    · obtain ⟨_, -, hrest⟩ := Option.bind_eq_some_iff.1 hrest
      obtain ⟨-, rfl, rfl, rfl⟩ := by simpa using hrest
      exact Or.inr ⟨r, rfl, hdata, rfl, hc⟩
    · simp at hrest

end Map

/-- The id that `insert` gives, and the map that it leaves. -/
theorem CapMap.insert_spec {T : Type} [CapObject T] {smem smem' : CapMap T} {cap : Capability T}
    {cid : CapId} (h : smem.insert cap = some (smem', cid)) :
    smem.nextId < 2 ^ 59 ∧ cid = Capability.pack smem.nextId (CapObject.capObjectType T) cap.flags ∧
      smem'.nextId = smem.nextId + 1 ∧ smem'.data = smem.data.insert cid { cap with id := cid } := by
  simp only [CapMap.insert, takeId, Capability.setBaseId, Nat.shiftLeft_eq, one_mul] at h
  split_ifs at h with hlt
  · obtain ⟨rfl, rfl⟩ := by simpa using h
    exact ⟨hlt, rfl, Nat.mod_eq_of_lt (by simp only [usizeMod]; omega), rfl⟩
  · simp at h

namespace Process

variable {σ : Type} {p p' : Process σ} {id : CapId}

/-- A call on a capability map reaches that of shared memory, or changes nothing. -/
theorem onCapmap_spec {α : Type} {a other : α}
    {f : CapMap (Arc SharedMem) → Option (CapMap (Arc SharedMem) × α)}
    (h : p.onCapmap id other f = some (p', a)) :
    (a = other ∧ p' = p) ∨ ∃ smem, f p.smem = some (smem, a) ∧ p' = { p with smem := smem } := by
  unfold onCapmap at h
  split at h
  · obtain ⟨⟨smem, a'⟩, hf, h⟩ := Option.bind_eq_some_iff.1 h
    obtain ⟨rfl, rfl⟩ := by simpa using h
    exact Or.inr ⟨smem, hf, rfl⟩
  · obtain ⟨rfl, rfl⟩ := by simpa using h
    exact Or.inl ⟨rfl, rfl⟩
  · obtain ⟨rfl, rfl⟩ := by simpa using h
    exact Or.inl ⟨rfl, rfl⟩
  · obtain ⟨rfl, rfl⟩ := by simpa using h
    exact Or.inl ⟨rfl, rfl⟩
  · simp at h

/-- A call on a mappable capability reaches the object of the capability, or changes nothing. -/
theorem onMappable_spec {α : Type} {res : Except SysErr α}
    {f : σ → VirtMapper → SharedMem → Option (σ × VirtMapper × SharedMem × Except SysErr α)}
    (h : p.onMappable id f = some (p', res)) :
    (∃ err, res = .error err ∧ p' = p) ∨ ∃ cap object object' addrSpace mem,
      p.smem.data[id]? = some cap ∧ p.objects[cap.object.ptr]? = some object ∧
        f p.mem p.addrSpace object = some (mem, addrSpace, object', res) ∧
        p' = ⟨p.smem, p.objects.set cap.object.ptr object', addrSpace, mem⟩ := by
  unfold onMappable at h
  split at h
  · unfold onObject at h
    split at h
    · obtain ⟨rfl, rfl⟩ := by simpa using h
      exact Or.inl ⟨_, rfl, rfl⟩
    · next cap hcap =>
      obtain ⟨object, hobject, h⟩ := Option.bind_eq_some_iff.1 h
      obtain ⟨⟨mem, addrSpace, object', result⟩, hf, h⟩ := Option.bind_eq_some_iff.1 h
      obtain ⟨rfl, rfl⟩ := by simpa using h
      exact Or.inr ⟨cap, object, object', addrSpace, mem, hcap, hobject, hf, rfl⟩
  · simp at h
  · simp at h
  · obtain ⟨rfl, rfl⟩ := by simpa using h
    exact Or.inl ⟨_, rfl, rfl⟩

end Process

/-! ### The invariant -/

namespace SmemWorld

variable {σ : Type} {E : MemEnv σ} {w w' : SmemWorld σ}

/-- The invariant of a process and its history. -/
structure Inv (w : SmemWorld σ) : Prop where
  placed : w.proc.addrSpace.WellPlaced
  nextId_le : w.proc.smem.nextId ≤ 2 ^ 59
  cap_issued : ∀ {id cap}, w.proc.smem.data[id]? = some cap → (id, cap.object) ∈ w.issued
  id_eq : ∀ {id o}, (id, o) ∈ w.issued →
    ∃ n < w.proc.smem.nextId, ∃ flags, id = Capability.pack n .sMem flags
  object_lt : ∀ {id o}, (id, o) ∈ w.issued → o.ptr < w.proc.objects.length
  owner : ∀ {id o o'}, (id, o) ∈ w.issued → (id, o') ∈ w.issued → o = o'
  mapped_issued : ∀ {id r}, (id, r) ∈ w.mapped → ∃ o, (id, o) ∈ w.issued
  capData_iff : ∀ {i object}, w.proc.objects[i]? = some object → ∀ {id r},
    object.capData[id]? = some r ↔ (id, r) ∈ w.mapped ∧ (id, ⟨i⟩) ∈ w.issued
  region_iff : ∀ {r}, w.proc.addrSpace.HasRegion r .shared ↔ ∃ id, (id, r) ∈ w.mapped
  mapped_inj : ∀ {id id' r}, (id, r) ∈ w.mapped → (id', r) ∈ w.mapped → id = id'

/-- No two ranges are mapped through one id. -/
theorem Inv.mapped_unique (h : Inv w) {id : CapId} {r r' : VirtRange} (hr : (id, r) ∈ w.mapped)
    (hr' : (id, r') ∈ w.mapped) : r = r' := by
  obtain ⟨o, ho⟩ := h.mapped_issued hr
  have hobject := List.getElem?_eq_getElem (h.object_lt ho)
  have h1 := (h.capData_iff hobject).2 ⟨hr, ho⟩
  have h2 := (h.capData_iff hobject).2 ⟨hr', ho⟩
  rw [h1] at h2
  exact Option.some.inj h2

/-- A fresh id was never issued. -/
theorem Inv.fresh (h : Inv w) {flags : CapFlags} {o : Arc SharedMem}
    (hlt : w.proc.smem.nextId < 2 ^ 59) :
    (Capability.pack w.proc.smem.nextId .sMem flags, o) ∉ w.issued := by
  intro hmem
  obtain ⟨n, hn, flags', he⟩ := h.id_eq hmem
  have := Capability.pack_injective hlt (hn.trans hlt) he
  omega

/-- A capability is inserted, with objects that nothing is mapped of. -/
theorem Inv.give (h : Inv w) {cap : Capability (Arc SharedMem)} {smem : CapMap (Arc SharedMem)}
    {cid : CapId} {new : List SharedMem} {mem : σ} (hins : w.proc.smem.insert cap = some (smem, cid))
    (hnew : ∀ object ∈ new, object.capData = ∅)
    (hcap : cap.object.ptr < (w.proc.objects ++ new).length) :
    Inv (w.give ⟨smem, w.proc.objects ++ new, w.proc.addrSpace, mem⟩ cid) := by
  obtain ⟨hlt, hcid, hnext, hdata⟩ := CapMap.insert_spec hins
  have hfresh : ∀ o, (cid, o) ∉ w.issued := fun o => hcid ▸ h.fresh hlt
  have hissued : (w.give ⟨smem, w.proc.objects ++ new, w.proc.addrSpace, mem⟩ cid).issued
      = (cid, cap.object) :: w.issued := by
    simp [SmemWorld.give, hdata]
  have hmapped : ∀ {r}, (cid, r) ∉ w.mapped := fun hr => (h.mapped_issued hr).elim hfresh
  refine ⟨h.placed, ?_, ?_, ?_, ?_, ?_, ?_, ?_, h.region_iff, h.mapped_inj⟩
  · simp only [SmemWorld.give, hnext]
    omega
  · intro id cap' hcap'
    rw [hissued]
    simp only [SmemWorld.give, hdata, Std.TreeMap.getElem?_insert, Nat.compare_eq_eq] at hcap'
    split_ifs at hcap' with he
    · obtain rfl := Option.some.inj hcap'
      subst he
      exact List.mem_cons_self
    · exact List.mem_cons_of_mem _ (h.cap_issued hcap')
  · intro id o ho
    rw [hissued] at ho
    simp only [SmemWorld.give, hnext]
    rcases List.mem_cons.1 ho with he | ho
    · obtain ⟨rfl, rfl⟩ := Prod.mk.inj he
      exact ⟨w.proc.smem.nextId, Nat.lt_succ_self _, cap.flags, hcid⟩
    · obtain ⟨n, hn, flags, he⟩ := h.id_eq ho
      exact ⟨n, by omega, flags, he⟩
  · intro id o ho
    rw [hissued] at ho
    rcases List.mem_cons.1 ho with he | ho
    · obtain ⟨rfl, rfl⟩ := Prod.mk.inj he
      exact hcap
    · have := h.object_lt ho
      simp only [SmemWorld.give, List.length_append]
      omega
  · intro id o o' ho ho'
    rw [hissued, List.mem_cons, Prod.mk.injEq] at ho ho'
    rcases ho with ⟨hid, rfl⟩ | ho
    · rcases ho' with ⟨-, rfl⟩ | ho'
      · rfl
      · exact absurd (hid ▸ ho') (hfresh o')
    · rcases ho' with ⟨hid, -⟩ | ho'
      · exact absurd (hid ▸ ho) (hfresh o)
      · exact h.owner ho ho'
  · intro id r hr
    rw [hissued]
    obtain ⟨o, ho⟩ := h.mapped_issued hr
    exact ⟨o, List.mem_cons_of_mem _ ho⟩
  · intro i object hobject id r
    rw [hissued, List.mem_cons]
    have hcons : ((id, r) ∈ w.mapped ∧ ((id, (⟨i⟩ : Arc SharedMem)) = (cid, cap.object) ∨ (id, ⟨i⟩) ∈ w.issued))
        ↔ (id, r) ∈ w.mapped ∧ (id, ⟨i⟩) ∈ w.issued := by
      refine and_congr_right fun hr => or_iff_right fun he => ?_
      obtain ⟨rfl, -⟩ := Prod.mk.inj he
      exact hmapped hr
    refine Iff.trans ?_ hcons.symm
    simp only [SmemWorld.give] at hobject
    rcases Nat.lt_or_ge i w.proc.objects.length with hi | hi
    · rw [List.getElem?_append_left hi] at hobject
      exact h.capData_iff hobject
    · rw [List.getElem?_append_right hi] at hobject
      rw [hnew object (List.mem_of_getElem? hobject)]
      refine iff_of_false (by simp) fun hmem => ?_
      have := h.object_lt hmem.2
      simp only at this
      omega

/-- One object, the regions and the ranges that are mapped change together. -/
theorem Inv.update (h : Inv w) {cap : Capability (Arc SharedMem)} {id : CapId} {object' : SharedMem}
    {m' : VirtMapper} {mem : σ} {mapped : List (CapId × VirtRange)}
    (hcap : w.proc.smem.data[id]? = some cap) (hplaced : m'.WellPlaced)
    (hother : ∀ {id' r}, id' ≠ id → ((id', r) ∈ mapped ↔ (id', r) ∈ w.mapped))
    (hdata : ∀ {id' r}, object'.capData[id']? = some r ↔ (id', r) ∈ mapped ∧ (id', cap.object) ∈ w.issued)
    (hregion : ∀ {r}, m'.HasRegion r .shared ↔ ∃ id, (id, r) ∈ mapped)
    (hinj : ∀ {id id' r}, (id, r) ∈ mapped → (id', r) ∈ mapped → id = id') :
    Inv ⟨⟨w.proc.smem, w.proc.objects.set cap.object.ptr object', m', mem⟩, w.issued, mapped⟩ := by
  have hissued := h.cap_issued hcap
  refine ⟨hplaced, h.nextId_le, h.cap_issued, h.id_eq, ?_, h.owner, ?_, ?_, hregion, hinj⟩
  · intro id o ho
    rw [List.length_set]
    exact h.object_lt ho
  · intro id' r hr
    by_cases hid : id' = id
    · exact ⟨cap.object, hid ▸ hissued⟩
    · exact h.mapped_issued ((hother hid).1 hr)
  · intro i object hobject id' r
    simp only [List.getElem?_set] at hobject
    split_ifs at hobject with hi hlt
    · obtain rfl := Option.some.inj hobject
      subst hi
      exact hdata
    · rw [h.capData_iff hobject]
      -- the id belongs to one object only, so it is not an id of the others
      refine and_congr_left fun ho => (hother ?_).symm
      rintro rfl
      exact hi (congrArg Arc.ptr (h.owner hissued ho))

/-- The gaps and ends of the ranges that a call computes with are addresses as they stand. -/
def Safe (E : MemEnv σ) (w : SmemWorld σ) : Syscall → Prop
  | .capMap a1 a2 => ∀ cap ∈ w.proc.smem.data[a1.val]?, ∀ object ∈ w.proc.objects[cap.object.ptr]?,
      Map.MapSafe E w.proc.addrSpace object a1.val (if a2.val = 0 then none else some a2.val)
  | .realloc options a1 a2 a3 => w.proc.addrSpace.ReallocSafe E w.proc.mem options a1 a2 a3
  | _ => True

instance : (op : Syscall) → Decidable (Safe E w op)
  | .capMap a1 a2 => inferInstanceAs (Decidable (∀ cap ∈ w.proc.smem.data[a1.val]?,
      ∀ object ∈ w.proc.objects[cap.object.ptr]?, Map.MapSafe E w.proc.addrSpace object a1.val
        (if a2.val = 0 then none else some a2.val)))
  | .realloc options a1 a2 a3 =>
      inferInstanceAs (Decidable (w.proc.addrSpace.ReallocSafe E w.proc.mem options a1 a2 a3))
  | .smemNew _ _ | .capDestroy _ | .capClone _ _ | .capUnmap _ => isTrue trivial

theorem Inv.capMap (h : Inv w) (hV : E.virt.IsVirt) {a1 a2 : Usize} (hsafe : Safe E w (.capMap a1 a2))
    (he : w.step E (.capMap a1 a2) = some w') : Inv w' := by
  obtain ⟨⟨p, res⟩, hcall, he⟩ := Option.bind_eq_some_iff.1 he
  rcases Process.onMappable_spec hcall with ⟨err, rfl, rfl⟩ | hcall
  · obtain rfl := Option.some.inj he
    exact h
  obtain ⟨cap, object, object', m', mem, hcap, hobject, hmap, rfl⟩ := hcall
  have hiff := @h.capData_iff _ _ hobject
  rcases Map.map_spec h.placed hV (hsafe cap hcap object hobject) hmap with
    ⟨err, rfl, rfl, rfl⟩ | ⟨r, rfl, hnone, hdata, l, hl, hc⟩
  · obtain rfl := Option.some.inj he
    exact h.update hcap h.placed (fun _ => Iff.rfl) hiff h.region_iff h.mapped_inj
  · obtain rfl := Option.some.inj he
    have hkey := hc.not_mem (by simp)
    have hnew : ∀ {id}, (id, r) ∉ w.mapped := by
      intro id hr
      obtain ⟨l', hl', -⟩ := h.region_iff.2 ⟨id, hr⟩
      exact hkey (SortedMap.mem_keys_of_mem hl')
    refine h.update hcap (hc.wellPlaced h.placed) ?_ ?_ ?_ ?_
    · intro id' r' hid
      simp [hid]
    · intro id' r'
      rw [hdata, Std.TreeMap.getElem?_insert]
      by_cases hid : id' = a1.val
      · subst hid
        have hissued := h.cap_issued hcap
        have hold : (a1.val, r') ∉ w.mapped := fun hr => by
          have := hiff.2 ⟨hr, hissued⟩
          rw [hnone] at this
          simp at this
        simp [hissued, hold, eq_comm]
      · rw [if_neg (by simpa [Nat.compare_eq_eq] using Ne.symm hid), hiff]
        simp [hid]
    · intro r'
      simp only [hc.hasRegion_iff, h.region_iff, List.mem_cons, Prod.mk.injEq, exists_or,
        Option.some.injEq]
      refine or_congr ⟨?_, ?_⟩ (by simp)
      · rintro ⟨_, ⟨rfl, -⟩, -⟩
        exact ⟨_, rfl, rfl⟩
      · rintro ⟨_, -, rfl⟩
        exact ⟨l, ⟨rfl, rfl⟩, hl⟩
    · intro id id' r' hid hid'
      rw [List.mem_cons, Prod.mk.injEq] at hid hid'
      rcases hid with ⟨rfl, rfl⟩ | hid
      · rcases hid' with ⟨rfl, -⟩ | hid'
        · rfl
        · exact absurd hid' hnew
      · rcases hid' with ⟨-, rfl⟩ | hid'
        · exact absurd hid hnew
        · exact h.mapped_inj hid hid'

theorem Inv.capUnmap (h : Inv w) {a1 : Usize} (he : w.step E (.capUnmap a1) = some w') : Inv w' := by
  obtain ⟨⟨p, res⟩, hcall, he⟩ := Option.bind_eq_some_iff.1 he
  rcases Process.onMappable_spec hcall with ⟨err, rfl, rfl⟩ | hcall
  · obtain rfl := Option.some.inj he
    exact h
  obtain ⟨cap, object, object', m', mem, hcap, hobject, hunmap, rfl⟩ := hcall
  have hiff := @h.capData_iff _ _ hobject
  rcases Map.unmap_spec hunmap with ⟨err, rfl, rfl, rfl⟩ | ⟨r, rfl, hsome, hdata, hc⟩
  · obtain rfl := Option.some.inj he
    exact h.update hcap h.placed (fun _ => Iff.rfl) hiff h.region_iff h.mapped_inj
  · obtain rfl := Option.some.inj he
    have hr : (a1.val, r) ∈ w.mapped := (hiff.1 hsome).1
    have hmem : ∀ {id' r'}, (id', r') ∈ w.mapped.filter (fun e => decide (e.1 ≠ a1.val)) ↔
        (id', r') ∈ w.mapped ∧ id' ≠ a1.val := by
      simp
    refine h.update hcap (hc.wellPlaced h.placed) ?_ ?_ ?_ ?_
    · intro id' r' hid
      rw [hmem, and_iff_left hid]
    · intro id' r'
      rw [hdata, hmem, Std.TreeMap.getElem?_erase]
      by_cases hid : id' = a1.val
      · subst hid
        simp
      · rw [if_neg (by simpa [Nat.compare_eq_eq] using Ne.symm hid), hiff]
        simp [hid]
    · intro r'
      simp only [hc.hasRegion_iff, h.region_iff, hmem]
      constructor
      · rintro (⟨_, ⟨⟩, -⟩ | ⟨⟨id', hid'⟩, hne⟩)
        refine ⟨id', hid', ?_⟩
        rintro rfl
        exact hne (congrArg some (h.mapped_unique hr hid'))
      · rintro ⟨id', hid', hne⟩
        refine Or.inr ⟨⟨id', hid'⟩, fun he => hne ?_⟩
        obtain rfl := Option.some.inj he
        exact h.mapped_inj hid' hr
    · intro id id' r' hid hid'
      exact h.mapped_inj (hmem.1 hid).1 (hmem.1 hid').1

theorem Inv.realloc (h : Inv w) (hV : E.virt.IsVirt) {options : BitVec 32} {a1 a2 a3 : Usize}
    (hsafe : Safe E w (.realloc options a1 a2 a3))
    (he : w.step E (.realloc options a1 a2 a3) = some w') : Inv w' := by
  obtain ⟨⟨p, ret⟩, hcall, he⟩ := Option.bind_eq_some_iff.1 he
  obtain ⟨⟨mem, m', ret'⟩, hrealloc, hp⟩ := Option.bind_eq_some_iff.1 hcall
  obtain ⟨rfl, -⟩ := by simpa using hp
  obtain rfl := Option.some.inj he
  have htouch := realloc_spec h.placed hV hsafe hrealloc
  refine ⟨htouch.wellPlaced h.placed, h.nextId_le, h.cap_issued, h.id_eq, h.object_lt, h.owner,
    h.mapped_issued, h.capData_iff, fun {r} => ?_, h.mapped_inj⟩
  rw [← h.region_iff]
  refine exists_congr fun l => and_congr_left fun hl => htouch.mem_iff ?_
  rw [hl]
  decide

theorem Inv.capDestroy (h : Inv w) {a1 : Usize} (he : w.step E (.capDestroy a1) = some w') : Inv w' := by
  obtain ⟨⟨p, res⟩, hcall, he⟩ := Option.bind_eq_some_iff.1 he
  obtain rfl := Option.some.inj he
  rcases Process.onCapmap_spec hcall with ⟨rfl, rfl⟩ | ⟨smem, hdestroy, rfl⟩
  · exact h
  · obtain ⟨rfl, -⟩ := by simpa [CapMap.destroy, CapMap.remove] using hdestroy
    refine ⟨h.placed, h.nextId_le, fun {id cap} hcap => ?_, h.id_eq, h.object_lt, h.owner,
      h.mapped_issued, h.capData_iff, h.region_iff, h.mapped_inj⟩
    simp only [Std.TreeMap.getElem?_erase] at hcap
    split_ifs at hcap
    exact h.cap_issued hcap

theorem Inv.capClone (h : Inv w) {options : BitVec 32} {a1 : Usize}
    (he : w.step E (.capClone options a1) = some w') : Inv w' := by
  obtain ⟨⟨p, res⟩, hcall, he⟩ := Option.bind_eq_some_iff.1 he
  rcases Process.onCapmap_spec hcall with ⟨rfl, rfl⟩ | ⟨smem, hclone, rfl⟩
  · obtain rfl := Option.some.inj he
    exact h
  · unfold CapMap.cloneCap at hclone
    cases hderive : w.proc.smem.derive a1.val (.fromBitsTruncate options.toNat) with
    | none =>
      rw [hderive] at hclone
      obtain ⟨rfl, rfl⟩ := by simpa using hclone
      obtain rfl := Option.some.inj he
      exact h
    | some newCap =>
      rw [hderive] at hclone
      obtain ⟨⟨smem', cid⟩, hins, hclone⟩ := Option.bind_eq_some_iff.1 hclone
      obtain ⟨rfl, rfl⟩ := by simpa using hclone
      obtain rfl := Option.some.inj he
      obtain ⟨cap, hcap, rfl⟩ := Option.map_eq_some_iff.1 hderive
      have hlt := h.object_lt (h.cap_issued hcap)
      have hnil : w.proc.objects ++ [] = w.proc.objects := List.append_nil _
      have hgive := @Inv.give _ _ h _ _ _ [] w.proc.mem hins (by simp) (by rw [hnil]; exact hlt)
      rwa [hnil] at hgive

/-- Every system call keeps the invariant. -/
theorem inv_step (w : SmemWorld σ) (op : Syscall) (w' : SmemWorld σ) (hV : E.virt.IsVirt) (h : Inv w)
    (hsafe : Safe E w op) (he : w.step E op = some w') : Inv w' := by
  cases op with
  | smemNew options a1 =>
    obtain ⟨⟨p, res⟩, hcall, he⟩ := Option.bind_eq_some_iff.1 he
    obtain ⟨⟨mem, _ | allocation⟩, -, hcall⟩ := Option.bind_eq_some_iff.1 hcall
    · obtain ⟨rfl, rfl⟩ := by simpa using hcall
      obtain rfl := Option.some.inj he
      exact ⟨h.placed, h.nextId_le, h.cap_issued, h.id_eq, h.object_lt, h.owner, h.mapped_issued,
        h.capData_iff, h.region_iff, h.mapped_inj⟩
    · obtain ⟨⟨smem, cid⟩, hins, hcall⟩ := Option.bind_eq_some_iff.1 hcall
      obtain ⟨rfl, rfl⟩ := by simpa using hcall
      obtain rfl := Option.some.inj he
      exact h.give hins (by simp) (by simp [Capability.new])
  | capDestroy a1 => exact h.capDestroy he
  | capClone options a1 => exact h.capClone he
  | capMap a1 a2 => exact h.capMap hV hsafe he
  | capUnmap a1 => exact h.capUnmap he
  | realloc options a1 a2 a3 => exact h.realloc hV hsafe he

/-! ### Every run -/

/-- A process that was just started, in an address space of its own. -/
def new (addrSpace : VirtMapper) (mem : σ) : SmemWorld σ := ⟨⟨.new, [], addrSpace, mem⟩, [], []⟩

theorem inv_new {addrSpace : VirtMapper} {mem : σ} (hplaced : addrSpace.WellPlaced)
    (hshared : ∀ r, ¬ addrSpace.HasRegion r .shared) : Inv (new addrSpace mem) where
  placed := hplaced
  nextId_le := Nat.zero_le _
  cap_issued := by simp [new, CapMap.new]
  id_eq := by simp [new]
  object_lt := by simp [new]
  owner := by simp [new]
  mapped_issued := by simp [new]
  capData_iff := by simp [new]
  region_iff {r} := iff_of_false (hshared r) (by simp [new])
  mapped_inj := by simp [new]

/-- What the two tables have to do with each other. -/
structure Consistent (E : MemEnv σ) (w : SmemWorld σ) : Prop where
  /-- An object keeps a range for an id if and only if there is a region of type `Shared` that was
  mapped through the id and was not unmapped since. -/
  agree : ∀ id o, (id, o) ∈ w.issued → ∃ object, w.proc.objects[o.ptr]? = some object ∧
    ∀ r, object.capData[id]? = some r ↔
      w.proc.addrSpace.HasRegion r .shared ∧ (id, r) ∈ w.mapped
  /-- The address space has the region that `Map::unmap` removes. -/
  unwrap : ∀ id o object r, (id, o) ∈ w.issued → w.proc.objects[o.ptr]? = some object →
    object.capData[id]? = some r → ∀ mem mem' m' res,
      w.proc.addrSpace.unmap E mem r .shared = some (mem', m', res) → ∃ l, res = .ok l
  /-- A second `cap_map` through an id changes nothing. -/
  again : ∀ (a1 a2 : Usize) cap r, w.proc.smem.data[a1.val]? = some cap → (a1.val, r) ∈ w.mapped →
    w.proc.capMap E a1 a2 = some (w.proc, .error .invlOp)
  /-- `realloc` neither frees nor resizes a region of type `Shared`. -/
  kept : ∀ options a1 a2 a3 mem m' ret, Safe E w (.realloc options a1 a2 a3) →
    w.proc.addrSpace.realloc E w.proc.mem options a1 a2 a3 = some (mem, m', ret) →
      ∀ r l, l.atype = .shared →
        ((r, l) ∈ m'.virtMap.entries ↔ (r, l) ∈ w.proc.addrSpace.virtMap.entries)

theorem Inv.capObjectType_eq (h : Inv w) {id : CapId} {o : Arc SharedMem} (ho : (id, o) ∈ w.issued) :
    CapId.capObjectType id = some .sMem := by
  obtain ⟨n, hn, flags, rfl⟩ := h.id_eq ho
  exact Capability.capObjectType_pack (hn.trans_le h.nextId_le)

theorem Inv.consistent (h : Inv w) (hV : E.virt.IsVirt) : Consistent E w where
  agree id o ho := by
    refine ⟨_, List.getElem?_eq_getElem (h.object_lt ho), fun r => ?_⟩
    rw [h.capData_iff (List.getElem?_eq_getElem (h.object_lt ho)), h.region_iff]
    exact ⟨fun hr => ⟨⟨id, hr.1⟩, hr.1⟩, fun hr => ⟨hr.2, ho⟩⟩
  unwrap id o object r ho hobject hr mem mem' m' res hunmap := by
    have hregion := h.region_iff.2 ⟨id, ((h.capData_iff hobject).1 hr).1⟩
    rcases VirtMapper.unmap_spec hunmap with ⟨-, ⟨l, -, rfl⟩, -⟩ | ⟨hno, -, -⟩
    · exact ⟨l, rfl⟩
    · exact absurd hregion hno
  again a1 a2 cap r hcap hr := by
    have ho := h.cap_issued hcap
    have hlt := h.object_lt ho
    have hobject := List.getElem?_eq_getElem hlt
    have hdata : Map.capMapData w.proc.objects[cap.object.ptr] a1.val = some r :=
      (h.capData_iff hobject).2 ⟨hr, ho⟩
    simp only [Process.capMap, Process.onMappable, h.capObjectType_eq ho, Process.onObject, hcap,
      hobject, Map.map, hdata, Option.bind_eq_bind, Option.bind_some, List.set_getElem_self]
  kept options a1 a2 a3 mem m' ret hsafe hrealloc r l hl := by
    refine (realloc_spec h.placed hV hsafe hrealloc).mem_iff ?_
    rw [hl]
    decide

/-- **The two tables agree in every run** whose calls neither take a gap that begins in
`[2 ^ 47, 2 ^ 48)` nor resize a region past the end of the address space. -/
theorem run_consistent (hV : E.virt.IsVirt) (addrSpace : VirtMapper) (mem : σ)
    (hplaced : addrSpace.WellPlaced) (hshared : ∀ r, ¬ addrSpace.HasRegion r .shared)
    (ops : List Syscall) (hsafe : Machine.Along (step E) (Safe E) (new addrSpace mem) ops)
    (he : Machine.run (step E) (new addrSpace mem) ops = some w') : Consistent E w' := by
  have hinv := Machine.run_keeps Inv (fun w op w' h hs he => inv_step w op w' hV h hs he)
    (inv_new hplaced hshared) hsafe he
  exact hinv.consistent hV

/-! ### Two runs -/

/-- A zone manager with one block to hand out, and page tables that are never written: no mapping
of the two runs is present. -/
def env : MemEnv Unit where
  alloc _ size := some ((), some ⟨⟨KERNEL_VMA + 0x200000, size⟩, 0⟩)
  dealloc _ _ := some ()
  mapInternal _ zones := if zones = [] then some () else none
  phys := MemoryRegionType.physAddr
  virt := virtAddr

/-- Reservations around a page of shared memory, which is mapped through two capabilities, once where
there is space and once at an address; the first mapping ends. -/
def mapAround : List Syscall :=
  [.realloc 0 0 1 0, .smemNew 0 1, .capMap 8 0, .realloc 0 0 1 0, .realloc 0 0x3000 2 0,
    .capClone 0 8, .capMap 40 0xffff800000000000, .capMap 8 0, .capUnmap 8]

theorem run_consistent_mapAround : ∃ w, Machine.run (step env) (new .new ()) mapAround = some w ∧
    Consistent env w := by
  have hsome : (Machine.run (step env) (new .new ()) mapAround).isSome = true := by decide +kernel
  have hsafe : Machine.Along (step env) (Safe env) (new .new ()) mapAround := by decide +kernel
  have hshared : ∀ r, ¬ VirtMapper.new.HasRegion r .shared := by
    rintro r ⟨l, hl, -⟩
    simp [VirtMapper.new, SortedMap.empty] at hl
  obtain ⟨w, hw⟩ := Option.isSome_iff_exists.1 hsome
  exact ⟨w, hw, run_consistent virtAddr_isVirt .new () wellPlaced_new hshared mapAround hsafe hw⟩

/-- The lower half is reserved, a page of shared memory is mapped at the start of the upper half, and
one more page is reserved. -/
def reserveLow : List Syscall :=
  [.realloc 0 0 (2 ^ 35 - 1) 0, .smemNew 0 1, .capMap 8 0xffff800000000000, .realloc 0 0 1 0]

/-- The shared page, at the address to which `VirtAddr::new` moves the end of the lower half. -/
def sharedPage : VirtRange := ⟨0xffff800000000000, 0x1000⟩

/-- The last page takes the place of the shared one: the object keeps a range for which there is no
region of type `Shared`, and `cap_unmap` panics. -/
theorem not_consistent_reserveLow : ∃ w object, Machine.run (step env) (new .new ()) reserveLow = some w ∧
    (8, ⟨0⟩) ∈ w.issued ∧ w.proc.objects[0]? = some object ∧ object.capData[8]? = some sharedPage ∧
    ¬ w.proc.addrSpace.HasRegion sharedPage .shared ∧ step env w (.capUnmap 8) = none := by
  have hsome : (Machine.run (step env) (new .new ()) reserveLow).isSome = true := by decide +kernel
  have hissued : (Machine.run (step env) (new .new ()) reserveLow).map
      (fun w => w.issued.map fun e => (e.1, e.2.ptr)) = some [(8, 0)] := by decide +kernel
  have hdata : (Machine.run (step env) (new .new ()) reserveLow).map
      (fun w => w.proc.objects[0]?.map fun object => object.capData[8]?)
      = some (some (some sharedPage)) := by decide +kernel
  have hregion : (Machine.run (step env) (new .new ()) reserveLow).map
      (fun w => (w.proc.addrSpace.virtMap.get? sharedPage).map VirtLayout.atype)
      = some (some .virtMem) := by decide +kernel
  have hpanic : ((Machine.run (step env) (new .new ()) reserveLow).map
      fun w => (step env w (.capUnmap 8)).isNone) = some true := by decide +kernel
  obtain ⟨w, hw⟩ := Option.isSome_iff_exists.1 hsome
  rw [hw, Option.map_some, Option.some.injEq] at hissued hdata hregion hpanic
  obtain ⟨object, hobject, hcapData⟩ := Option.map_eq_some_iff.1 hdata
  obtain ⟨⟨id, ⟨ptr⟩⟩, ho, he⟩ := List.mem_map.1 (hissued.symm ▸ List.mem_singleton_self (8, 0))
  simp only [Prod.mk.injEq] at he
  obtain ⟨rfl, rfl⟩ := he
  refine ⟨w, object, hw, ho, hobject, hcapData, ?_, by simpa using hpanic⟩
  rintro ⟨l, hl, hty⟩
  rw [SortedMap.get?_eq_some.2 hl, Option.map_some, hty] at hregion
  simp at hregion

end SmemWorld
end AuroraOs
