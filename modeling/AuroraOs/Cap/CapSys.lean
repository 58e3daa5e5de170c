import AuroraOs.Mem.MapGiven
import AuroraOs.Cap.SharedMemRun
import AuroraOs.Cap.FutexRef

/-!
# System calls on capabilities

`cap_destroy`, `cap_clone`, `cap_map` and `cap_unmap` of `kernel/src/cap/sys.rs`, with `get_capmap` of
`kernel/src/sched/process.rs`.  User code passes any word for an id, and the type of the object is read out
of it before the capability is looked up: `cap_object_type` panics for a type that does not exist, and
`get_capmap` for a type that has no map yet.
-/

namespace AuroraOs

/-- `Channel`; the queue of a channel plays no part here. -/
structure Channel where

/-- `Key`. -/
structure Key where
  id : ℕ

instance : CapObject Channel := ⟨.channel⟩

instance : CapObject Key := ⟨.key⟩

/-- `CapSys`: the operations of a capability map, as they act on the process that has it. -/
structure CapSys (S : Type) where
  destroy : S → CapId → Option (S × Bool)
  cloneCap : S → CapId → CapFlags → Option (S × Option CapId)

/-- `CapSys` for `CapMap`. -/
def CapSys.ofMap {S T : Type} [CapObject T] (get : S → CapMap T) (set : S → CapMap T → S) : CapSys S where
  destroy s id :=
    let (map, found) := (get s).destroy id
    some (set s map, found)
  cloneCap s id flags := do
    let (map, out) ← (get s).cloneCap id flags
    some (set s map, out)

/-- The maps have the same capabilities under the same ids, and give the same ids next. -/
structure CapMap.Same {T : Type} (map map' : CapMap T) : Prop where
  nextId : map'.nextId = map.nextId
  data : map'.data.Equiv map.data

/-- There is an id left for a clone of the capability. -/
def CapMap.Room {T : Type} (map : CapMap T) (id : CapId) : Prop := map.data[id]?.isSome → map.nextId < 2 ^ 59

namespace FutexWorld

variable (w : FutexWorld) (m : ℕ)

/-- `FutexMap::destroy`: what `remove` returns is dropped. -/
def mapDestroy (id : CapId) : Option (FutexWorld × Bool) :=
  match (w.maps[m]?).bind (·.data[id]?) with
  | none => some (w, false)
  | some _ => do
      let w ← w.step (.remove m id)
      let w ← w.step (.drop 0)
      some (w, true)

/-- `FutexMap::clone_cap`. -/
def mapCloneCap (id : CapId) (flags : CapFlags) : Option (FutexWorld × Option CapId) :=
  match (w.maps[m]?).bind fun map => (map.derive id flags).map fun cap => (map, cap) with
  | none => some (w, none)
  | some (map, cap) => do
      let (_, cap) ← map.takeId cap
      let w ← w.step (.cloneCap m id flags)
      some (w, some cap.id)

end FutexWorld

namespace Process

variable {σ : Type} (E : MemEnv σ) (p : Process σ)

/-- The shared memory that an id stands for. -/
def objectOf (id : CapId) : Option SharedMem := (p.smem.data[id]?).bind fun cap => p.objects[cap.object.ptr]?

/-- Where shared memory is not mapped yet, the page tables take it; and its range at a given address does
not pass the end of the address space. -/
def MapRoom (a1 a2 : Usize) : Prop :=
  ∀ object ∈ p.objectOf a1.val, object.capData[a1.val]? = none →
    ∀ l ∈ Map.virtLayout E.phys object (CapId.flags a1.val),
      if a2.val = 0 then ∀ r, p.addrSpace.findRange E.virt l.size = some (some r) → VirtMapper.Takes E p.mem l r
      else pageAligned a2.val → ∀ vaddr ∈ E.virt.new a2.val, VirtMapper.FitsAt E p.mem p.addrSpace l vaddr

/-- Where shared memory is mapped, the page tables give it back. -/
def UnmapRoom (a1 : Usize) : Prop :=
  ∀ object ∈ p.objectOf a1.val, ∀ r ∈ object.capData[a1.val]?, ∀ l ∈ p.addrSpace.virtMap.get? r,
    VirtMapper.TakesBack E p.mem l r

end Process

/-- A process with all its capabilities.  The map of its futexes is one of those that the kernel has. -/
structure CapProcess (σ : Type) where
  proc : Process σ
  channels : CapMap (Arc Channel)
  keys : CapMap (Arc Key)
  futexes : FutexWorld
  pid : ℕ

namespace CapProcess

variable {σ : Type} (E : MemEnv σ) (p : CapProcess σ)

/-- `get_capmap`; `none` is a `todo!`. -/
def getCapmap : CapObjectType → Option (CapSys (CapProcess σ))
  | .channel => some (.ofMap channels fun p map => { p with channels := map })
  | .futex => some
      { destroy p id := do
          let (futexes, found) ← p.futexes.mapDestroy p.pid id
          some ({ p with futexes := futexes }, found)
        cloneCap p id flags := do
          let (futexes, out) ← p.futexes.mapCloneCap p.pid id flags
          some ({ p with futexes := futexes }, out) }
  | .sMem => some (.ofMap (fun p => p.proc.smem) fun p map => { p with proc := { p.proc with smem := map } })
  | .key => some (.ofMap keys fun p map => { p with keys := map })
  | .mmio | .interrupt | .port => none

/-- `cap_destroy`. -/
def capDestroy (a1 : Usize) : Option (CapProcess σ × SysErr) := do
  let typ ← CapId.capObjectType a1.val
  let map ← getCapmap typ
  let (p, found) ← map.destroy p a1.val
  some (p, if found then .ok else .invlId)

/-- `cap_clone`. -/
def capClone (options : BitVec 32) (a1 : Usize) : Option (CapProcess σ × SysErr × CapId) := do
  let typ ← CapId.capObjectType a1.val
  let map ← getCapmap typ
  let (p, out) ← map.cloneCap p a1.val (.fromBitsTruncate options.toNat)
  match out with
  | some id => some (p, .ok, id)
  | none => some (p, .invlId, 0)

/-- `cap_map`. -/
def capMap (a1 a2 : Usize) : Option (CapProcess σ × SysRet) := do
  let (proc, out) ← p.proc.capMap E a1 a2
  some ({ p with proc := proc }, .ofRange id out)

/-- `cap_unmap`. -/
def capUnmap (a1 : Usize) : Option (CapProcess σ × SysErr) := do
  let (proc, out) ← p.proc.capUnmap E a1
  match out with
  | .ok _ => some ({ p with proc := proc }, .ok)
  | .error err => some ({ p with proc := proc }, err)

/-! ### Runs -/

/-- What happens to a process: the four calls, those that make shared memory and resize regions, and
capabilities and futexes that come from elsewhere. -/
inductive Op
  | capDestroy (a1 : Usize)
  | capClone (options : BitVec 32) (a1 : Usize)
  | capMap (a1 a2 : Usize)
  | capUnmap (a1 : Usize)
  | smemNew (options : BitVec 32) (a1 : Usize)
  | realloc (options : BitVec 32) (a1 a2 a3 : Usize)
  | channel (cap : Capability (Arc Channel))
  | key (cap : Capability (Arc Key))
  | futex (op : FutexWorld.Op)

/-- One operation; `none` is a panic. -/
def step : Op → Option (CapProcess σ)
  | .capDestroy a1 => (p.capDestroy a1).map Prod.fst
  | .capClone options a1 => (p.capClone options a1).map Prod.fst
  | .capMap a1 a2 => (p.capMap E a1 a2).map Prod.fst
  | .capUnmap a1 => (p.capUnmap E a1).map Prod.fst
  | .smemNew options a1 => (p.proc.smemNew E options a1).map fun r => { p with proc := r.1 }
  | .realloc options a1 a2 a3 => (p.proc.realloc E options a1 a2 a3).map fun r => { p with proc := r.1 }
  | .channel cap => (p.channels.insert cap).map fun r => { p with channels := r.1 }
  | .key cap => (p.keys.insert cap).map fun r => { p with keys := r.1 }
  | .futex op => (p.futexes.step op).map fun futexes => { p with futexes := futexes }

/-- A process that was just started, in an address space of its own. -/
def new (addrSpace : VirtMapper) (mem : σ) (sched : ThreadList.World) (processes pid : ℕ) : CapProcess σ :=
  ⟨⟨.new, [], addrSpace, mem⟩, .new, .new, .init sched processes, pid⟩

/-! ### What the calls are to do -/

/-- The process has a capability with the id. -/
def HasCap (id : CapId) : Prop :=
  p.channels.data[id]?.isSome ∨ p.keys.data[id]?.isSome ∨ p.proc.smem.data[id]?.isSome ∨
    ∃ map ∈ p.futexes.maps[p.pid]?, map.data[id]?.isSome

/-- The capability maps, the address space, the objects and the rest of memory are as before. -/
structure Unchanged (p p' : CapProcess σ) : Prop where
  channels : p.channels.Same p'.channels
  keys : p.keys.Same p'.keys
  smem : p.proc.smem.Same p'.proc.smem
  futexes : p'.futexes = p.futexes
  addrSpace : p'.proc.addrSpace = p.proc.addrSpace
  objects : p'.proc.objects = p.proc.objects
  mem : p'.proc.mem = p.proc.mem

/-- A call returns, and where there is no capability with the id it fails and changes nothing. -/
def Answers {α : Type} (p : CapProcess σ) (id : CapId) (invlId : α) (out : Option (CapProcess σ × α)) : Prop :=
  ∃ p' a, out = some (p', a) ∧ (¬ p.HasCap id → a = invlId ∧ Unchanged p p')

/-- The four calls answer. -/
def Right (p : CapProcess σ) : Op → Prop
  | .capDestroy a1 => Answers p a1.val .invlId (p.capDestroy a1)
  | .capClone options a1 => Answers p a1.val (.invlId, 0) (p.capClone options a1)
  | .capMap a1 a2 => Answers p a1.val ⟨.invlId, 0, 0⟩ (p.capMap E a1 a2)
  | .capUnmap a1 => Answers p a1.val .invlId (p.capUnmap E a1)
  | _ => True

/-- There is an id left for a clone, and the count of the `Arc` goes on. -/
def CloneRoom (id : CapId) : Prop :=
  p.channels.Room id ∧ p.keys.Room id ∧ p.proc.smem.Room id ∧ ∀ map ∈ p.futexes.maps[p.pid]?,
    ∀ cap ∈ map.data[id]?, map.nextId < 2 ^ 59 ∧ p.futexes.count cap.object < 2 ^ 63

/-- The type field of the id is that of a type that the call can deal with, and the call has room. -/
def Fits (p : CapProcess σ) : Op → Prop
  | .capDestroy a1 => getBits a1.val 2 5 < 4
  | .capClone _ a1 => getBits a1.val 2 5 < 4 ∧ p.CloneRoom a1.val
  | .capMap a1 a2 => getBits a1.val 2 5 < 7 ∧ getBits a1.val 2 5 ≠ 4 ∧ p.proc.MapRoom E a1 a2
  | .capUnmap a1 => getBits a1.val 2 5 < 7 ∧ getBits a1.val 2 5 ≠ 4 ∧ p.proc.UnmapRoom E a1
  | _ => True

/-- The ranges that the operation takes lie in one half of the address space. -/
def Within (p : CapProcess σ) : Op → Prop
  | .capMap a1 a2 => a2.val = 0 → ∀ object ∈ p.proc.objectOf a1.val, object.capData[a1.val]? = none →
      ∀ l ∈ Map.virtLayout E.phys object (CapId.flags a1.val), p.proc.addrSpace.GapWithin l.size
  | .realloc options a1 a2 a3 => p.proc.addrSpace.ReallocWithin E ⟨p.proc.mem, options, a1, a2, a3⟩
  | _ => True

instance : (op : Op) → Decidable (Within E p op)
  | .capMap a1 a2 => inferInstanceAs (Decidable (a2.val = 0 → ∀ object ∈ p.proc.objectOf a1.val,
      object.capData[a1.val]? = none → ∀ l ∈ Map.virtLayout E.phys object (CapId.flags a1.val),
        p.proc.addrSpace.GapWithin l.size))
  | .realloc options a1 a2 a3 =>
      inferInstanceAs (Decidable (p.proc.addrSpace.ReallocWithin E ⟨p.proc.mem, options, a1, a2, a3⟩))
  | .capDestroy _ | .capClone _ _ | .capUnmap _ | .smemNew _ _ | .channel _ | .key _ | .futex _ => isTrue trivial

end CapProcess

/-! ### Types -/

namespace CapId

variable {id : CapId} {typ : CapObjectType}

theorem capObjectType_eq_some : capObjectType id = some typ ↔ getBits id 2 5 = typ.asUsize := by
  rw [capObjectType]
  generalize getBits id 2 5 = n
  constructor
  · intro h
    unfold CapObjectType.fromUsize at h
    split at h
    all_goals first | (obtain rfl := Option.some.inj h; rfl) | cases h
  · rintro rfl
    exact CapObjectType.fromUsize_asUsize typ

theorem capObjectType_eq_none : capObjectType id = none ↔ 7 ≤ getBits id 2 5 := by
  rw [capObjectType]
  generalize getBits id 2 5 = n
  constructor
  · intro h
    by_contra hlt
    have hlt : n < 7 := Nat.lt_of_not_le hlt
    interval_cases n <;> simp [CapObjectType.fromUsize] at h
  · intro h
    unfold CapObjectType.fromUsize
    split
    all_goals first | rfl | omega

end CapId

/-! ### Maps -/

namespace CapMap

variable {T : Type} [CapObject T] {map map' : CapMap T} {id cid : CapId} {cap : Capability T} {flags : CapFlags}

/-- The ids of a map tell the type of its objects. -/
theorem Numbered.capObjectType (h : map.Numbered) (hcap : map.data[id]? = some cap) :
    CapId.capObjectType id = some (CapObject.capObjectType T) := by
  obtain ⟨n, hn, flags, rfl⟩ := h.below id cap hcap
  exact Capability.capObjectType_pack (hn.trans_le h.le)

/-- An id of another type is not in the map. -/
theorem Numbered.getElem?_eq_none (h : map.Numbered)
    (hty : CapId.capObjectType id ≠ some (CapObject.capObjectType T)) : map.data[id]? = none := by
  rw [Option.eq_none_iff_forall_ne_some]
  exact fun cap hcap => hty (h.capObjectType hcap)

theorem takeId_isSome (cap : Capability T) : (map.takeId cap).isSome ↔ map.nextId < 2 ^ 59 := by
  simp only [takeId, Capability.setBaseId, Nat.shiftLeft_eq, one_mul]
  split_ifs with hlt <;> simp [hlt]

theorem insert_isSome (cap : Capability T) : (map.insert cap).isSome ↔ map.nextId < 2 ^ 59 := by
  rw [← takeId_isSome cap, insert]
  cases map.takeId cap <;> simp

theorem Numbered.insert (h : map.Numbered) (he : map.insert cap = some (map', cid)) : map'.Numbered := by
  rw [CapMap.insert, Option.bind_eq_bind, Option.bind_eq_some_iff] at he
  obtain ⟨⟨map₁, cap₁⟩, htake, he⟩ := he
  obtain ⟨rfl, -⟩ := by simpa using he
  exact (h.takeId htake).2.2.2

/-- `clone_cap` panics if there are no ids left for the clone. -/
theorem cloneCap_isSome (flags : CapFlags) : (map.cloneCap id flags).isSome ↔ map.Room id := by
  unfold cloneCap Room derive
  cases map.data[id]? with
  | none => simp
  | some cap =>
    simp only [Option.map_some, Option.isSome_some, forall_const]
    rw [← insert_isSome (cap.andFromFlags flags)]
    cases map.insert (cap.andFromFlags flags) <;> simp

theorem cloneCap_of_absent (h : map.data[id]? = none) : map.cloneCap id flags = some (map, none) := by
  rw [cloneCap, derive, h]
  rfl

theorem Numbered.cloneCap (h : map.Numbered) {out : Option CapId}
    (he : map.cloneCap id flags = some (map', out)) : map'.Numbered := by
  unfold CapMap.cloneCap at he
  cases hderive : map.derive id flags with
  | none =>
    rw [hderive] at he
    obtain ⟨rfl, -⟩ := by simpa using he
    exact h
  | some newCap =>
    rw [hderive] at he
    obtain ⟨⟨map₁, cid⟩, hins, he⟩ := Option.bind_eq_some_iff.1 he
    obtain ⟨rfl, -⟩ := by simpa using he
    exact h.insert hins

omit [CapObject T] in
theorem Same.refl (map : CapMap T) : map.Same map := ⟨rfl, .rfl⟩

omit [CapObject T] in
theorem room_of_absent (h : map.data[id]? = none) : map.Room id := by
  intro hsome
  rw [h] at hsome
  cases hsome

omit [CapObject T] in
/-- Removing what is not there changes nothing. -/
theorem remove_same (h : map.data[id]? = none) : map.Same (map.remove id).1 where
  nextId := rfl
  data := by
    apply Std.TreeMap.Equiv.of_forall_constGet?_eq
    intro k
    rw [remove, Std.TreeMap.getElem?_erase]
    split_ifs with heq
    · rw [← Nat.compare_eq_eq.1 heq, h]
    · rfl

end CapMap

namespace FutexWorld

variable {w w' : FutexWorld} {m : ℕ} {map : CapMap (Arc Futex)} {cap : FutexCap} {id : CapId} {flags : CapFlags}

theorem mapDestroy_of_absent (h : ∀ map ∈ w.maps[m]?, map.data[id]? = none) :
    w.mapDestroy m id = some (w, false) := by
  have hnone : (w.maps[m]?).bind (·.data[id]?) = none := by
    cases hm : w.maps[m]? with
    | none => rfl
    | some map => exact h map hm
  rw [mapDestroy, hnone]

/-- Every operation keeps the invariant. -/
theorem Inv.of_step (h : w.Inv) {op : Op} (he : w.step op = some w') : w'.Inv := by
  by_cases hop : ∃ i, op = .drop i
  · obtain ⟨i, rfl⟩ := hop
    cases hi : w.held[i]? with
    | none =>
      obtain rfl : w = w' := by simpa [step, hi] using he
      exact h
    | some cap =>
      obtain ⟨w₁, hdrop, hw₁, -⟩ := h.drop hi
      rw [hdrop] at he
      exact Option.some.inj he ▸ hw₁
  · exact (h.kept (fun i hi => hop ⟨i, hi⟩) he).inv

/-- `FutexMap::destroy` returns. -/
theorem Inv.mapDestroy (h : w.Inv) (m : ℕ) (id : CapId) :
    ∃ w' found, w.mapDestroy m id = some (w', found) ∧ w'.Inv := by
  rw [FutexWorld.mapDestroy]
  cases hcap : (w.maps[m]?).bind (·.data[id]?) with
  | none => exact ⟨w, false, rfl, h⟩
  | some cap =>
    obtain ⟨map, hm, hcap⟩ := Option.bind_eq_some_iff.1 hcap
    obtain ⟨w₁, hremove, hheld⟩ : ∃ w₁, w.step (.remove m id) = some w₁ ∧ w₁.held[0]? = some cap := by
      refine ⟨_, by simp only [step, hm, Option.bind_some, hcap]; rfl, rfl⟩
    have h₁ := (h.kept (fun i => by simp) hremove).inv
    obtain ⟨w₂, hdrop, h₂, -⟩ := h₁.drop hheld
    exact ⟨w₂, true, by simp only [hremove, hdrop, Option.bind_eq_bind, Option.bind_some], h₂⟩

theorem mapCloneCap_of_absent (h : ∀ map ∈ w.maps[m]?, map.data[id]? = none) :
    w.mapCloneCap m id flags = some (w, none) := by
  have hnone : ((w.maps[m]?).bind fun map => (map.derive id flags).map fun cap => (map, cap)) = none := by
    cases hm : w.maps[m]? with
    | none => rfl
    | some map => simp [CapMap.derive, h map hm]
  rw [mapCloneCap, hnone]

theorem Inv.mapCloneCap (h : w.Inv) {out : Option CapId} (he : w.mapCloneCap m id flags = some (w', out)) :
    w'.Inv := by
  unfold FutexWorld.mapCloneCap at he
  split at he
  · obtain ⟨rfl, -⟩ := by simpa using he
    exact h
  · simp only [Option.bind_eq_bind, Option.bind_eq_some_iff] at he
    obtain ⟨_, -, w₁, hstep, he⟩ := he
    obtain ⟨rfl, -⟩ := by simpa using he
    exact (h.kept (fun i => by simp) hstep).inv

/-- `Capability::clone` aborts if the `Arc` counts no further. -/
theorem Counted.capClone_isSome {refs : List ℕ} (h : Counted w.futexes refs) (hcap : cap.object.ptr ∈ refs) :
    (w.capClone cap).isSome ↔ refs.count cap.object.ptr < 2 ^ 63 := by
  have hlive := h.live _ hcap
  have hf := List.getElem?_eq_getElem hlive
  obtain ⟨-, hs, -⟩ := h.counts _ _ hf
  simp only [FutexWorld.capClone, arcClone, incRef, modify_eq_set hf, List.getElem?_set_self hlive,
    Option.bind_eq_bind, Option.bind_some, hs]
  split_ifs with hlt
  · simpa using hlt
  · simpa using hlt

/-- `insert` panics if there are no ids left. -/
theorem insert_isSome (w : FutexWorld) (m : ℕ) (cap : FutexCap) (hnum : map.Numbered) :
    (w.insert m map cap).isSome ↔ map.nextId < 2 ^ 59 := by
  rw [← CapMap.takeId_isSome cap, insert]
  cases htake : map.takeId cap with
  | none => simp
  | some c =>
    have hfree := (hnum.takeId htake).2.2.1
    simp [hfree]

/-- `FutexMap::clone_cap` panics if there are no ids left for the clone, and aborts if the `Arc` counts no
further. -/
theorem Inv.mapCloneCap_isSome (h : w.Inv) : (w.mapCloneCap m id flags).isSome ↔ ∀ map ∈ w.maps[m]?,
    ∀ cap ∈ map.data[id]?, map.nextId < 2 ^ 59 ∧ w.count cap.object < 2 ^ 63 := by
  cases hm : w.maps[m]? with
  | none => simp [FutexWorld.mapCloneCap, hm]
  | some map =>
    cases hcap : map.data[id]? with
    | none => simp [FutexWorld.mapCloneCap, hm, CapMap.derive, hcap]
    | some cap =>
      have hnum := h.numbered map (List.mem_of_getElem? hm)
      have hclone := h.counted.capClone_isSome (mem_refs_of_map hm hcap)
      simp only [Option.mem_some, forall_eq', hcap]
      rw [← CapMap.takeId_isSome (cap.andFromFlags flags), count_eq, ← hclone]
      simp only [FutexWorld.mapCloneCap, hm, CapMap.derive, hcap, Option.bind_some, Option.map_some, step]
      cases htake : map.takeId (cap.andFromFlags flags) with
      | none => simp
      | some c =>
        have hlt := (CapMap.takeId_isSome _).1 (Option.isSome_of_eq_some htake)
        cases hw : w.capClone cap with
        | none => simp
        | some r =>
          obtain ⟨w₁, out⟩ := r
          obtain ⟨w₂, hins⟩ := Option.isSome_iff_exists.1
            ((insert_isSome w₁ m { out with flags := out.flags &&& flags } hnum).2 hlt)
          simp [hins]

end FutexWorld

end AuroraOs
