import AuroraOs.Cap.SharedMem
import AuroraOs.Sched.ThreadListRun

/-!
# The life of a kernel futex

`KFutex::new`, `inc_ref`, `dec_ref` and `destroy` of `kernel/src/sched/sync.rs`, with `new`, `clone` and `drop` of
`Capability` and the operations of the `FutexMap` of every process.  A futex counts its capabilities in
`ref_count`, beside the count of its `Arc`.

`fetch_sub` returns the count before the subtraction, and `dec_ref` destroys the futex if that is zero.
It is one when the last capability is dropped.
-/

namespace AuroraOs

open LinkedList Machine

/-- `KFutex`, as far as its life goes, with the count of its `Arc`. -/
structure Futex where
  id : ℕ
  alive : Bool
  refCount : ℕ
  strong : ℕ

instance : CapObject Futex := ⟨.futex⟩

abbrev FutexCap := Capability (Arc Futex)

/-- The futexes, the capabilities that kernel code holds, the futex map of each process, and the threads.
`destroyed` records the calls of `destroy`, last one first. -/
structure FutexWorld where
  futexes : List Futex
  held : List FutexCap
  maps : List (CapMap (Arc Futex))
  sched : ThreadList.World
  destroyed : List (Arc Futex)

namespace FutexWorld

variable (w : FutexWorld)

/-- `KFutex::inc_ref`. -/
def incRef (object : Arc Futex) : FutexWorld :=
  { w with
    futexes := w.futexes.modify object.ptr fun f => { f with refCount := (f.refCount + 1) % usizeMod } }

/-- `Arc::clone`, which aborts above `isize::MAX`. -/
def arcClone (object : Arc Futex) : Option FutexWorld := do
  let f ← w.futexes[object.ptr]?
  if f.strong < 2 ^ 63 then
    some { w with futexes := w.futexes.set object.ptr { f with strong := f.strong + 1 } }
  else none

/-- The drop of an `Arc`. -/
def arcDrop (object : Arc Futex) : FutexWorld :=
  { w with futexes := w.futexes.modify object.ptr fun f => { f with strong := f.strong - 1 } }

/-- The list of the threads that wait for a futex. -/
def waitList (object : Arc Futex) : ListId := .futex (w.sched.tlist.fuid object.ptr)

/-- `dealloc_state` of a futex; `none` is the failed assertion. -/
def deallocState (object : Arc Futex) : Option FutexWorld :=
  let id := w.waitList object
  if w.sched.tlist.nodes id then
    if (w.sched.tlist.lists.list id).len = 0 then
      some { w with
        sched := { w.sched with
          tlist := { w.sched.tlist with nodes := Function.update w.sched.tlist.nodes id false } } }
    else none
  else some w

/-- `KFutex::destroy`. -/
def destroy (object : Arc Futex) : Option FutexWorld := do
  let w : FutexWorld := { w with
    futexes := w.futexes.modify object.ptr fun f => { f with alive := false }
    destroyed := object :: w.destroyed }
  let (tlist, _) ← w.sched.tlist.innerStateMove 0 (.futexBlock object.ptr) .ready (usizeMod - 1)
  deallocState { w with sched := { w.sched with tlist := tlist } } object

/-- `KFutex::dec_ref`. -/
def decRef (object : Arc Futex) : Option FutexWorld := do
  let f ← w.futexes[object.ptr]?
  let w := { w with
    futexes := w.futexes.set object.ptr { f with refCount := (f.refCount + usizeMod - 1) % usizeMod } }
  if f.refCount = 0 then destroy w object else some w

/-- `Capability::clone`. -/
def capClone (cap : FutexCap) : Option (FutexWorld × FutexCap) := do
  let w ← (w.incRef cap.object).arcClone cap.object
  some (w, cap.clone)

/-- The drop of a `Capability`. -/
def capDrop (cap : FutexCap) : Option FutexWorld := do
  let w ← w.decRef cap.object
  some (w.arcDrop cap.object)

/-- `KFutex::new`, with `Capability::new`. -/
def kfutexNew : FutexWorld :=
  let object : Arc Futex := ⟨w.futexes.length⟩
  let id := w.futexes.length % usizeMod
  let tlist := { w.sched.tlist with
    fuid := Function.update w.sched.tlist.fuid object.ptr id
    nodes := Function.update w.sched.tlist.nodes (.futex id) true }
  let w := incRef { w with
    futexes := w.futexes ++ [⟨id, true, 0, 1⟩], sched := { w.sched with tlist := tlist } } object
  { w with held := .new object .READ :: w.held }

/-- `FutexMap::insert` on the map of a process; a capability that it displaces is dropped. -/
def insert (m : ℕ) (map : CapMap (Arc Futex)) (cap : FutexCap) : Option FutexWorld := do
  let (map, cap) ← map.takeId cap
  let w := { w with maps := w.maps.set m (map.store cap) }
  match map.data[cap.id]? with
  | none => some w
  | some old => capDrop w old

/-- The operations.  Capabilities that kernel code holds are chosen by their position, and so are the maps. -/
inductive Op
  | new
  | clone (i : ℕ)
  | cloneCap (m : ℕ) (id : CapId) (flags : CapFlags)
  | insert (m i : ℕ)
  | remove (m : ℕ) (id : CapId)
  | drop (i : ℕ)
  /-- a step of the scheduler -/
  | sched (op : ThreadList.Op)

/-- One operation; `none` is a panic. -/
def step : Op → Option FutexWorld
  | .new => some w.kfutexNew
  | .clone i =>
      match w.held[i]? with
      | none => some w
      | some cap => do
          let (w, cap) ← w.capClone cap
          some { w with held := cap :: w.held }
  | .cloneCap m id flags =>
      match w.maps[m]?, (w.maps[m]?).bind (·.data[id]?) with
      | some map, some cap => do
          let (w, out) ← w.capClone cap
          insert w m map { out with flags := out.flags &&& flags }
      | _, _ => some w
  | .insert m i =>
      match w.maps[m]?, w.held[i]? with
      | some map, some cap => insert { w with held := w.held.eraseIdx i } m map cap
      | _, _ => some w
  | .remove m id =>
      match w.maps[m]?, (w.maps[m]?).bind (·.data[id]?) with
      | some map, some cap => some { w with maps := w.maps.set m (map.remove id).1, held := cap :: w.held }
      | _, _ => some w
  | .drop i =>
      match w.held[i]? with
      | none => some w
      | some cap => capDrop { w with held := w.held.eraseIdx i } cap
  | .sched op => (w.sched.step op).map fun sched => { w with sched := sched }

/-- No futexes, in a kernel with some processes. -/
def init (sched : ThreadList.World) (processes : ℕ) : FutexWorld :=
  ⟨[], [], List.replicate processes .new, sched, []⟩

end FutexWorld

/-- The capabilities in a map. -/
def CapMap.caps {T : Type} (map : CapMap T) : List (Capability T) := map.data.toList.map Prod.snd

namespace FutexWorld

variable (w : FutexWorld)

/-- All capabilities. -/
def caps : List FutexCap := w.held ++ w.maps.flatMap CapMap.caps

/-- The number of capabilities of a futex. -/
def count (object : Arc Futex) : ℕ := w.caps.countP fun cap => cap.object.ptr == object.ptr

/-- The last capability of the futex is dropped. -/
def LastDropped (w w' : FutexWorld) (object : Arc Futex) : Prop := 0 < w.count object ∧ w'.count object = 0

/-- `destroy` is run once: the threads that waited are ready, and the node of their list is freed. -/
structure Destroyed (w w' : FutexWorld) (object : Arc Futex) : Prop where
  once : w'.destroyed = object :: w.destroyed
  ready : ∀ p ∈ w.sched.on (w.waitList object), (w'.sched.tlist.thread p).state = .ready
  freed : w'.sched.tlist.nodes (w.waitList object) = false

/-- The operation destroys a futex when its last capability is dropped, and not before. -/
def Right (w : FutexWorld) (op : Op) : Prop :=
  ∀ w' ∈ w.step op, (∀ object, LastDropped w w' object → Destroyed w w' object) ∧
    ((∀ object, ¬ LastDropped w w' object) → w'.destroyed = w.destroyed)

/-- The operation does not drop the last capability of a futex. -/
def Keeps (w : FutexWorld) : Op → Prop
  | .drop i => ∀ cap ∈ w.held[i]?, 1 < w.count cap.object
  | _ => True

/-! ### The capabilities of a map -/

end FutexWorld

namespace CapMap

variable {T : Type} {map : CapMap T} {cap : Capability T} {id : CapId}

/-- A key that is not in the map gets its own entry. -/
theorem caps_insert (h : map.data[id]? = none) :
    ((map.data.insert id cap).toList.map Prod.snd).Perm (cap :: map.caps) := by
  have hkeep : map.data.toList.filter (fun e => !decide (id = e.1)) = map.data.toList := by
    rw [List.filter_eq_self]
    intro e he
    have hne : id ≠ e.1 := by
      rintro rfl
      rw [Std.TreeMap.mem_toList_iff_getElem?_eq_some.1 he] at h
      exact absurd h (Option.some_ne_none _)
    simpa using hne
  have hperm := Std.TreeMap.toList_insert_perm (t := map.data) (k := id) (v := cap)
  simpa [caps, hkeep] using hperm.map Prod.snd

/-- Removing takes the capability out. -/
theorem caps_remove (h : map.data[id]? = some cap) : map.caps.Perm (cap :: (map.remove id).1.caps) := by
  have hback : map.data.Equiv ((map.data.erase id).insert id cap) := by
    apply Std.TreeMap.Equiv.of_forall_constGet?_eq
    intro k
    rw [Std.TreeMap.getElem?_insert, Std.TreeMap.getElem?_erase]
    split_ifs with heq
    · rw [← Nat.compare_eq_eq.1 heq, h]
    · rfl
  have hnone : (map.remove id).1.data[id]? = none := by
    rw [remove, Std.TreeMap.getElem?_erase, if_pos (Nat.compare_eq_eq.2 rfl)]
  rw [caps, hback.toList_eq]
  exact caps_insert hnone

/-- The numbers of the ids lie below the counter. -/
structure Numbered [CapObject T] (map : CapMap T) : Prop where
  le : map.nextId ≤ 2 ^ 59
  below : ∀ id cap, map.data[id]? = some cap →
    ∃ n < map.nextId, ∃ flags, id = Capability.pack n (CapObject.capObjectType T) flags

variable [CapObject T]

/-- `insert` displaces nothing. -/
theorem Numbered.takeId (h : map.Numbered) {map' : CapMap T} {cap' : Capability T}
    (he : map.takeId cap = some (map', cap')) :
    cap'.object = cap.object ∧ map'.data = map.data ∧ map'.data[cap'.id]? = none ∧
      (map'.store cap').Numbered := by
  simp only [CapMap.takeId, Capability.setBaseId, Nat.shiftLeft_eq, one_mul] at he
  split_ifs at he with hlt
  · obtain ⟨rfl, rfl⟩ := by simpa using he
    have hmod : (map.nextId + 1) % usizeMod = map.nextId + 1 :=
      Nat.mod_eq_of_lt (by simp only [usizeMod]; omega)
    refine ⟨rfl, rfl, ?_, ⟨?_, ?_⟩⟩
    · rw [Option.eq_none_iff_forall_ne_some]
      intro old hold
      obtain ⟨n, hn, flags, hid⟩ := h.below _ _ hold
      have := Capability.pack_injective hlt (by omega) hid
      omega
    · simp only [store, hmod]
      omega
    · intro id old hold
      simp only [store, hmod, Std.TreeMap.getElem?_insert, Nat.compare_eq_eq] at hold ⊢
      split_ifs at hold with heq
      · exact ⟨map.nextId, Nat.lt_succ_self _, cap.flags, heq.symm⟩
      · obtain ⟨n, hn, flags, hid⟩ := h.below id old hold
        exact ⟨n, Nat.lt_succ_of_lt hn, flags, hid⟩
  · simp at he

omit [CapObject T] in
theorem remove_data {id' : CapId} (h : (map.remove id).1.data[id']? = some cap) :
    map.data[id']? = some cap := by
  rw [remove, Std.TreeMap.getElem?_erase] at h
  split_ifs at h
  exact h

theorem Numbered.remove (h : map.Numbered) : (map.remove id).1.Numbered :=
  ⟨h.le, fun id' cap hcap => h.below id' cap (remove_data hcap)⟩

theorem numbered_new : (new : CapMap T).Numbered := ⟨Nat.zero_le _, by simp [new]⟩

end CapMap

/-- One of some lists gets an element. -/
theorem flatMap_set_perm {α β : Type} {f : α → List β} {l : List α} {m : ℕ} {a b : α} {x : β}
    (h : l[m]? = some a) (hb : (f b).Perm (x :: f a)) :
    ((l.set m b).flatMap f).Perm (x :: l.flatMap f) := by
  obtain ⟨hm, rfl⟩ := List.getElem?_eq_some_iff.1 h
  calc ((l.set m b).flatMap f).Perm ((b :: l.eraseIdx m).flatMap f) :=
        (List.set_perm_cons_eraseIdx hm b).flatMap_right f
    _ = f b ++ (l.eraseIdx m).flatMap f := List.flatMap_cons
    List.Perm _ (x :: f l[m] ++ (l.eraseIdx m).flatMap f) := hb.append_right _
    _ = x :: (l[m] :: l.eraseIdx m).flatMap f := by rw [List.cons_append, List.flatMap_cons]
    List.Perm _ (x :: l.flatMap f) := ((List.getElem_cons_eraseIdx_perm hm).flatMap_right f).cons x

namespace FutexWorld

/-! ### The two counts -/

variable (w : FutexWorld)

/-- The futexes that the capabilities refer to, one for each capability. -/
def refs : List ℕ := w.caps.map fun cap => cap.object.ptr

theorem count_eq (object : Arc Futex) : w.count object = w.refs.count object.ptr := by
  rw [refs, List.count, List.countP_map]
  rfl

/-- Both counts of each futex are the number of its capabilities. -/
structure Counted (futexes : List Futex) (refs : List ℕ) : Prop where
  counts : ∀ i f, futexes[i]? = some f →
    f.refCount = refs.count i ∧ f.strong = refs.count i ∧ refs.count i ≤ 2 ^ 63
  live : ∀ i ∈ refs, i < futexes.length

variable {w} {w' : FutexWorld} {futexes futexes' : List Futex} {refs refs' : List ℕ} {cap out : FutexCap}
  {i : ℕ} {f : Futex} {op : Op}

theorem Counted.perm (h : Counted futexes refs) (hp : refs.Perm refs') : Counted futexes refs' where
  counts := fun i f hf => by
    rw [← hp.count_eq i]
    exact h.counts i f hf
  live := fun i hi => h.live i (hp.mem_iff.2 hi)

/-- The counts of one futex change. -/
theorem Counted.set (h : Counted futexes refs) (hlive : i < futexes.length)
    (hother : ∀ k, k ≠ i → refs'.count k = refs.count k)
    (hf : f.refCount = refs'.count i ∧ f.strong = refs'.count i ∧ refs'.count i ≤ 2 ^ 63) :
    Counted (futexes.set i f) refs' where
  counts := by
    intro k g hg
    rw [List.getElem?_set] at hg
    split_ifs at hg with hk
    · obtain rfl := Option.some.inj hg
      exact hk ▸ hf
    · rw [hother k fun heq => hk heq.symm]
      exact h.counts k g hg
  live := by
    intro k hk
    rw [List.length_set]
    by_cases hki : k = i
    · exact hki ▸ hlive
    · exact h.live k (List.count_pos_iff.1 (hother k hki ▸ List.count_pos_iff.2 hk))

theorem modify_eq_set (hf : futexes[i]? = some f) (g : Futex → Futex) :
    futexes.modify i g = futexes.set i (g f) := by
  rw [List.modify_eq_set_getElem?, hf]
  rfl

/-- `inc_ref` and `Arc::clone`. -/
theorem Counted.capClone (h : Counted w.futexes refs) (hcap : cap.object.ptr ∈ refs)
    (he : w.capClone cap = some (w', out)) :
    ∃ futexes, w' = { w with futexes := futexes } ∧ out.object = cap.object ∧
      Counted futexes (cap.object.ptr :: refs) := by
  have hlive := h.live _ hcap
  have hf := List.getElem?_eq_getElem hlive
  obtain ⟨hr, hs, -⟩ := h.counts _ _ hf
  rw [FutexWorld.capClone, Option.bind_eq_bind, Option.bind_eq_some_iff] at he
  obtain ⟨w₁, harc, hw⟩ := he
  obtain ⟨rfl, rfl⟩ := by simpa using hw
  simp only [arcClone, incRef, modify_eq_set hf, List.getElem?_set_self hlive, Option.bind_eq_bind, Option.bind_some] at harc
  split_ifs at harc with hlt
  obtain rfl := Option.some.inj harc
  refine ⟨_, rfl, rfl, ?_⟩
  rw [List.set_set]
  refine h.set hlive (fun k hk => List.count_cons_of_ne hk.symm) ?_
  rw [List.count_cons_self]
  simp only [usizeMod]
  omega

/-- `dec_ref`, whose `fetch_sub` does not return zero, and the drop of the `Arc`. -/
theorem Counted.capDrop (h : Counted w.futexes (cap.object.ptr :: refs)) :
    ∃ futexes, w.capDrop cap = some { w with futexes := futexes } ∧ Counted futexes refs := by
  have hlive := h.live _ List.mem_cons_self
  have hf := List.getElem?_eq_getElem hlive
  obtain ⟨hr, hs, hle⟩ := h.counts _ _ hf
  rw [List.count_cons_self] at hr hs hle
  have hne : w.futexes[cap.object.ptr].refCount ≠ 0 := by omega
  have hdec : w.decRef cap.object = some { w with
      futexes := w.futexes.set cap.object.ptr
        { w.futexes[cap.object.ptr] with
          refCount := (w.futexes[cap.object.ptr].refCount + usizeMod - 1) % usizeMod } } := by
    rw [decRef, hf, Option.bind_eq_bind, Option.bind_some, if_neg hne]
  refine ⟨_, by rw [FutexWorld.capDrop, hdec]; rfl, ?_⟩
  rw [modify_eq_set (List.getElem?_set_self hlive), List.set_set]
  refine h.set hlive (fun k hk => (List.count_cons_of_ne hk.symm).symm) ?_
  simp only [usizeMod]
  omega

/-- `KFutex::new`, with `Capability::new`. -/
theorem Counted.kfutexNew (h : Counted w.futexes w.refs) :
    Counted w.kfutexNew.futexes (w.futexes.length :: w.refs) := by
  have hnone : w.refs.count w.futexes.length = 0 :=
    List.count_eq_zero.2 fun hmem => lt_irrefl _ (h.live _ hmem)
  have hnew : w.kfutexNew.futexes = w.futexes ++ [⟨w.futexes.length % usizeMod, true, 1, 1⟩] := by
    rw [FutexWorld.kfutexNew, incRef, modify_eq_set (List.getElem?_concat_length)]
    simp [usizeMod]
  rw [hnew]
  refine ⟨?_, ?_⟩
  · intro i f hf
    rw [List.getElem?_append] at hf
    split_ifs at hf with hi
    · rw [List.count_cons_of_ne hi.ne']
      exact h.counts i f hf
    · obtain ⟨hlt, rfl⟩ := List.getElem?_eq_some_iff.1 hf
      obtain rfl : i = w.futexes.length := by
        simp only [List.length_singleton] at hlt
        omega
      simp [hnone]
  · intro i hi
    rw [List.length_append, List.length_singleton]
    rcases List.mem_cons.1 hi with rfl | hi
    · exact Nat.lt_succ_self _
    · exact (h.live i hi).trans (Nat.lt_succ_self _)

/-! ### Where the capabilities are -/

variable {m : ℕ} {map map' : CapMap (Arc Futex)}

/-- A map gets a capability. -/
theorem caps_set (hm : w.maps[m]? = some map) (hmap : map'.caps.Perm (cap :: map.caps)) :
    ({ w with maps := w.maps.set m map' } : FutexWorld).caps.Perm (cap :: w.caps) :=
  ((flatMap_set_perm hm hmap).append_left w.held).trans List.perm_middle

/-- Kernel code gives a capability away. -/
theorem caps_eraseIdx (hi : w.held[i]? = some cap) :
    w.caps.Perm (cap :: ({ w with held := w.held.eraseIdx i } : FutexWorld).caps) := by
  obtain ⟨hlt, rfl⟩ := List.getElem?_eq_some_iff.1 hi
  exact ((List.getElem_cons_eraseIdx_perm hlt).append_right _).symm

theorem refs_eraseIdx (hi : w.held[i]? = some cap) :
    w.refs.Perm (cap.object.ptr :: ({ w with held := w.held.eraseIdx i } : FutexWorld).refs) :=
  (caps_eraseIdx hi).map _

/-- A map gives a capability away. -/
theorem caps_remove (hm : w.maps[m]? = some map) {id : CapId} (hcap : map.data[id]? = some cap) :
    w.caps.Perm (cap :: ({ w with maps := w.maps.set m (map.remove id).1 } : FutexWorld).caps) := by
  obtain ⟨hlt, rfl⟩ := List.getElem?_eq_some_iff.1 hm
  have hback := caps_set (w := { w with maps := w.maps.set m (w.maps[m].remove id).1 })
    (List.getElem?_set_self hlt) (CapMap.caps_remove hcap)
  rwa [List.set_set, List.set_getElem_self] at hback

/-! ### Steps -/

/-- The invariant. -/
structure Inv (w : FutexWorld) : Prop where
  counted : Counted w.futexes w.refs
  numbered : ∀ map ∈ w.maps, map.Numbered

theorem numbered_set (hnum : ∀ map ∈ w.maps, map.Numbered) (h : map.Numbered) :
    ∀ map' ∈ w.maps.set m map, map'.Numbered := by
  intro map' hmap'
  rcases List.mem_or_eq_of_mem_set hmap' with hold | rfl
  · exact hnum map' hold
  · exact h

/-- `insert` on a map drops nothing. -/
theorem insert_spec (hnum : ∀ map ∈ w.maps, map.Numbered) (hm : w.maps[m]? = some map)
    (he : insert w m map cap = some w') :
    ∃ maps, w' = { w with maps := maps } ∧ (∀ map ∈ maps, map.Numbered) ∧
      w'.refs.Perm (cap.object.ptr :: w.refs) := by
  rw [insert, Option.bind_eq_bind, Option.bind_eq_some_iff] at he
  obtain ⟨⟨map', cap'⟩, htake, hrest⟩ := he
  obtain ⟨hobject, hdata, hfree, hnum'⟩ := (hnum map (List.mem_of_getElem? hm)).takeId htake
  simp only [hfree] at hrest
  obtain rfl := Option.some.inj hrest
  refine ⟨_, rfl, numbered_set hnum hnum', ?_⟩
  have hcaps : (map'.store cap').caps.Perm (cap' :: map.caps) := by
    rw [CapMap.caps, CapMap.caps, ← hdata]
    exact CapMap.caps_insert hfree
  rw [← hobject]
  exact (caps_set hm hcaps).map _

/-- The object of a capability that a map holds is referred to. -/
theorem mem_refs_of_map (hm : w.maps[m]? = some map) {id : CapId} (hcap : map.data[id]? = some cap) :
    cap.object.ptr ∈ w.refs :=
  List.mem_map_of_mem ((caps_remove hm hcap).mem_iff.2 List.mem_cons_self)

theorem mem_refs_of_held (hi : w.held[i]? = some cap) : cap.object.ptr ∈ w.refs :=
  List.mem_map_of_mem ((caps_eraseIdx hi).mem_iff.2 List.mem_cons_self)

/-- What an operation that drops nothing does: the invariant stays, and no futex loses a capability. -/
structure Kept (w w' : FutexWorld) : Prop where
  inv : Inv w'
  destroyed : w'.destroyed = w.destroyed
  refs : w.refs.Subperm w'.refs

theorem Inv.kept_self (h : Inv w) : Kept w w := ⟨h, rfl, .refl _⟩

/-- One capability more. -/
theorem Kept.of_cons {p : ℕ} (hcounted : Counted w'.futexes (p :: w.refs)) (hrefs : w'.refs.Perm (p :: w.refs))
    (hnum : ∀ map ∈ w'.maps, map.Numbered) (hdestroyed : w'.destroyed = w.destroyed) : Kept w w' where
  inv := ⟨hcounted.perm hrefs.symm, hnum⟩
  destroyed := hdestroyed
  refs := (List.sublist_cons_self p w.refs).subperm.trans hrefs.symm.subperm

/-- The same capabilities, in other places. -/
theorem Kept.of_perm (h : Inv w) (hfutexes : w'.futexes = w.futexes) (hrefs : w'.refs.Perm w.refs)
    (hnum : ∀ map ∈ w'.maps, map.Numbered) (hdestroyed : w'.destroyed = w.destroyed) : Kept w w' where
  inv := ⟨hfutexes ▸ h.counted.perm hrefs.symm, hnum⟩
  destroyed := hdestroyed
  refs := hrefs.symm.subperm

theorem Inv.kept (h : Inv w) (hop : ∀ i, op ≠ .drop i) (he : w.step op = some w') : Kept w w' := by
  cases op with
  | new =>
    obtain rfl := Option.some.inj he
    exact .of_cons h.counted.kfutexNew (.refl _) h.numbered rfl
  | clone i =>
    cases hi : w.held[i]? with
    | none =>
      obtain rfl : w = w' := by simpa [step, hi] using he
      exact h.kept_self
    | some cap =>
      simp only [step, hi, Option.bind_eq_bind, Option.bind_eq_some_iff] at he
      obtain ⟨⟨w₁, out⟩, hclone, hw⟩ := he
      obtain ⟨futexes, rfl, hout, hc⟩ := h.counted.capClone (mem_refs_of_held hi) hclone
      obtain rfl := Option.some.inj hw
      exact .of_cons hc (hout ▸ .refl _) h.numbered rfl
  | cloneCap m id flags =>
    cases hm : w.maps[m]? with
    | none =>
      obtain rfl : w = w' := by simpa [step, hm] using he
      exact h.kept_self
    | some map =>
      cases hcap : map.data[id]? with
      | none =>
        obtain rfl : w = w' := by simpa [step, hm, hcap] using he
        exact h.kept_self
      | some cap =>
        simp only [step, hm, Option.bind_some, hcap, Option.bind_eq_bind, Option.bind_eq_some_iff] at he
        obtain ⟨⟨w₁, out⟩, hclone, hins⟩ := he
        obtain ⟨futexes, rfl, hout, hc⟩ := h.counted.capClone (mem_refs_of_map hm hcap) hclone
        obtain ⟨maps, rfl, hnum, hrefs⟩ := insert_spec (w := { w with futexes := futexes }) h.numbered hm hins
        exact .of_cons hc (hout ▸ hrefs) hnum rfl
  | insert m i =>
    cases hm : w.maps[m]? with
    | none =>
      obtain rfl : w = w' := by simpa [step, hm] using he
      exact h.kept_self
    | some map =>
      cases hi : w.held[i]? with
      | none =>
        obtain rfl : w = w' := by simpa [step, hm, hi] using he
        exact h.kept_self
      | some cap =>
        simp only [step, hm, hi] at he
        obtain ⟨maps, rfl, hnum, hrefs⟩ :=
          insert_spec (w := { w with held := w.held.eraseIdx i }) h.numbered hm he
        exact .of_perm h rfl (hrefs.trans (refs_eraseIdx hi).symm) hnum rfl
  | remove m id =>
    cases hm : w.maps[m]? with
    | none =>
      obtain rfl : w = w' := by simpa [step, hm] using he
      exact h.kept_self
    | some map =>
      cases hcap : map.data[id]? with
      | none =>
        obtain rfl : w = w' := by simpa [step, hm, hcap] using he
        exact h.kept_self
      | some cap =>
        simp only [step, hm, Option.bind_some, hcap] at he
        obtain rfl := Option.some.inj he
        exact .of_perm h rfl ((caps_remove hm hcap).map _).symm
          (numbered_set h.numbered (h.numbered map (List.mem_of_getElem? hm)).remove) rfl
  | drop i => exact absurd rfl (hop i)
  | sched op =>
    obtain ⟨sched, -, rfl⟩ := Option.map_eq_some_iff.1 he
    exact .of_perm h rfl (.refl _) h.numbered rfl

/-- The drop of a capability that kernel code holds. -/
theorem Inv.drop (h : Inv w) (hi : w.held[i]? = some cap) :
    ∃ w', w.step (.drop i) = some w' ∧ Inv w' ∧ w'.destroyed = w.destroyed ∧
      w.refs.Perm (cap.object.ptr :: w'.refs) := by
  have hrefs := refs_eraseIdx hi
  obtain ⟨futexes, hdrop, hc⟩ :=
    Counted.capDrop (w := { w with held := w.held.eraseIdx i }) (h.counted.perm hrefs)
  refine ⟨{ w with futexes := futexes, held := w.held.eraseIdx i }, ?_, ⟨hc, h.numbered⟩, rfl, hrefs⟩
  simp only [step, hi]
  exact hdrop

/-! ### Runs -/

/-- Where no futex loses a capability, none loses its last one. -/
theorem not_lastDropped (h : w.refs.Subperm w'.refs) (object : Arc Futex) : ¬ LastDropped w w' object := by
  rintro ⟨hpos, hzero⟩
  rw [count_eq] at hpos hzero
  have := h.count_le object.ptr
  omega

/-- An operation that drops nothing is right. -/
theorem Kept.right (h : ∀ w' ∈ w.step op, Kept w w') : Right w op := fun w' hw =>
  ⟨fun object hlast => absurd hlast (not_lastDropped (h w' hw).refs object), fun _ => (h w' hw).destroyed⟩

/-- A step from the invariant is right if and only if it drops no last capability. -/
theorem Inv.right_iff (h : Inv w) (op : Op) :
    (Right w op ↔ Keeps w op) ∧ (Keeps w op → ∀ w' ∈ w.step op, Inv w') := by
  by_cases hop : ∃ i cap, op = .drop i ∧ w.held[i]? = some cap
  · obtain ⟨i, cap, rfl, hi⟩ := hop
    obtain ⟨w', he, hinv, hdestroyed, hrefs⟩ := h.drop hi
    have hcount : ∀ object : Arc Futex,
        w.count object = w'.count object + if cap.object.ptr = object.ptr then 1 else 0 := by
      intro object
      rw [count_eq, count_eq, hrefs.count_eq, List.count_cons]
      simp
    refine ⟨⟨?_, ?_⟩, ?_⟩
    · intro hright cap' hcap'
      obtain rfl : cap = cap' := by simpa [hi] using hcap'
      by_contra hle
      have hself := hcount cap.object
      rw [if_pos rfl] at hself
      -- the last capability, and `destroy` is not run
      have honce := ((hright w' he).1 cap.object ⟨by omega, by omega⟩).once
      rw [hdestroyed] at honce
      exact absurd honce.symm (List.cons_ne_self _ _)
    · intro hkeeps w'' hw
      obtain rfl : w' = w'' := by simpa [he] using hw
      refine ⟨?_, fun _ => hdestroyed⟩
      rintro object ⟨hpos, hzero⟩
      have hone := hkeeps cap hi
      have hobject := hcount object
      rw [hzero, zero_add] at hobject
      split_ifs at hobject with heq
      · have : w.count cap.object = w.count object := by simp only [count, heq]
        omega
      · omega
    · intro _ w'' hw
      obtain rfl : w' = w'' := by simpa [he] using hw
      exact hinv
  · have hkept : ∀ w' ∈ w.step op, Kept w w' := by
      intro w' hw
      cases op with
      | drop i =>
        cases hi : w.held[i]? with
        | none =>
          obtain rfl : w = w' := by simpa [step, hi] using hw
          exact h.kept_self
        | some cap => exact absurd ⟨i, cap, rfl, hi⟩ hop
      | _ => exact h.kept (fun i => by simp) hw
    have hkeeps : Keeps w op := by
      cases op with
      | drop i => exact fun cap hcap => absurd ⟨i, cap, rfl, hcap⟩ hop
      | _ => trivial
    exact ⟨iff_of_true (Kept.right hkept) hkeeps, fun _ w' hw => (hkept w' hw).inv⟩

theorem inv_init (sched : ThreadList.World) (processes : ℕ) : Inv (init sched processes) where
  counted := by
    have hempty : (CapMap.new : CapMap (Arc Futex)).caps = [] := rfl
    have hrefs : (init sched processes).refs = [] := by
      simp [refs, caps, init, hempty]
    rw [hrefs]
    exact ⟨by simp [init], by simp⟩
  numbered := by
    intro map hmap
    rw [List.eq_of_mem_replicate hmap]
    exact CapMap.numbered_new

/-- **A futex outlives its capabilities**: along a run, futexes are destroyed when their last capability is
dropped, and not before, if and only if no operation drops a last capability. -/
theorem run_destroys_iff (sched : ThreadList.World) (processes : ℕ) (ops : List Op) :
    Along step Right (init sched processes) ops ↔ Along step Keeps (init sched processes) ops :=
  along_iff (L := fun _ _ => True) Inv (fun _ op h _ => h.right_iff op) (inv_init sched processes)
    (along_of_forall fun _ _ => trivial)

/-- A futex whose only capability is dropped. -/
theorem not_run_destroys : ¬ ∀ (sched : ThreadList.World) (processes : ℕ) (ops : List Op),
    Along step Right (init sched processes) ops := by
  intro h
  have hdrop := ((h (ThreadList.World.new (fun _ => ⟨0, 0⟩) fun _ => 0) 1 [.new, .drop 0]).2 _ rfl).1 _ rfl
  exact absurd (hdrop.1 ⟨0⟩ ⟨by decide, by decide⟩).once (List.cons_ne_self _ _).symm

end FutexWorld
end AuroraOs
