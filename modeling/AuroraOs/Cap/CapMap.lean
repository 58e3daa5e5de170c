import AuroraOs.Cap.Capability
import AuroraOs.Sched.KFutex

/-!
# Capability maps

`CapMap` of `kernel/src/cap/mod.rs`, and `FutexMap` of `kernel/src/sched/sync.rs`, which has the same
operations over another lock.  `insert` takes its number from an atomic counter before it locks the
map, and `clone_cap` unlocks the map before it inserts, so calls on several CPUs interleave: a `World`
is a map with the calls that are under way, and a step is one atomic instruction or one critical
section of a call.

The ghost state `issued` records every capability that was ever given an id, with the id it was
cloned from.
-/

namespace AuroraOs

/-- `CapMap`: the map proper, and the counter of ids. -/
structure CapMap (T : Type*) where
  data : Std.TreeMap CapId (Capability T)
  nextId : ℕ

instance {Tid : Type*} : CapObject (KFutex Tid) := ⟨.futex⟩

/-- `FutexMap`. -/
abbrev FutexMap (Tid : Type*) := CapMap (KFutex Tid)

namespace CapMap

variable {T : Type*}

/-- `CapMap::new`. -/
def new : CapMap T := ⟨∅, 0⟩

/-- `insert`, up to the lock: `fetch_add` and `set_base_id`. -/
def takeId [CapObject T] (self : CapMap T) (cap : Capability T) :
    Option (CapMap T × Capability T) := do
  let cap ← cap.setBaseId self.nextId
  some ({ self with nextId := (self.nextId + 1) % usizeMod }, cap)

/-- `insert`, under the lock. -/
def store (self : CapMap T) (cap : Capability T) : CapMap T :=
  { self with data := self.data.insert cap.id cap }

/-- `CapMap::insert`. -/
def insert [CapObject T] (self : CapMap T) (cap : Capability T) : Option (CapMap T × CapId) := do
  let (self, cap) ← self.takeId cap
  some (self.store cap, cap.id)

/-- `CapMap::remove`. -/
def remove (self : CapMap T) (id : CapId) : CapMap T × Option (Capability T) :=
  ({ self with data := self.data.erase id }, self.data[id]?)

/-- `CapMap::destroy`. -/
def destroy (self : CapMap T) (id : CapId) : CapMap T × Bool :=
  let (self, cap) := self.remove id
  (self, cap.isSome)

/-- `clone_cap`, under the lock. -/
def derive (self : CapMap T) (id : CapId) (flags : CapFlags) : Option (Capability T) :=
  self.data[id]?.map (·.andFromFlags flags)

/-- `CapMap::clone_cap`. -/
def cloneCap [CapObject T] (self : CapMap T) (id : CapId) (flags : CapFlags) :
    Option (CapMap T × Option CapId) :=
  match self.derive id flags with
  | none => some (self, none)
  | some newCap => do
    let (self, id) ← self.insert newCap
    some (self, some id)

/-- The flags of the layout that `map` builds for a user-supplied id; `none` is `InvlId`. -/
def layoutFlags (self : CapMap T) (id : CapId) : Option PageMappingFlags :=
  self.data[id]?.map fun _ => PageMappingFlags.fromCapFlags (CapId.flags id)

/-! ### Interleaved calls -/

/-- A capability that was given an id, with its flags and the id it was cloned from. -/
structure Grant where
  id : CapId
  flags : CapFlags
  parent : Option CapId
  deriving DecidableEq

/-- A map and the calls under way: the capabilities that `insert` was called with, each with the id
it was cloned from, and the capabilities that have an id but are not stored yet. -/
structure World (T : Type*) where
  map : CapMap T
  called : List (Capability T × Option CapId)
  numbered : List (Capability T)
  issued : List Grant

/-- The atomic steps.  Calls are chosen by their position. -/
inductive Step (T : Type*)
  | insert (cap : Capability T)
  | cloneCap (id : CapId) (flags : CapFlags)
  | takeId (i : ℕ)
  | store (i : ℕ)
  | remove (id : CapId)

/-- A step of `insert` takes a number. -/
def Step.cost : Step T → ℕ
  | .takeId _ => 1
  | _ => 0

namespace World

/-- A new map. -/
def new : World T := ⟨.new, [], [], []⟩

/-- One atomic step; `none` is a panic. -/
def step [CapObject T] (w : World T) : Step T → Option (World T)
  | .insert cap => some { w with called := (cap, none) :: w.called }
  | .cloneCap id flags =>
    match w.map.derive id flags with
    | none => some w
    | some cap => some { w with called := (cap, some id) :: w.called }
  | .takeId i =>
    match w.called[i]? with
    | none => some w
    | some (cap, parent) => do
      let (map, cap) ← w.map.takeId cap
      some ⟨map, w.called.eraseIdx i, cap :: w.numbered, ⟨cap.id, cap.flags, parent⟩ :: w.issued⟩
  | .store i =>
    match w.numbered[i]? with
    | none => some w
    | some cap => some { w with map := w.map.store cap, numbered := w.numbered.eraseIdx i }
  | .remove id => some { w with map := (w.map.remove id).1 }

/-- The numbers that a run takes. -/
def insertions (ops : List (Step T)) : ℕ := (ops.map Step.cost).sum

/-- A call of `insert` that nothing interrupts. -/
theorem run_insert [CapObject T] {w : World T} {cap : Capability T} :
    (Machine.run step w [.insert cap, .takeId 0, .store 0]).map World.map
      = (w.map.insert cap).map Prod.fst := by
  simp only [Machine.run, step, List.getElem?_cons_zero, Option.bind_some, CapMap.insert]
  cases w.map.takeId cap with
  | none => rfl
  | some p => rfl

/-- A call of `clone_cap` that nothing interrupts, with an id that is in the map. -/
theorem run_cloneCap [CapObject T] {w : World T} {id : CapId} {flags : CapFlags}
    (h : (w.map.derive id flags).isSome) :
    (Machine.run step w [.cloneCap id flags, .takeId 0, .store 0]).map World.map
      = (w.map.cloneCap id flags).map Prod.fst := by
  obtain ⟨cap, hcap⟩ := Option.isSome_iff_exists.1 h
  simp only [Machine.run, step, CapMap.cloneCap, hcap, List.getElem?_cons_zero, Option.bind_some,
    CapMap.insert]
  cases w.map.takeId cap with
  | none => rfl
  | some p => rfl

/-! ### The invariant -/

/-- A capability or a grant with these flags may be derived from the parent. -/
def Allowed (issued : List Grant) (flags : CapFlags) (parent : Option CapId) : Prop :=
  ∀ p ∈ parent, ∃ g ∈ issued, g.id = p ∧ flags.Subset g.flags

/-- The grants, last one first: numbered in order, each derived from an earlier one. -/
def Issued (typ : CapObjectType) : List Grant → Prop
  | [] => True
  | g :: gs => g.id = Capability.pack gs.length typ g.flags ∧ Allowed gs g.flags g.parent ∧
      Issued typ gs

/-- The grant of a capability. -/
def Granted (issued : List Grant) (cap : Capability T) : Prop :=
  ∃ parent, ⟨cap.id, cap.flags, parent⟩ ∈ issued

/-- The invariant of a map and its calls. -/
structure Inv [CapObject T] (w : World T) : Prop where
  nextId : w.map.nextId = w.issued.length
  issued : Issued (CapObject.capObjectType T) w.issued
  called : ∀ c ∈ w.called, Allowed w.issued c.1.flags c.2
  numbered : ∀ cap ∈ w.numbered, Granted w.issued cap
  data : ∀ id cap, w.map.data[id]? = some cap → cap.id = id ∧ Granted w.issued cap

variable {typ : CapObjectType} {gs : List Grant} {g g' : Grant} {w : World T}
  {flags : CapFlags} {parent : Option CapId} {cap : Capability T}

theorem Allowed.cons (h : Allowed gs flags parent) : Allowed (g :: gs) flags parent := by
  intro p hp
  obtain ⟨g', hg', hid, hsub⟩ := h p hp
  exact ⟨g', List.mem_cons_of_mem g hg', hid, hsub⟩

theorem Granted.cons (h : Granted gs cap) : Granted (g :: gs) cap :=
  h.imp fun _ hp => List.mem_cons_of_mem g hp

theorem inv_new [CapObject T] : Inv (World.new : World T) where
  nextId := rfl
  issued := trivial
  called := by simp [World.new]
  numbered := by simp [World.new]
  data := by simp [World.new, CapMap.new]

/-- Every step keeps the invariant, while there are numbers left. -/
theorem inv_step [CapObject T] (w : World T) (op : Step T) (h : Inv w)
    (hfit : w.issued.length + op.cost ≤ 2 ^ 59) :
    ∃ w', step w op = some w' ∧ Inv w' ∧ w'.issued.length ≤ w.issued.length + op.cost := by
  cases op with
  | insert cap =>
    refine ⟨_, rfl, ⟨h.nextId, h.issued, ?_, h.numbered, h.data⟩, Nat.le_add_right _ _⟩
    intro c hc
    rcases List.mem_cons.1 hc with rfl | hc
    · simp [Allowed]
    · exact h.called c hc
  | cloneCap id flags =>
    cases hcap : w.map.data[id]? with
    | none => exact ⟨w, by simp only [step, derive, hcap, Option.map_none], h, Nat.le_add_right _ _⟩
    | some cap =>
      simp only [step, derive, hcap, Option.map_some]
      obtain ⟨rfl, q, hq⟩ := h.data id cap hcap
      refine ⟨_, rfl, ⟨h.nextId, h.issued, ?_, h.numbered, h.data⟩, Nat.le_add_right _ _⟩
      intro c hc
      rcases List.mem_cons.1 hc with rfl | hc
      · -- the flags of the clone are among those of the capability
        rintro p ⟨rfl⟩
        exact ⟨_, hq, rfl, CapFlags.and_subset cap.flags flags⟩
      · exact h.called c hc
  | takeId i =>
    have hlt : w.map.nextId < 2 ^ 59 := by
      rw [h.nextId]
      exact hfit
    cases hi : w.called[i]? with
    | none => exact ⟨w, by simp only [step, hi], h, Nat.le_add_right _ _⟩
    | some c =>
      obtain ⟨cap, parent⟩ := c
      have hallowed := h.called _ (List.mem_of_getElem? hi)
      have htake : w.map.takeId cap = some ({ w.map with nextId := (w.map.nextId + 1) % usizeMod },
          { cap with id := Capability.pack w.map.nextId (CapObject.capObjectType T) cap.flags }) := by
        rw [takeId, Capability.setBaseId, if_pos (by simpa [Nat.shiftLeft_eq] using hlt)]
        rfl
      simp only [step, hi, htake]
      refine ⟨_, rfl, ⟨?_, ⟨?_, hallowed, h.issued⟩, ?_, ?_, ?_⟩, le_rfl⟩
      · rw [List.length_cons, ← h.nextId]
        exact Nat.mod_eq_of_lt (by simp only [usizeMod]; omega)
      · rw [← h.nextId]
      · exact fun c hc => (h.called c (List.mem_of_mem_eraseIdx hc)).cons
      · intro c hc
        rcases List.mem_cons.1 hc with rfl | hc
        · exact ⟨parent, List.mem_cons_self⟩
        · exact (h.numbered c hc).cons
      · intro id c hc
        exact ⟨(h.data id c hc).1, (h.data id c hc).2.cons⟩
  | store i =>
    cases hi : w.numbered[i]? with
    | none => exact ⟨w, by simp only [step, hi], h, Nat.le_add_right _ _⟩
    | some cap =>
      simp only [step, hi]
      have hgrant := h.numbered cap (List.mem_of_getElem? hi)
      refine ⟨_, rfl, ⟨h.nextId, h.issued, h.called, ?_, ?_⟩, Nat.le_add_right _ _⟩
      · exact fun c hc => h.numbered c (List.mem_of_mem_eraseIdx hc)
      · intro id c hc
        simp only [CapMap.store, Std.TreeMap.getElem?_insert, Nat.compare_eq_eq] at hc
        split_ifs at hc with heq
        · obtain rfl := Option.some.inj hc
          exact ⟨heq, hgrant⟩
        · exact h.data id c hc
  | remove id =>
    refine ⟨_, rfl, ⟨h.nextId, h.issued, h.called, h.numbered, ?_⟩, Nat.le_add_right _ _⟩
    intro id' c hc
    simp only [CapMap.remove, Std.TreeMap.getElem?_erase] at hc
    split_ifs at hc
    exact h.data id' c hc

/-! ### What the invariant gives -/

theorem Issued.id_eq (h : Issued typ gs) (hg : g ∈ gs) :
    ∃ k < gs.length, g.id = Capability.pack k typ g.flags := by
  induction gs with
  | nil => simp at hg
  | cons g' gs ih =>
    rcases List.mem_cons.1 hg with rfl | hg
    · exact ⟨gs.length, by simp, h.1⟩
    · obtain ⟨k, hk, he⟩ := ih h.2.2 hg
      exact ⟨k, by rw [List.length_cons]; omega, he⟩

/-- No id is given twice. -/
theorem Issued.nodup (h : Issued typ gs) (hlen : gs.length ≤ 2 ^ 59) : (gs.map Grant.id).Nodup := by
  induction gs with
  | nil => simp
  | cons g gs ih =>
    rw [List.length_cons] at hlen
    rw [List.map_cons, List.nodup_cons]
    refine ⟨fun hmem => ?_, ih h.2.2 (by omega)⟩
    obtain ⟨g', hg', he⟩ := List.mem_map.1 hmem
    obtain ⟨k, hk, hk'⟩ := h.2.2.id_eq hg'
    have := Capability.pack_injective (by omega) (by omega) (hk'.symm.trans (he.trans h.1))
    omega

/-- One call of `clone_cap`: the first grant was derived from the second. -/
def ClonedFrom (gs : List Grant) (g g' : Grant) : Prop :=
  g ∈ gs ∧ g' ∈ gs ∧ g.parent = some g'.id

/-- A chain of calls of `clone_cap`. -/
def DerivedFrom (gs : List Grant) : Grant → Grant → Prop := Relation.ReflTransGen (ClonedFrom gs)

theorem DerivedFrom.cons (h : DerivedFrom gs g g') {g₀ : Grant} : DerivedFrom (g₀ :: gs) g g' :=
  Relation.ReflTransGen.mono (r := ClonedFrom gs) (p := ClonedFrom (g₀ :: gs))
    (fun _ _ hc => ⟨List.mem_cons_of_mem _ hc.1, List.mem_cons_of_mem _ hc.2.1, hc.2.2⟩) _ _ h

theorem Issued.allowed (h : Issued typ gs) (hg : g ∈ gs) : Allowed gs g.flags g.parent := by
  induction gs with
  | nil => simp at hg
  | cons g' gs ih =>
    rcases List.mem_cons.1 hg with rfl | hg
    · exact h.2.1.cons
    · exact (ih h.2.2 hg).cons

/-- A chain of clones only loses flags. -/
theorem Issued.subset (h : Issued typ gs) (hlen : gs.length ≤ 2 ^ 59) (hd : DerivedFrom gs g g') :
    g.flags.Subset g'.flags := by
  induction hd with
  | refl => exact .refl _
  | tail _ hc ih =>
    obtain ⟨p, hp, hid, hsub⟩ := h.allowed hc.1 _ hc.2.2
    obtain rfl := List.inj_on_of_nodup_map (h.nodup hlen) hp hc.2.1 hid
    exact ih.trans hsub

/-- Every grant goes back to one that the kernel made. -/
theorem Issued.root (h : Issued typ gs) (hg : g ∈ gs) :
    ∃ g' ∈ gs, g'.parent = none ∧ DerivedFrom gs g g' := by
  induction gs generalizing g with
  | nil => simp at hg
  | cons g₁ gs ih =>
    rcases List.mem_cons.1 hg with rfl | hg
    · cases hp : g.parent with
      | none => exact ⟨g, hg, hp, .refl⟩
      | some p =>
        obtain ⟨g₂, hg₂, hid, -⟩ := h.2.1 p hp
        obtain ⟨g', hg', hroot, hd⟩ := ih h.2.2 hg₂
        refine ⟨g', List.mem_cons_of_mem _ hg', hroot, .head ⟨hg, List.mem_cons_of_mem _ hg₂, ?_⟩ hd.cons⟩
        rw [hp, hid]
    · obtain ⟨g', hg', hroot, hd⟩ := ih h.2.2 hg
      exact ⟨g', List.mem_cons_of_mem _ hg', hroot, hd.cons⟩

/-- What capability maps promise. -/
structure Sound [CapObject T] (w : World T) : Prop where
  /-- No two capabilities, live or dead, get the same id. -/
  distinct : (w.issued.map Grant.id).Nodup
  /-- Stored capabilities sit under their own id, and were given it. -/
  own : ∀ id cap, w.map.data[id]? = some cap → cap.id = id ∧ Granted w.issued cap
  /-- The id decodes to the flags and the type. -/
  decode : ∀ id cap, w.map.data[id]? = some cap →
    CapId.flags id = cap.flags ∧ CapId.capObjectType id = some (CapObject.capObjectType T)
  /-- Clones of clones have no flags that the first capability has not. -/
  derived : ∀ g g', DerivedFrom w.issued g g' → g.flags.Subset g'.flags
  /-- The permissions that `map` derives from an id are within those of a capability that the kernel
  made and that this one goes back to. -/
  permissions : ∀ id flags, w.map.layoutFlags id = some flags → ∃ g ∈ w.issued, ∃ g' ∈ w.issued,
    g.id = id ∧ g'.parent = none ∧ DerivedFrom w.issued g g' ∧
      flags.Subset (PageMappingFlags.fromCapFlags g'.flags)

theorem Inv.sound [CapObject T] (h : Inv w) (hlen : w.issued.length ≤ 2 ^ 59) : Sound w := by
  have hdecode : ∀ id cap, w.map.data[id]? = some cap →
      CapId.flags id = cap.flags ∧ CapId.capObjectType id = some (CapObject.capObjectType T) := by
    intro id cap hcap
    obtain ⟨rfl, parent, hg⟩ := h.data id cap hcap
    obtain ⟨k, hk, hid⟩ := h.issued.id_eq hg
    simp only at hid
    rw [hid]
    exact ⟨Capability.flags_pack (by omega), Capability.capObjectType_pack (by omega)⟩
  refine ⟨h.issued.nodup hlen, h.data, hdecode, fun g g' => h.issued.subset hlen, ?_⟩
  intro id flags hflags
  obtain ⟨cap, hcap, rfl⟩ := Option.map_eq_some_iff.1 hflags
  obtain ⟨hid, parent, hg⟩ := h.data id cap hcap
  obtain ⟨g', hg', hroot, hd⟩ := h.issued.root hg
  refine ⟨_, hg, g', hg', hid, hroot, hd, ?_⟩
  rw [(hdecode id cap hcap).1]
  exact (h.issued.subset hlen hd).fromCapFlags

/-- **Capability maps are sound**: after any interleaving of calls with fewer than `2 ^ 59`
insertions. -/
theorem run_sound [CapObject T] (ops : List (Step T)) (h : insertions ops < 2 ^ 59) :
    ∃ w, Machine.run step (World.new : World T) ops = some w ∧ Sound w := by
  have hstep : ∀ n (w : World T) op, Inv w ∧ w.issued.length + (op.cost + n) ≤ 2 ^ 59 →
      ∃ w', step w op = some w' ∧ Inv w' ∧ w'.issued.length + n ≤ 2 ^ 59 := by
    rintro n w op ⟨hw, hn⟩
    obtain ⟨w', he, hinv, hlen⟩ := inv_step w op hw (by omega)
    exact ⟨w', he, hinv, by omega⟩
  have hnew : Inv (World.new : World T) ∧ (World.new : World T).issued.length
      + ((ops.map Step.cost).sum + 0) ≤ 2 ^ 59 :=
    ⟨inv_new, by simpa [World.new, insertions] using h.le⟩
  obtain ⟨w, he, hinv, hlen⟩ := Machine.run_inv_budget
    (fun n (w : World T) => Inv w ∧ w.issued.length + n ≤ 2 ^ 59) Step.cost hstep hnew
  exact ⟨w, he, hinv.sound hlen⟩

/-- A futex is inserted, cloned without `WRITE`, and removed before its clone gets its id. -/
def cloneRemoved : List (Step (KFutex Unit)) :=
  [.insert (.new .new (CapFlags.READ ||| CapFlags.WRITE)), .takeId 0, .store 0,
    .cloneCap 7 CapFlags.READ, .remove 7, .takeId 0, .store 0]

theorem run_sound_cloneRemoved : insertions cloneRemoved < 2 ^ 59 ∧
    ∃ w, Machine.run step (World.new : World (KFutex Unit)) cloneRemoved = some w ∧ Sound w :=
  ⟨by decide, run_sound cloneRemoved (by decide)⟩

end World
end CapMap
end AuroraOs
