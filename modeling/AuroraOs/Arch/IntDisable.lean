import AuroraOs.Lib.Machine

/-!
# The guards of one CPU: `IntDisable`, `GsRef`, `IMutexGuard`

An `IntDisable` remembers whether interrupts were enabled when it was made and puts that back when
it is dropped.  A `GsRef` is a reference to the data of the CPU together with an `IntDisable`, and
clears `other_alive` when it is dropped; an `IMutexGuard` is a spin lock's guard together with an
`IntDisable`.  Fields are dropped after the `Drop` of the value they are in, in their order.

A `World` is one CPU with the guards alive on it, the youngest first, and `step` is one call made
there: `none` is a panic, or a `lock` that spins.  Other CPUs take and release the spin locks by
`Op.remote`.
-/

namespace AuroraOs.Guards

variable {M : Type}

/-- What the guards of a CPU act on: its `RFLAGS_INT` bit, the `other_alive` of its `GsData`, its
number, and the spin locks it shares with the others. -/
structure Cpu (M : Type) where
  intEnabled : Bool
  otherAlive : Bool
  rawPrid : ℕ
  locked : M → Bool

def setIntEnabled (enabled : Bool) (c : Cpu M) : Cpu M := { c with intEnabled := enabled }

structure IntDisable where
  oldStatus : Bool
  deriving DecidableEq

def IntDisable.new (c : Cpu M) : IntDisable × Cpu M := (⟨c.intEnabled⟩, setIntEnabled false c)

def IntDisable.drop (g : IntDisable) (c : Cpu M) : Cpu M := setIntEnabled g.oldStatus c

/-! ### `kdata.rs` -/

structure GsRef where
  intd : IntDisable
  deriving DecidableEq

def GsRef.drop (r : GsRef) (c : Cpu M) : Cpu M := r.intd.drop { c with otherAlive := false }

/-- `cpud`: panics if another `GsRef` of the CPU is alive. -/
def cpud (c : Cpu M) : Option (GsRef × Cpu M) :=
  let (intd, c₁) := IntDisable.new c
  let out : GsRef := ⟨intd⟩
  if c₁.otherAlive then none else some (out, { c₁ with otherAlive := true })

/-- `try_cpud`.  The reference is built before the flag is tested, so it is dropped where the answer
is `None`. -/
def tryCpud (c : Cpu M) : Option GsRef × Cpu M :=
  let (intd, c₁) := IntDisable.new c
  let out : GsRef := ⟨intd⟩
  let c₂ := { c₁ with otherAlive := true }
  if c₁.otherAlive then (none, out.drop c₂) else (some out, c₂)

def prid (c : Cpu M) : ℕ × Cpu M :=
  let (intd, c₁) := IntDisable.new c
  (c₁.rawPrid, intd.drop c₁)

section
variable {c : Cpu M}

theorem cpud_of_alive (h : c.otherAlive = true) : cpud c = none := by
  simp [cpud, IntDisable.new, setIntEnabled, h]

theorem cpud_of_free (h : c.otherAlive = false) :
    cpud c = some (⟨⟨c.intEnabled⟩⟩, { c with intEnabled := false, otherAlive := true }) := by
  simp [cpud, IntDisable.new, setIntEnabled, h]

theorem tryCpud_of_alive (h : c.otherAlive = true) :
    tryCpud c = (none, { c with otherAlive := false }) := by
  simp [tryCpud, IntDisable.new, IntDisable.drop, GsRef.drop, setIntEnabled, h]

theorem tryCpud_of_free (h : c.otherAlive = false) :
    tryCpud c = (some ⟨⟨c.intEnabled⟩⟩, { c with intEnabled := false, otherAlive := true }) := by
  simp [tryCpud, IntDisable.new, setIntEnabled, h]

end

/-! ### `imutex.rs` -/

variable [DecidableEq M]

structure IMutexGuard (M : Type) where
  mutex : M
  intd : IntDisable

def IMutexGuard.drop (g : IMutexGuard M) (c : Cpu M) : Cpu M :=
  g.intd.drop { c with locked := Function.update c.locked g.mutex false }

/-- `IMutex::lock`; nothing while it spins. -/
def lock (m : M) (c : Cpu M) : Option (IMutexGuard M × Cpu M) :=
  let (intd, c₁) := IntDisable.new c
  if c₁.locked m then none
  else some (⟨m, intd⟩, { c₁ with locked := Function.update c₁.locked m true })

def tryLock (m : M) (c : Cpu M) : Option (IMutexGuard M) × Cpu M :=
  let (intd, c₁) := IntDisable.new c
  if c₁.locked m then (none, intd.drop c₁)
  else (some ⟨m, intd⟩, { c₁ with locked := Function.update c₁.locked m true })

section
variable {c : Cpu M} {m : M}

theorem tryLock_of_taken (h : c.locked m = true) : tryLock m c = (none, c) := by
  simp [tryLock, IntDisable.new, IntDisable.drop, setIntEnabled, h]

theorem tryLock_of_free (h : c.locked m = false) :
    tryLock m c = (some ⟨m, ⟨c.intEnabled⟩⟩,
      { c with intEnabled := false, locked := Function.update c.locked m true }) := by
  simp [tryLock, IntDisable.new, setIntEnabled, h]

theorem lock_of_taken (h : c.locked m = true) : lock m c = none := by
  simp [lock, IntDisable.new, setIntEnabled, h]

theorem lock_of_free (h : c.locked m = false) :
    lock m c = some (⟨m, ⟨c.intEnabled⟩⟩,
      { c with intEnabled := false, locked := Function.update c.locked m true }) := by
  simp [lock, IntDisable.new, setIntEnabled, h]

end

/-! ### A CPU with its guards -/

/-- A guard that is alive. -/
inductive Guard (M : Type)
  | gsRef (r : GsRef)
  | imutex (g : IMutexGuard M)

def Guard.intd : Guard M → IntDisable
  | .gsRef r => r.intd
  | .imutex g => g.intd

def Guard.isGsRef : Guard M → Bool
  | .gsRef _ => true
  | .imutex _ => false

def Guard.drop : Guard M → Cpu M → Cpu M
  | .gsRef r, c => r.drop c
  | .imutex g, c => g.drop c

structure World (M : Type) where
  cpu : Cpu M
  guards : List (Guard M)

/-- A call made on the CPU, or a spin lock taken or released by another one. -/
inductive Op (M : Type)
  | cpud
  | tryCpud
  | prid
  | lock (m : M)
  | tryLock (m : M)
  | drop (i : ℕ)
  | remote (m : M) (taken : Bool)

def World.holds (w : World M) (m : M) : Bool :=
  w.guards.any fun
    | .gsRef _ => false
    | .imutex g => g.mutex = m

/-- One call. -/
def step (w : World M) : Op M → Option (World M)
  | .cpud => (cpud w.cpu).map fun (r, c) => ⟨c, .gsRef r :: w.guards⟩
  | .tryCpud =>
      let (r, c) := tryCpud w.cpu
      some ⟨c, (r.map Guard.gsRef).toList ++ w.guards⟩
  | .prid => some ⟨(prid w.cpu).2, w.guards⟩
  | .lock m => (lock m w.cpu).map fun (g, c) => ⟨c, .imutex g :: w.guards⟩
  | .tryLock m =>
      let (g, c) := tryLock m w.cpu
      some ⟨c, (g.map Guard.imutex).toList ++ w.guards⟩
  | .drop i => w.guards[i]?.map fun g => ⟨g.drop w.cpu, w.guards.eraseIdx i⟩
  | .remote m taken =>
      if w.cpu.locked m = !taken ∧ w.holds m = false then
        some { w with cpu := { w.cpu with locked := Function.update w.cpu.locked m taken } }
      else none

/-- A CPU on which no guard is alive. -/
def World.start (c : Cpu M) : World M := ⟨c, []⟩

/-- A CPU whose data are those of `GsData::new`. -/
def World.boot (c : Cpu M) : World M := World.start { c with otherAlive := false }

/-! ### What a call does -/

/-- What a call does to the guards and to the two flags: it makes a guard, drops one, or leaves the
guards alone; only a `try_cpud` that fails clears `other_alive` without a guard being dropped. -/
inductive Stepped (w w' : World M) : Op M → Prop
  | made {op : Op M} (g : Guard M) (hguards : w'.guards = g :: w.guards)
      (hsaw : g.intd.oldStatus = w.cpu.intEnabled) (hoff : w'.cpu.intEnabled = false)
      (halive : w'.cpu.otherAlive = (w.cpu.otherAlive || g.isGsRef))
      (hfree : g.isGsRef = true → w.cpu.otherAlive = false)
      (hop : ∀ i, op ≠ .drop i) (htry : op = .tryCpud → w.cpu.otherAlive = false) : Stepped w w' op
  | failed (hguards : w'.guards = w.guards) (hint : w'.cpu.intEnabled = w.cpu.intEnabled)
      (halive : w.cpu.otherAlive = true) (hcleared : w'.cpu.otherAlive = false) :
      Stepped w w' .tryCpud
  | kept {op : Op M} (hguards : w'.guards = w.guards) (hint : w'.cpu.intEnabled = w.cpu.intEnabled)
      (halive : w'.cpu.otherAlive = w.cpu.otherAlive) (hop : ∀ i, op ≠ .drop i)
      (htry : op ≠ .tryCpud) : Stepped w w' op
  | dropped (i : ℕ) (g : Guard M) (hget : w.guards[i]? = some g)
      (hguards : w'.guards = w.guards.eraseIdx i) (hint : w'.cpu.intEnabled = g.intd.oldStatus)
      (halive : w'.cpu.otherAlive = (w.cpu.otherAlive && !g.isGsRef)) : Stepped w w' (.drop i)

theorem step_spec {w w' : World M} {op : Op M} (h : step w op = some w') : Stepped w w' op := by
  cases op with
  | cpud =>
    cases halive : w.cpu.otherAlive with
    | true => simp [step, cpud_of_alive halive] at h
    | false =>
      rw [step, cpud_of_free halive] at h
      cases h
      exact .made (.gsRef ⟨⟨w.cpu.intEnabled⟩⟩) rfl rfl rfl (by simp [Guard.isGsRef])
        (fun _ => halive) (fun _ => nofun) nofun
  | tryCpud =>
    cases halive : w.cpu.otherAlive with
    | true =>
      rw [step, tryCpud_of_alive halive] at h
      cases h
      exact .failed rfl rfl halive rfl
    | false =>
      rw [step, tryCpud_of_free halive] at h
      cases h
      exact .made (.gsRef ⟨⟨w.cpu.intEnabled⟩⟩) rfl rfl rfl (by simp [Guard.isGsRef])
        (fun _ => halive) (fun _ => nofun) (fun _ => halive)
  | prid =>
    cases h
    exact .kept rfl rfl rfl (fun _ => nofun) nofun
  | lock m =>
    cases htaken : w.cpu.locked m with
    | true => simp [step, lock_of_taken htaken] at h
    | false =>
      rw [step, lock_of_free htaken] at h
      cases h
      exact .made (.imutex ⟨m, ⟨w.cpu.intEnabled⟩⟩) rfl rfl rfl (by simp [Guard.isGsRef]) nofun
        (fun _ => nofun) nofun
  | tryLock m =>
    cases htaken : w.cpu.locked m with
    | true =>
      rw [step, tryLock_of_taken htaken] at h
      cases h
      exact .kept rfl rfl rfl (fun _ => nofun) nofun
    | false =>
      rw [step, tryLock_of_free htaken] at h
      cases h
      exact .made (.imutex ⟨m, ⟨w.cpu.intEnabled⟩⟩) rfl rfl rfl (by simp [Guard.isGsRef]) nofun
        (fun _ => nofun) nofun
  | drop i =>
    obtain ⟨g, hget, rfl⟩ := Option.map_eq_some_iff.1 h
    cases g with
    | gsRef r =>
      exact .dropped i _ hget rfl rfl (by simp [Guard.drop, GsRef.drop, IntDisable.drop,
        setIntEnabled, Guard.isGsRef])
    | imutex g =>
      exact .dropped i _ hget rfl rfl (by simp [Guard.drop, IMutexGuard.drop, IntDisable.drop,
        setIntEnabled, Guard.isGsRef])
  | remote m taken =>
    simp only [step, Option.ite_none_right_eq_some, Option.some.injEq] at h
    obtain ⟨-, rfl⟩ := h
    exact .kept rfl rfl rfl (fun _ => nofun) nofun

/-! ### Exclusive references -/

/-- The number of `GsRef`s alive. -/
def World.gsRefs (w : World M) : ℕ := w.guards.countP Guard.isGsRef

/-- At most one `GsRef` is alive; `cpud` panics and `try_cpud` answers `None` while one is, and both
succeed while none is. -/
structure World.Exclusive (w : World M) : Prop where
  one : w.gsRefs ≤ 1
  alive : w.gsRefs ≠ 0 → cpud w.cpu = none ∧ (tryCpud w.cpu).1 = none
  free : w.gsRefs = 0 → (cpud w.cpu).isSome ∧ (tryCpud w.cpu).1.isSome

/-- No `try_cpud` while a `GsRef` is alive. -/
def World.Unattempted (w : World M) : Op M → Prop
  | .tryCpud => w.gsRefs = 0
  | _ => True

theorem eq_toNat_and {a b : Bool} {n : ℕ} (h : a.toNat = n + b.toNat) : n = (a && !b).toNat := by
  cases a <;> cases b <;> simp at h ⊢ <;> omega

omit [DecidableEq M] in
theorem World.exclusive_iff {w : World M} :
    w.Exclusive ↔ w.gsRefs = w.cpu.otherAlive.toNat := by
  constructor
  · rintro ⟨hone, halive, hfree⟩
    by_cases h : w.gsRefs = 0
    · cases ha : w.cpu.otherAlive with
      | false => rw [h, Bool.toNat_false]
      | true =>
        have := (hfree h).1
        rw [cpud_of_alive ha] at this
        cases this
    · cases ha : w.cpu.otherAlive with
      | true => rw [Bool.toNat_true]; omega
      | false =>
        have := (halive h).1
        rw [cpud_of_free ha] at this
        cases this
  · intro h
    cases ha : w.cpu.otherAlive with
    | true =>
      rw [ha, Bool.toNat_true] at h
      exact ⟨h.le, fun _ => ⟨cpud_of_alive ha, by rw [tryCpud_of_alive ha]⟩, fun h0 => by omega⟩
    | false =>
      rw [ha, Bool.toNat_false] at h
      exact ⟨by omega, fun h0 => absurd h h0, fun _ => by
        rw [cpud_of_free ha, tryCpud_of_free ha]; exact ⟨rfl, rfl⟩⟩

/-- A guard of a list, and the others. -/
theorem perm_eraseIdx {α : Type} {l : List α} {i : ℕ} {a : α} (h : l[i]? = some a) :
    l.Perm (a :: l.eraseIdx i) := by
  obtain ⟨hi, rfl⟩ := List.getElem?_eq_some_iff.1 h
  exact (List.getElem_cons_eraseIdx_perm hi).symm

theorem World.Exclusive.step_iff {w w' : World M} {op : Op M} (h : w.Exclusive)
    (hs : step w op = some w') : w'.Exclusive ↔ w.Unattempted op := by
  rw [World.exclusive_iff] at h ⊢
  cases step_spec hs with
  | made g hguards _ _ halive hfree _ htry =>
    have hq : w.Unattempted op := by
      cases op with
      | tryCpud => rw [World.Unattempted, h, htry rfl, Bool.toNat_false]
      | _ => trivial
    have hcount : w'.gsRefs = w.gsRefs + g.isGsRef.toNat := by
      rw [World.gsRefs, hguards, List.countP_cons]
      cases g.isGsRef <;> rfl
    refine iff_of_true ?_ hq
    rw [hcount, h, halive]
    cases hg : g.isGsRef with
    | false => simp
    | true => simp [hfree hg]
  | failed hguards _ halive hcleared =>
    rw [World.Unattempted, h, halive, hcleared, World.gsRefs, hguards, ← World.gsRefs, h, halive]
    decide
  | kept hguards _ halive _ htry =>
    have hq : w.Unattempted op := by
      cases op with
      | tryCpud => exact absurd rfl htry
      | _ => trivial
    exact iff_of_true (by rw [World.gsRefs, hguards, halive, ← h, World.gsRefs]) hq
  | dropped i g hget hguards _ halive =>
    have hcount : w.gsRefs = w'.gsRefs + g.isGsRef.toNat := by
      rw [World.gsRefs, (perm_eraseIdx hget).countP_eq, List.countP_cons, World.gsRefs, hguards]
      cases g.isGsRef <;> rfl
    refine iff_of_true ?_ trivial
    rw [h] at hcount
    rw [halive]
    exact eq_toNat_and hcount

/-- **`GsRef`s are exclusive exactly along the runs that make no `try_cpud` while one is alive.** -/
theorem exclusive_along_iff (c : Cpu M) (ops : List (Op M)) :
    (World.boot c).Exclusive ∧
      (Machine.Along step (fun w op => ∀ w' ∈ step w op, w'.Exclusive) (World.boot c) ops ↔
        Machine.Along step World.Unattempted (World.boot c) ops) := by
  have hboot : (World.boot c).Exclusive := World.exclusive_iff.2 rfl
  refine ⟨hboot, Machine.along_reaches_iff World.Exclusive (Q := World.Unattempted) ?_ ?_ hboot⟩
  · intro w op w' h hs
    exact ⟨h.step_iff hs, (h.step_iff hs).2⟩
  · intro w op _ hs
    cases op with
    | tryCpud => cases hs
    | _ => trivial

/-- After a `try_cpud` that failed, a second one succeeds beside the first reference. -/
theorem gsRefs_coexist :
    (Machine.run step (World.boot (M := ℕ) ⟨true, false, 0, fun _ => false⟩)
        [.cpud, .tryCpud, .tryCpud]).map World.gsRefs = some 2 ∧
      ¬ ∀ ops : List (Op ℕ), Machine.Along step (fun w op => ∀ w' ∈ step w op, w'.Exclusive)
        (World.boot ⟨true, false, 0, fun _ => false⟩) ops := by
  refine ⟨by decide, fun h => ?_⟩
  have hlast := (h [.cpud, .tryCpud, .tryCpud]).2 _ rfl |>.2 _ rfl |>.1 _ rfl
  exact absurd hlast.one (by decide)

/-! ### Interrupts stay disabled -/

/-- Interrupts are disabled while a guard is alive, and are as before the first one while none is. -/
structure World.Masked (status : Bool) (w : World M) : Prop where
  alive : w.guards ≠ [] → w.cpu.intEnabled = false
  idle : w.guards = [] → w.cpu.intEnabled = status

/-- A guard that found interrupts enabled is dropped only when no other guard is alive. -/
def World.DropsLast (w : World M) : Op M → Prop
  | .drop i => ∀ g ∈ w.guards[i]?, g.intd.oldStatus = true → w.guards.length = 1
  | _ => True

/-- The number of guards alive that found interrupts enabled. -/
def World.foundEnabled (w : World M) : ℕ := w.guards.countP (·.intd.oldStatus)

/-- One guard alive, the eldest, found interrupts as they were before it; the others found them
disabled. -/
structure World.Nested (status : Bool) (w : World M) : Prop where
  masked : w.Masked status
  found : w.guards ≠ [] → w.foundEnabled = status.toNat

theorem World.Nested.step_iff {status : Bool} {w w' : World M} {op : Op M} (h : w.Nested status)
    (hs : step w op = some w') :
    (w'.Masked status ↔ w.DropsLast op) ∧ (w.DropsLast op → w'.Nested status) := by
  obtain ⟨⟨halive, hidle⟩, hfound⟩ := h
  cases step_spec hs with
  | made g hguards hsaw hoff _ _ hop _ =>
    have hq : w.DropsLast op := by
      cases op with
      | drop i => exact absurd rfl (hop i)
      | _ => trivial
    have hmasked : w'.Masked status :=
      ⟨fun _ => hoff, fun hnil => absurd (hguards ▸ hnil) (List.cons_ne_nil g w.guards)⟩
    refine ⟨iff_of_true hmasked hq, fun _ => ⟨hmasked, fun _ => ?_⟩⟩
    -- the first guard found the status of the start, a later one found interrupts disabled
    by_cases hnil : w.guards = []
    · rw [World.foundEnabled, hguards, hnil, List.countP_singleton, hsaw, hidle hnil]
      cases status <;> rfl
    · rw [World.foundEnabled, hguards, List.countP_cons, hsaw, halive hnil, ← World.foundEnabled,
        hfound hnil]
      rfl
  | failed hguards hint _ _ =>
    have hmasked : w'.Masked status := ⟨by rwa [hguards, hint], by rwa [hguards, hint]⟩
    exact ⟨iff_of_true hmasked trivial,
      fun _ => ⟨hmasked, by rwa [World.foundEnabled, hguards, ← World.foundEnabled]⟩⟩
  | kept hguards hint _ hop _ =>
    have hq : w.DropsLast op := by
      cases op with
      | drop i => exact absurd rfl (hop i)
      | _ => trivial
    have hmasked : w'.Masked status := ⟨by rwa [hguards, hint], by rwa [hguards, hint]⟩
    exact ⟨iff_of_true hmasked hq,
      fun _ => ⟨hmasked, by rwa [World.foundEnabled, hguards, ← World.foundEnabled]⟩⟩
  | dropped i g hget hguards hint _ =>
    have hperm : w.guards.Perm (g :: w'.guards) := hguards ▸ perm_eraseIdx hget
    have hcount : w.foundEnabled = w'.foundEnabled + g.intd.oldStatus.toNat := by
      rw [World.foundEnabled, hperm.countP_eq, List.countP_cons, World.foundEnabled]
      cases g.intd.oldStatus <;> rfl
    rw [hfound fun hnil => by simp [hnil] at hget] at hcount
    have hlast : w.guards.length = 1 ↔ w'.guards = [] := by
      rw [hperm.length_eq, List.length_cons, Nat.succ_inj, List.length_eq_zero_iff]
    have hq : w.DropsLast (.drop i) ↔ (w'.guards ≠ [] → g.intd.oldStatus = false) := by
      simp only [World.DropsLast, hget, Option.mem_some_iff, forall_eq', hlast]
      cases g.intd.oldStatus <;> simp
    -- the last guard alive is the one that found the status of the start
    have hend : w'.guards = [] → g.intd.oldStatus = status := by
      intro hnil
      rw [World.foundEnabled, hnil, List.countP_nil, zero_add] at hcount
      revert hcount
      cases status <;> cases g.intd.oldStatus <;> simp
    have hmasked : w'.Masked status ↔ w.DropsLast (.drop i) := by
      rw [hq]
      exact ⟨fun hm hne => hint ▸ hm.alive hne,
        fun hne => ⟨fun h => hint.trans (hne h), fun h => hint.trans (hend h)⟩⟩
    refine ⟨hmasked, fun hdrop => ⟨hmasked.2 hdrop, fun hne => ?_⟩⟩
    rw [hq.1 hdrop hne, Bool.toNat_false, add_zero] at hcount
    exact hcount.symm

/-- **Interrupts are disabled while a guard is alive, and are as at the start while none is, exactly
along the runs that drop a guard which found them enabled only as the last one.** -/
theorem masked_along_iff (c : Cpu M) (ops : List (Op M)) :
    (World.start c).Masked c.intEnabled ∧
      (Machine.Along step (fun w op => ∀ w' ∈ step w op, w'.Masked c.intEnabled) (World.start c) ops ↔
        Machine.Along step World.DropsLast (World.start c) ops) := by
  have hstart : (World.start c).Masked c.intEnabled := ⟨fun h => absurd rfl h, fun _ => rfl⟩
  refine ⟨hstart, Machine.along_reaches_iff (World.Nested c.intEnabled) (fun w op w' => World.Nested.step_iff)
    ?_ ⟨hstart, fun h => absurd rfl h⟩⟩
  intro w op _ hs
  cases op with
  | drop i =>
    intro g hg
    rw [step, Option.mem_def.1 hg] at hs
    cases hs
  | _ => trivial

/-- Two spin locks taken, and the first one unlocked first: interrupts are enabled while the second
is held. -/
theorem enabled_under_lock :
    (Machine.run step (World.start (M := ℕ) ⟨true, false, 0, fun _ => false⟩)
        [.lock 0, .lock 1, .drop 1]).map (fun w => (w.guards.length, w.holds 1, w.cpu.intEnabled))
        = some (1, true, true) ∧
      ¬ ∀ ops : List (Op ℕ), Machine.Along step (fun w op => ∀ w' ∈ step w op, w'.Masked true)
        (World.start ⟨true, false, 0, fun _ => false⟩) ops := by
  refine ⟨by decide, fun h => ?_⟩
  have hlast := (h [.lock 0, .lock 1, .drop 1]).2 _ rfl |>.2 _ rfl |>.1 _ rfl
  exact absurd (hlast.alive (by decide)) (by decide)

end AuroraOs.Guards
