import AuroraOs.Lib.Machine

/-!
# Interrupt handlers: `Handler::register` and `rust_int_handler`

The handler table of a CPU has `MAX_HANDLERS` slots for each vector and one override.  A handler
function reads and changes the registers; `R` stands for those which `rust_int_handler` itself does
not touch, with whatever else the handlers act on.  `register` holds the `GsRef` of the CPU for the
whole call.

A `World` is the table with the registrations that succeeded, the latest first, and `step` is one
call of `register`.
-/

namespace AuroraOs.Interrupts

abbrev MAX_HANDLERS : ℕ := 4

abbrev IDT_SIZE : ℕ := 256

variable {R : Type}

structure Registers (R : Type) where
  callRsp : ℕ
  callSaveRsp : ℕ
  rest : R

/-- A handler, with the error code; the answer says whether the registers changed. -/
abbrev IntHandlerFunc (R : Type) := Registers R → ℕ → Registers R × Bool

structure Idt (R : Type) where
  handlers : Fin IDT_SIZE → Fin MAX_HANDLERS → Option (IntHandlerFunc R)
  handlerOverride : Fin IDT_SIZE → Option (IntHandlerFunc R)

def Idt.new : Idt R := ⟨fun _ _ => none, fun _ => none⟩

/-- `idt.handlers[vec][i] = Some(func)`. -/
def Idt.setHandler (t : Idt R) (vec : Fin IDT_SIZE) (i : Fin MAX_HANDLERS) (func : IntHandlerFunc R) :
    Idt R :=
  { t with handlers := Function.update t.handlers vec (Function.update (t.handlers vec) i (some func)) }

inductive Handler (R : Type)
  | first (func : IntHandlerFunc R)
  | normal (func : IntHandlerFunc R)
  | last (func : IntHandlerFunc R)
  | override (handler : Option (IntHandlerFunc R))

/-- The last slot, `MAX_HANDLERS - 1`. -/
abbrev lastSlot : Fin MAX_HANDLERS := 3

/-- The range `1..MAX_HANDLERS` that a `Normal` handler looks for a slot in. -/
def normalRange : List (Fin MAX_HANDLERS) := [1, 2, 3]

/-- The slot that a `Normal` handler takes. -/
def normalSlot (slots : Fin MAX_HANDLERS → Option (IntHandlerFunc R)) : Option (Fin MAX_HANDLERS) :=
  normalRange.find? fun i => (slots i).isNone

def Handler.register (h : Handler R) (vec : Fin IDT_SIZE) (t : Idt R) : Except String Unit × Idt R :=
  match h with
  | .first func =>
      if (t.handlers vec 0).isNone then (.ok (), t.setHandler vec 0 func)
      else (.error "couldn't register int handler for first position", t)
  | .normal func =>
      match normalSlot (t.handlers vec) with
      | some i => (.ok (), t.setHandler vec i func)
      | none => (.error "couldn't register int handler for middle position", t)
  | .last func =>
      if (t.handlers vec lastSlot).isNone then (.ok (), t.setHandler vec lastSlot func)
      else (.error "couldn't register int handler for first position", t)
  | .override handler =>
      (.ok (), { t with handlerOverride := Function.update t.handlerOverride vec handler })

/-! ### The interrupt path -/

/-- The data of the CPU that the interrupt path reads and writes. -/
structure GsData (R : Type) where
  callRsp : ℕ
  callSaveRsp : ℕ
  rsp0 : ℕ
  idt : Idt R

/-- One turn of the loop over the slots: only the answer of the last slot is kept. -/
def callSlot (slots : Fin MAX_HANDLERS → Option (IntHandlerFunc R)) (errorCode : ℕ)
    (s : Registers R × Bool) (i : Fin MAX_HANDLERS) : Registers R × Bool :=
  match slots i with
  | none => s
  | some func =>
      let (regs, changed) := func s.1 errorCode
      (regs, if i = lastSlot then changed else s.2)

/-- What `rust_int_handler` leaves: its answer, the registers, the registers saved in the thread, and
the data of the CPU. -/
structure Handled (R : Type) where
  changeRegs : Bool
  regs : Registers R
  threadRegs : Registers R
  data : GsData R

def rustIntHandler (vec : Fin IDT_SIZE) (regs : Registers R) (errorCode : ℕ) (data : GsData R) :
    Handled R :=
  let saved := { regs with callRsp := data.callRsp, callSaveRsp := data.callSaveRsp }
  let (out, changeRegs) :=
    match data.idt.handlerOverride vec with
    | some handler => handler saved errorCode
    | none =>
        (List.finRange MAX_HANDLERS).foldl (callSlot (data.idt.handlers vec) errorCode) (saved, false)
  { changeRegs
    regs := out
    threadRegs := saved
    data := if changeRegs then
        { data with rsp0 := out.callRsp, callRsp := out.callRsp, callSaveRsp := out.callSaveRsp }
      else data }

/-- The answer of the loop is that of the handler in the last slot, and `false` without one. -/
theorem callSlots_answer (slots : Fin MAX_HANDLERS → Option (IntHandlerFunc R)) (errorCode : ℕ)
    (regs : Registers R) :
    (slots lastSlot = none →
      ((List.finRange MAX_HANDLERS).foldl (callSlot slots errorCode) (regs, false)).2 = false) ∧
    (∀ func, slots lastSlot = some func → ∃ regs',
      ((List.finRange MAX_HANDLERS).foldl (callSlot slots errorCode) (regs, false)).2
        = (func regs' errorCode).2) := by
  -- the slots before the last one only change the registers
  have hkeep : ∀ (s : Registers R × Bool) (i : Fin MAX_HANDLERS), i ≠ lastSlot →
      (callSlot slots errorCode s i).2 = s.2 := by
    intro s i hi
    unfold callSlot
    cases slots i with
    | none => rfl
    | some func => exact if_neg hi
  have hfold : (List.finRange MAX_HANDLERS).foldl (callSlot slots errorCode) (regs, false)
      = callSlot slots errorCode ([0, 1, 2].foldl (callSlot slots errorCode) (regs, false)) lastSlot := rfl
  rw [hfold]
  constructor
  · intro hnone
    have h2 := hkeep (callSlot slots errorCode (callSlot slots errorCode (regs, false) 0) 1) 2 (by decide)
    have h1 := hkeep (callSlot slots errorCode (regs, false) 0) 1 (by decide)
    have h0 := hkeep (regs, false) 0 (by decide)
    rw [callSlot, hnone]
    exact h2.trans (h1.trans h0)
  · intro func hfunc
    refine ⟨([0, 1, 2].foldl (callSlot slots errorCode) (regs, false)).1, ?_⟩
    simp only [callSlot, hfunc, if_true]

/-! ### Sequences of registrations -/

/-- The handler table, and the registrations that succeeded. -/
structure World (R : Type) where
  idt : Idt R
  log : List (Fin IDT_SIZE × Handler R)

def World.boot : World R := ⟨Idt.new, []⟩

/-- One call of `register`. -/
def step (w : World R) (op : Fin IDT_SIZE × Handler R) : Option (World R) :=
  match op.2.register op.1 w.idt with
  | (.ok _, t) => some ⟨t, op :: w.log⟩
  | (.error _, t) => some ⟨t, w.log⟩

/-- Where a handler that is not an override goes. -/
def Handler.Takes (slots : Fin MAX_HANDLERS → Option (IntHandlerFunc R)) (i : Fin MAX_HANDLERS)
    (func : IntHandlerFunc R) : Handler R → Prop
  | .first g => g = func ∧ i = 0
  | .normal g => g = func ∧ normalSlot slots = some i
  | .last g => g = func ∧ i = lastSlot
  | .override _ => False

/-- What a call does: the handler goes into an empty slot, or the override is set, or the call fails
and leaves the table alone. -/
inductive Stepped (w : World R) : Fin IDT_SIZE × Handler R → World R → Prop
  | put (vec : Fin IDT_SIZE) (h : Handler R) (i : Fin MAX_HANDLERS) (func : IntHandlerFunc R)
      (hempty : w.idt.handlers vec i = none) (htakes : h.Takes (w.idt.handlers vec) i func) :
      Stepped w (vec, h) ⟨w.idt.setHandler vec i func, (vec, h) :: w.log⟩
  | override (vec : Fin IDT_SIZE) (handler : Option (IntHandlerFunc R)) :
      Stepped w (vec, .override handler)
        ⟨{ w.idt with handlerOverride := Function.update w.idt.handlerOverride vec handler },
          (vec, .override handler) :: w.log⟩
  | full (vec : Fin IDT_SIZE) (h : Handler R)
      (hfull : ∀ i func, w.idt.handlers vec i = none → ¬ h.Takes (w.idt.handlers vec) i func)
      (hop : ∀ handler, h ≠ .override handler) : Stepped w (vec, h) w

theorem normalSlot_empty {slots : Fin MAX_HANDLERS → Option (IntHandlerFunc R)} {i : Fin MAX_HANDLERS}
    (h : normalSlot slots = some i) : slots i = none := by
  have hnone := List.find?_some h
  rwa [Option.isNone_iff_eq_none] at hnone

theorem step_spec {w w' : World R} {op : Fin IDT_SIZE × Handler R} (h : step w op = some w') :
    Stepped w op w' := by
  obtain ⟨vec, hd⟩ := op
  cases hd with
  | first func =>
    cases hslot : w.idt.handlers vec 0 with
    | none =>
      simp only [step, Handler.register, hslot, Option.isNone_none, if_true] at h
      cases h
      exact .put vec _ 0 func hslot ⟨rfl, rfl⟩
    | some g =>
      simp only [step, Handler.register, hslot, Option.isNone_some] at h
      cases h
      refine .full vec _ (fun i f hnone htakes => ?_) (fun _ => nofun)
      rw [htakes.2, hslot] at hnone
      cases hnone
  | normal func =>
    cases hslot : normalSlot (w.idt.handlers vec) with
    | none =>
      simp only [step, Handler.register, hslot] at h
      cases h
      refine .full vec _ (fun i f hnone htakes => ?_) (fun _ => nofun)
      rw [htakes.2] at hslot
      cases hslot
    | some i =>
      simp only [step, Handler.register, hslot] at h
      cases h
      exact .put vec _ i func (normalSlot_empty hslot) ⟨rfl, hslot⟩
  | last func =>
    cases hslot : w.idt.handlers vec lastSlot with
    | none =>
      simp only [step, Handler.register, hslot, Option.isNone_none, if_true] at h
      cases h
      exact .put vec _ lastSlot func hslot ⟨rfl, rfl⟩
    | some g =>
      simp only [step, Handler.register, hslot, Option.isNone_some] at h
      cases h
      refine .full vec _ (fun i f hnone htakes => ?_) (fun _ => nofun)
      rw [htakes.2, hslot] at hnone
      cases hnone
  | override handler =>
    simp only [step, Handler.register] at h
    cases h
    exact .override vec handler

/-- The answer of `rust_int_handler` is that of an override or of a `Last` handler registered for the
vector, and `false` where no `Last` handler is. -/
def World.Answers (w : World R) (vec : Fin IDT_SIZE) (errorCode : ℕ) (answer : Bool) : Prop :=
  (∃ handler regs, (vec, Handler.override (some handler)) ∈ w.log ∧
      answer = (handler regs errorCode).2) ∨
    (∃ func regs, (vec, Handler.last func) ∈ w.log ∧ answer = (func regs errorCode).2) ∨
    ((∀ func, (vec, Handler.last func) ∉ w.log) ∧ answer = false)

/-- What holds of a table: `Last` succeeds exactly where no `Last` handler was registered, and the
interrupt path answers as a `Last` handler or an override does. -/
structure World.Sound (w : World R) : Prop where
  last : ∀ vec func,
    ((Handler.last func).register vec w.idt).1 = .ok () ↔ ∀ g, (vec, Handler.last g) ∉ w.log
  answers : ∀ vec regs errorCode (data : GsData R), data.idt = w.idt →
    w.Answers vec errorCode (rustIntHandler vec regs errorCode data).changeRegs

/-- What a call of `register` promises: a `Normal` handler takes neither the first nor the last slot,
no handler in a slot is overwritten or dropped, and the override of a vector changes only by an
`Override` for it. -/
structure Promised (w : World R) (op : Fin IDT_SIZE × Handler R) (w' : World R) : Prop where
  normal : ∀ func, op.2 = .normal func → ∀ vec,
    w'.idt.handlers vec 0 = w.idt.handlers vec 0 ∧
      w'.idt.handlers vec lastSlot = w.idt.handlers vec lastSlot
  slots : ∀ vec i func, w.idt.handlers vec i = some func → w'.idt.handlers vec i = some func
  override : ∀ vec, (∀ handler, op ≠ (vec, .override handler)) →
    w'.idt.handlerOverride vec = w.idt.handlerOverride vec
  sound : w'.Sound

/-- A `Normal` handler is registered only where a middle slot is empty or the last slot is taken. -/
def World.LeavesLast (w : World R) (op : Fin IDT_SIZE × Handler R) : Prop :=
  ∀ func, op.2 = .normal func →
    w.idt.handlers op.1 1 = none ∨ w.idt.handlers op.1 2 = none ∨
      w.idt.handlers op.1 lastSlot ≠ none

/-- The last slots hold exactly the `Last` handlers that were registered, and the overrides in force
were registered. -/
structure World.Placed (w : World R) : Prop where
  last : ∀ vec func, w.idt.handlers vec lastSlot = some func → (vec, Handler.last func) ∈ w.log
  none_last : ∀ vec, w.idt.handlers vec lastSlot = none → ∀ func, (vec, Handler.last func) ∉ w.log
  override : ∀ vec handler, w.idt.handlerOverride vec = some handler →
    (vec, Handler.override (some handler)) ∈ w.log

theorem World.Placed.sound {w : World R} (h : w.Placed) : w.Sound := by
  constructor
  · intro vec func
    cases hslot : w.idt.handlers vec lastSlot with
    | none =>
      simp only [Handler.register, hslot, Option.isNone_none, if_true, true_iff]
      exact h.none_last vec hslot
    | some g =>
      simp only [Handler.register, hslot, Option.isNone_some]
      exact iff_of_false nofun fun hno => hno g (h.last vec g hslot)
  · intro vec regs errorCode data hdata
    simp only [rustIntHandler, hdata]
    cases hover : w.idt.handlerOverride vec with
    | some handler => exact .inl ⟨handler, _, h.override vec handler hover, rfl⟩
    | none =>
      obtain ⟨hnone, hsome⟩ := callSlots_answer (w.idt.handlers vec) errorCode
        { regs with callRsp := data.callRsp, callSaveRsp := data.callSaveRsp }
      cases hslot : w.idt.handlers vec lastSlot with
      | none => exact .inr (.inr ⟨h.none_last vec hslot, hnone hslot⟩)
      | some func =>
        obtain ⟨regs', hanswer⟩ := hsome func hslot
        exact .inr (.inl ⟨func, regs', h.last vec func hslot, hanswer⟩)

theorem setHandler_at (t : Idt R) (vec : Fin IDT_SIZE) (i : Fin MAX_HANDLERS)
    (func : IntHandlerFunc R) : (t.setHandler vec i func).handlers vec i = some func := by
  simp [Idt.setHandler]

theorem setHandler_other {t : Idt R} {vec v : Fin IDT_SIZE} {i j : Fin MAX_HANDLERS}
    {func : IntHandlerFunc R} (h : v ≠ vec ∨ j ≠ i) :
    (t.setHandler vec i func).handlers v j = t.handlers v j := by
  by_cases hv : v = vec
  · subst hv
    have hj : j ≠ i := h.resolve_left (absurd rfl)
    simp [Idt.setHandler, hj]
  · simp [Idt.setHandler, hv]

/-- A `Normal` handler takes the last slot exactly where the middle ones are taken and it is empty. -/
theorem normalSlot_last {slots : Fin MAX_HANDLERS → Option (IntHandlerFunc R)} :
    normalSlot slots = some lastSlot ↔
      slots 1 ≠ none ∧ slots 2 ≠ none ∧ slots lastSlot = none := by
  unfold normalSlot normalRange
  cases h1 : slots 1 <;> cases h2 : slots 2 <;> cases h3 : slots lastSlot <;>
    simp [List.find?, h1, h2, h3] <;> decide

theorem normalSlot_ne_zero {slots : Fin MAX_HANDLERS → Option (IntHandlerFunc R)} :
    normalSlot slots ≠ some 0 := by
  intro h
  have hmem := List.mem_of_find?_eq_some h
  revert hmem
  decide

theorem World.leavesLast_iff {w : World R} {vec : Fin IDT_SIZE} {h : Handler R} :
    w.LeavesLast (vec, h) ↔
      ∀ func, h = .normal func → normalSlot (w.idt.handlers vec) ≠ some lastSlot := by
  refine forall₂_congr fun func _ => ?_
  refine Iff.trans ?_ (not_congr normalSlot_last).symm
  tauto

/-- A handler put into an empty slot keeps the tables as they should be, unless it is a `Normal`
handler in the last slot. -/
theorem World.Placed.put {w : World R} (hw : w.Placed) {vec : Fin IDT_SIZE} {h : Handler R}
    {i : Fin MAX_HANDLERS} {func : IntHandlerFunc R} (hempty : w.idt.handlers vec i = none)
    (htakes : h.Takes (w.idt.handlers vec) i func) (hleaves : w.LeavesLast (vec, h)) :
    World.Placed ⟨w.idt.setHandler vec i func, (vec, h) :: w.log⟩ := by
  rw [World.leavesLast_iff] at hleaves
  have hlast : i = lastSlot → h = .last func := by
    rintro rfl
    cases h with
    | first g => exact absurd htakes.2 (by decide)
    | normal g => exact absurd htakes.2 (hleaves g rfl)
    | last g => rw [htakes.1]
    | override handler => exact htakes.elim
  constructor
  · intro v f hf
    by_cases hv : v = vec ∧ lastSlot = i
    · obtain ⟨rfl, rfl⟩ := hv
      rw [setHandler_at] at hf
      cases hf
      rw [hlast rfl]
      exact List.mem_cons_self
    · rw [setHandler_other (not_and_or.1 hv)] at hf
      exact List.mem_cons_of_mem _ (hw.last v f hf)
  · intro v hnone f hmem
    by_cases hv : v = vec ∧ lastSlot = i
    · obtain ⟨rfl, rfl⟩ := hv
      rw [setHandler_at] at hnone
      cases hnone
    · rw [setHandler_other (not_and_or.1 hv)] at hnone
      cases hmem with
      | head => exact hv ⟨rfl, htakes.2.symm⟩
      | tail _ hmem => exact hw.none_last v hnone f hmem
  · intro v handler hv
    exact List.mem_cons_of_mem _ (hw.override v handler hv)

theorem World.Placed.setOverride {w : World R} (hw : w.Placed) (vec : Fin IDT_SIZE)
    (handler : Option (IntHandlerFunc R)) :
    World.Placed ⟨{ w.idt with handlerOverride := Function.update w.idt.handlerOverride vec handler },
      (vec, .override handler) :: w.log⟩ := by
  constructor
  · intro v f hf
    exact List.mem_cons_of_mem _ (hw.last v f hf)
  · intro v hnone f hmem
    cases hmem with
    | tail _ hmem => exact hw.none_last v hnone f hmem
  · intro v h hv
    change Function.update _ _ _ _ = _ at hv
    by_cases heq : v = vec
    · subst heq
      rw [Function.update_self] at hv
      rw [hv]
      exact List.mem_cons_self
    · rw [Function.update_of_ne heq] at hv
      exact List.mem_cons_of_mem _ (hw.override v h hv)

theorem World.Placed.step_iff {w w' : World R} {op : Fin IDT_SIZE × Handler R} (hw : w.Placed)
    (hs : step w op = some w') :
    (Promised w op w' ↔ w.LeavesLast op) ∧ (w.LeavesLast op → w'.Placed) := by
  cases step_spec hs with
  | put vec h i func hempty htakes =>
    refine ⟨⟨fun hp => ?_, fun hleaves => ?_⟩, hw.put hempty htakes⟩
    · rw [World.leavesLast_iff]
      rintro g rfl hslot
      obtain rfl : i = lastSlot := Option.some.inj (htakes.2.symm.trans hslot)
      have hkept := (hp.normal g rfl vec).2
      rw [setHandler_at, hempty] at hkept
      cases hkept
    · rw [World.leavesLast_iff] at hleaves
      refine ⟨?_, ?_, fun _ _ => rfl, ((hw.put hempty htakes) (World.leavesLast_iff.2 hleaves)).sound⟩
      · rintro g rfl v
        have h0 : i ≠ 0 := fun h0 => normalSlot_ne_zero (h0 ▸ htakes.2)
        have h3 : i ≠ lastSlot := fun h3 => hleaves g rfl (h3 ▸ htakes.2)
        exact ⟨setHandler_other (.inr h0.symm), setHandler_other (.inr h3.symm)⟩
      · intro v j f hf
        by_cases hv : v = vec ∧ j = i
        · obtain ⟨rfl, rfl⟩ := hv
          rw [hempty] at hf
          cases hf
        · rwa [setHandler_other (not_and_or.1 hv)]
  | override vec handler =>
    have hplaced := hw.setOverride vec handler
    refine ⟨iff_of_true ⟨?_, fun _ _ _ hf => hf, ?_, hplaced.sound⟩ ?_, fun _ => hplaced⟩
    · intro func hop
      cases hop
    · intro v hop
      have hne : v ≠ vec := by
        rintro rfl
        exact hop handler rfl
      exact Function.update_of_ne hne _ _
    · intro func hop
      cases hop
  | full vec h hfull hop =>
    have hleaves : w.LeavesLast (vec, h) := by
      rw [World.leavesLast_iff]
      rintro g rfl hslot
      exact hfull lastSlot g (normalSlot_empty hslot) ⟨rfl, hslot⟩
    exact ⟨iff_of_true ⟨fun _ _ _ => ⟨rfl, rfl⟩, fun _ _ _ hf => hf, fun _ _ => rfl, hw.sound⟩
      hleaves, fun _ => hw⟩

/-- **`register` keeps its promises exactly along the calls that register no `Normal` handler where the
middle slots are taken and the last one is empty.** -/
theorem promised_along_iff (ops : List (Fin IDT_SIZE × Handler R)) :
    (World.boot (R := R)).Sound ∧
      (Machine.Along step (fun w op => ∀ w' ∈ step w op, Promised w op w') World.boot ops ↔
        Machine.Along step World.LeavesLast (World.boot (R := R)) ops) := by
  have hboot : (World.boot (R := R)).Placed := ⟨nofun, fun _ _ _ => nofun, nofun⟩
  refine ⟨hboot.sound, Machine.along_reaches_iff World.Placed (fun w op w' hw => hw.step_iff) ?_ hboot⟩
  intro w op _ hs
  unfold step at hs
  split at hs <;> cases hs

/-- A handler that reports a change. -/
def reports : IntHandlerFunc Unit := fun regs _ => (regs, true)

/-- The third `Normal` handler takes the last slot: `Last` fails although no `Last` handler was
registered, and the interrupt path answers as a `Normal` handler does. -/
theorem normal_takes_last :
    (Machine.run step (World.boot (R := Unit))
        [(0, .normal reports), (0, .normal reports), (0, .normal reports)]).map
      (fun w => ((w.idt.handlers 0 lastSlot).isSome,
        ((Handler.last reports).register 0 w.idt).1.toBool,
        (rustIntHandler 0 ⟨0, 0, ()⟩ 0 ⟨0, 0, 0, w.idt⟩).changeRegs)) = some (true, false, true) ∧
      ¬ ∀ ops : List (Fin IDT_SIZE × Handler Unit),
        Machine.Along step (fun w op => ∀ w' ∈ step w op, Promised w op w') World.boot ops := by
  refine ⟨by decide, fun h => ?_⟩
  have hthird := (h [(0, .normal reports), (0, .normal reports), (0, .normal reports)]).2 _ rfl
    |>.2 _ rfl |>.1 _ rfl
  have hslot := congrArg Option.isSome (hthird.normal reports rfl 0).2
  exact absurd hslot (by decide)

end AuroraOs.Interrupts
