import AuroraOs.Util
import AuroraOs.Lib.Machine

/-!
# The APIC timer as a clock

`nsec` of a local APIC is a sum of two parts: `elapsed_time`, which `tick` moves on by a period when
the timer interrupt is handled, and the part of the current period that the count register shows.  The
register is reloaded before the interrupt is handled, so that the sum can go back by up to a period.
`time_handler` subtracts the time of the last switch from `nsec` all the same.

`step` is one step of the hardware or of a handler on one CPU.  Interrupts are off in a handler, so that
the handlers follow one another, while the hardware takes steps between any two of theirs.  Arithmetic is
checked: `none` is an overflow, or a step that the CPU is not at.
-/

namespace AuroraOs.ApicTimer

/-- `config::TIMER_PERIOD`, 40 milliseconds. -/
abbrev TIMER_PERIOD : ℕ := 40000000

/-- `TIMER_CALIBRATE_TIME`, 20 milliseconds. -/
abbrev TIMER_CALIBRATE_TIME : ℕ := 20000000

/-- `config::SCHED_TIME_NANOS`, 10 milliseconds. -/
abbrev SCHED_TIME_NANOS : ℕ := 10000000

/-- `u32::MAX`. -/
abbrev u32Max : ℕ := 2 ^ 32 - 1

/-- Where a CPU is in a handler. -/
inductive Pc
  | idle
  /-- The timer interrupt was delivered, the handler in the first slot is next: `tick`. -/
  | first
  /-- In front of `time_handler`. -/
  | timeHandler
  /-- In `time_handler`, in front of the subtraction. -/
  | subtract (nsec : ℕ)
  /-- In `int_handler`, in front of the assignment. -/
  | assign (nsec : ℕ)
  deriving DecidableEq

/-- A CPU: its `LocalApic`, with the count register and the pending timer interrupt, the calibrated length
of a timer tick, and `last_switch_nsec`. -/
structure Cpu where
  elapsedTime : ℕ
  count : ℕ
  nanosecPerTick : ℕ
  timerCount : ℕ
  pending : Bool
  lastSwitchNsec : ℕ
  pc : Pc
  deriving DecidableEq

/-- `nanosec_per_timer_tick` where it calibrates; `new_count` is what the register shows at the end. -/
def calibrate (newCount : ℕ) : Option ℕ :=
  let elapsedTicks := u32Max - newCount
  if elapsedTicks = 0 then none else some (TIMER_CALIBRATE_TIME / elapsedTicks)

/-- `init_timer(period)` on a CPU that nothing happened on yet; nothing where it panics, and `false` where
the period is too long. -/
def initTimer (period nsecPer : ℕ) : Option (Bool × Cpu) :=
  let cpu : Cpu := ⟨0, 0, nsecPer, 0, false, 0, .idle⟩
  if period < 2 ^ 32 then
    let per := nsecPer % 2 ^ 32
    if per = 0 then none else some (true, { cpu with count := period / per, timerCount := period / per })
  else some (false, cpu)

/-- `tick`. -/
def Cpu.tick (c : Cpu) : Option Cpu :=
  if c.elapsedTime + TIMER_PERIOD < usizeMod then
    some { c with elapsedTime := c.elapsedTime + TIMER_PERIOD }
  else none

/-- `nsec`. -/
def Cpu.nsec (c : Cpu) : Option ℕ :=
  if c.timerCount ≤ c.count then
    let part := (c.count - c.timerCount) * c.nanosecPerTick
    if part < usizeMod ∧ c.elapsedTime + part < usizeMod then some (c.elapsedTime + part) else none
  else none

/-- Steps of the hardware, and of the handlers. -/
inductive Act
  | countDown
  | reload
  | deliver
  | tick
  | timeHandler
  | subtract
  | intHandler
  | assign
  deriving DecidableEq

/-- One step.  A reload may come whatever the register shows, but not while one is pending. -/
def step (c : Cpu) : Act → Option Cpu
  | .countDown =>
      if c.timerCount ≠ 0 then some { c with timerCount := c.timerCount - 1 } else none
  | .reload =>
      if c.pending = false then some { c with timerCount := c.count, pending := true } else none
  | .deliver =>
      if c.pc = .idle ∧ c.pending = true then some { c with pending := false, pc := .first } else none
  | .tick => if c.pc = .first then c.tick.map fun c => { c with pc := .timeHandler } else none
  | .timeHandler =>
      if c.pc = .timeHandler then c.nsec.map fun nsec => { c with pc := .subtract nsec } else none
  | .subtract =>
      match c.pc with
      | .subtract nsec =>
          if c.lastSwitchNsec ≤ nsec then
            if nsec - c.lastSwitchNsec > SCHED_TIME_NANOS then
              some { c with lastSwitchNsec := nsec, pc := .idle }
            else some { c with pc := .idle }
          else none
      | _ => none
  | .intHandler =>
      if c.pc = .idle then c.nsec.map fun nsec => { c with pc := .assign nsec } else none
  | .assign =>
      match c.pc with
      | .assign nsec => some { c with lastSwitchNsec := nsec, pc := .idle }
      | _ => none

variable {c c' : Cpu} {a : Act} {nsec nsecPer newCount : ℕ}

/-- What `nsec` answers: no more than a period past `elapsed_time`. -/
theorem nsec_spec (hpart : c.count * c.nanosecPerTick ≤ TIMER_PERIOD) (h : c.nsec = some nsec) :
    c.elapsedTime ≤ nsec ∧ nsec ≤ c.elapsedTime + TIMER_PERIOD := by
  simp only [Cpu.nsec] at h
  split_ifs at h
  have hle : (c.count - c.timerCount) * c.nanosecPerTick ≤ c.count * c.nanosecPerTick :=
    Nat.mul_le_mul_right _ (Nat.sub_le _ _)
  obtain rfl := Option.some.inj h
  exact ⟨Nat.le_add_right _ _, Nat.add_le_add_left (hle.trans hpart) _⟩

theorem tick_spec (h : c.tick = some c') :
    c' = { c with elapsedTime := c.elapsedTime + TIMER_PERIOD } := by
  unfold Cpu.tick at h
  split_ifs at h
  exact (Option.some.inj h).symm

/-- What a handler has read fits to `elapsed_time` and the time of the last switch: behind `tick` the last
switch is not past `elapsed_time`, and so not past a time read there. -/
def Pc.Fits (elapsed last : ℕ) : Pc → Prop
  | .timeHandler => last ≤ elapsed
  | .subtract nsec => last ≤ nsec ∧ nsec ≤ elapsed + TIMER_PERIOD
  | .assign nsec => nsec ≤ elapsed + TIMER_PERIOD
  | _ => True

/-- The last switch is at most a period past `elapsed_time`. -/
structure Inv (c : Cpu) : Prop where
  register : c.timerCount ≤ c.count
  part : c.count * c.nanosecPerTick ≤ TIMER_PERIOD
  last : c.lastSwitchNsec ≤ c.elapsedTime + TIMER_PERIOD
  fits : c.pc.Fits c.elapsedTime c.lastSwitchNsec

/-- `nsec` stops at nothing but an overflow of its sum. -/
theorem Inv.nsec_eq_none_iff (h : Inv c) :
    c.nsec = none ↔ usizeMod ≤ c.elapsedTime + (c.count - c.timerCount) * c.nanosecPerTick := by
  have hle : (c.count - c.timerCount) * c.nanosecPerTick ≤ TIMER_PERIOD :=
    (Nat.mul_le_mul_right _ (Nat.sub_le _ _)).trans h.part
  have hpart : (c.count - c.timerCount) * c.nanosecPerTick < usizeMod :=
    hle.trans_lt (by simp only [TIMER_PERIOD, usizeMod]; omega)
  simp only [Cpu.nsec, if_pos h.register, hpart, true_and]
  split_ifs with hsum
  · exact iff_of_false (fun h => nomatch h) hsum.not_ge
  · exact iff_of_true rfl (not_lt.1 hsum)

/-- A calibrated tick is no longer than the time of the calibration. -/
theorem calibrate_le (h : calibrate newCount = some nsecPer) : nsecPer ≤ TIMER_CALIBRATE_TIME := by
  simp only [calibrate] at h
  split_ifs at h
  obtain rfl := Option.some.inj h
  exact Nat.div_le_self _ _

/-- `init_timer` succeeds with a calibrated tick, and the whole count is at most a period long. -/
theorem inv_init (hcal : calibrate newCount = some nsecPer) (hpos : 1 ≤ nsecPer) :
    ∃ c, initTimer TIMER_PERIOD nsecPer = some (true, c) ∧ Inv c ∧ c.nanosecPerTick = nsecPer ∧
      c.count = TIMER_PERIOD / nsecPer := by
  have hle := calibrate_le hcal
  have hper : nsecPer % 2 ^ 32 = nsecPer :=
    Nat.mod_eq_of_lt (hle.trans_lt (by simp only [TIMER_CALIBRATE_TIME]; omega))
  refine ⟨⟨0, TIMER_PERIOD / nsecPer, nsecPer, TIMER_PERIOD / nsecPer, false, 0, .idle⟩, ?_, ?_, rfl, rfl⟩
  · simp only [initTimer, hper]
    rw [if_pos (by simp only [TIMER_PERIOD]; omega), if_neg (by omega)]
  · exact ⟨le_rfl, Nat.div_mul_le_self _ _, Nat.zero_le _, trivial⟩

/-- Every step keeps it. -/
theorem Inv.step (h : Inv c) (hs : step c a = some c') : Inv c' := by
  obtain ⟨hreg, hpart, hlast, hfits⟩ := h
  cases a with
  | countDown =>
    simp only [ApicTimer.step] at hs
    split_ifs at hs
    obtain rfl := Option.some.inj hs
    exact ⟨(Nat.sub_le _ _).trans hreg, hpart, hlast, hfits⟩
  | reload =>
    simp only [ApicTimer.step] at hs
    split_ifs at hs
    obtain rfl := Option.some.inj hs
    exact ⟨le_rfl, hpart, hlast, hfits⟩
  | deliver =>
    simp only [ApicTimer.step] at hs
    split_ifs at hs
    obtain rfl := Option.some.inj hs
    exact ⟨hreg, hpart, hlast, trivial⟩
  | tick =>
    simp only [ApicTimer.step] at hs
    split_ifs at hs
    obtain ⟨c₁, htick, rfl⟩ := Option.map_eq_some_iff.1 hs
    obtain rfl := tick_spec htick
    -- a last switch up to a period ahead is not ahead any more
    exact ⟨hreg, hpart, hlast.trans (Nat.le_add_right _ _), hlast⟩
  | timeHandler =>
    simp only [ApicTimer.step] at hs
    split_ifs at hs with hpc
    obtain ⟨nsec, hnsec, rfl⟩ := Option.map_eq_some_iff.1 hs
    obtain ⟨hlow, hhigh⟩ := nsec_spec hpart hnsec
    rw [hpc] at hfits
    exact ⟨hreg, hpart, hlast, hfits.trans hlow, hhigh⟩
  | subtract =>
    simp only [ApicTimer.step] at hs
    split at hs
    · next nsec hpc =>
      rw [hpc] at hfits
      split_ifs at hs
      · obtain rfl := Option.some.inj hs
        exact ⟨hreg, hpart, hfits.2, trivial⟩
      · obtain rfl := Option.some.inj hs
        exact ⟨hreg, hpart, hlast, trivial⟩
    · cases hs
  | intHandler =>
    simp only [ApicTimer.step] at hs
    split_ifs at hs
    obtain ⟨nsec, hnsec, rfl⟩ := Option.map_eq_some_iff.1 hs
    exact ⟨hreg, hpart, hlast, (nsec_spec hpart hnsec).2⟩
  | assign =>
    simp only [ApicTimer.step] at hs
    split at hs
    · next nsec hpc =>
      rw [hpc] at hfits
      obtain rfl := Option.some.inj hs
      exact ⟨hreg, hpart, hfits, trivial⟩
    · cases hs

/-- Every state that a run reaches has it. -/
theorem inv_run {acts : List Act} (h : Inv c) (hrun : Machine.run step c acts = some c') : Inv c' :=
  Machine.run_keeps (P := fun _ _ => True) Inv (fun _ _ _ hinv _ hs => hinv.step hs) h
    (Machine.along_of_forall (R := fun _ => True) fun _ _ => trivial) hrun

/-- **The subtraction of `time_handler` never underflows**, in whatever order the register counts down and
is reloaded, the interrupt is delivered and `int_handler` is called. -/
theorem timeHandler_no_underflow {acts : List Act} (hcal : calibrate newCount = some nsecPer)
    (hpos : 1 ≤ nsecPer) (hinit : initTimer TIMER_PERIOD nsecPer = some (true, c))
    (hrun : Machine.run step c acts = some c') :
    ∀ nsec, c'.pc = .subtract nsec → c'.lastSwitchNsec ≤ nsec ∧ (step c' .subtract).isSome := by
  intro nsec hpc
  obtain ⟨c₀, hc₀, hinv, -⟩ := inv_init hcal hpos
  obtain rfl : c = c₀ := by
    rw [hinit] at hc₀
    exact (Prod.mk.inj (Option.some.inj hc₀)).2
  have hfits := (inv_run hinv hrun).fits
  rw [hpc] at hfits
  have hle : c'.lastSwitchNsec ≤ nsec := hfits.1
  refine ⟨hle, ?_⟩
  simp only [step, hpc, if_pos hle]
  split_ifs <;> rfl

/-- A tick of 3 nanoseconds, which does not divide the period, and `int_handler` between the reload and the
delivery. -/
theorem timeHandler_no_underflow_three :
    ∃ c c', calibrate (u32Max - 6000000) = some 3 ∧ initTimer TIMER_PERIOD 3 = some (true, c) ∧
      Machine.run step c [.countDown, .intHandler, .reload, .assign, .countDown, .deliver, .tick, .countDown,
        .timeHandler] = some c' ∧ c'.pc = .subtract 40000006 ∧
      (c'.lastSwitchNsec ≤ 40000006 ∧ (step c' .subtract).isSome) := by
  obtain ⟨hcal, hinit, hrun, hpc⟩ : calibrate (u32Max - 6000000) = some 3 ∧
      initTimer TIMER_PERIOD 3 =
        some (true, ⟨0, 13333333, 3, 13333333, false, 0, .idle⟩) ∧
      Machine.run step ⟨0, 13333333, 3, 13333333, false, 0, .idle⟩
        [.countDown, .intHandler, .reload, .assign, .countDown, .deliver, .tick, .countDown,
          .timeHandler] = some ⟨40000000, 13333333, 3, 13333331, false, 3, .subtract 40000006⟩ ∧
      (⟨40000000, 13333333, 3, 13333331, false, 3, .subtract 40000006⟩ : Cpu).pc =
        .subtract 40000006 := by decide
  exact ⟨_, _, hcal, hinit, hrun, hpc, timeHandler_no_underflow hcal (by decide) hinit hrun _ hpc⟩

end AuroraOs.ApicTimer
