import AuroraOs.Util
import AuroraOs.Lib.Machine

/-!
# The PIT: `Pit::tick` on several CPUs

Every CPU runs `tick` for each interrupt of the timer, and one of them must count it.  `tick` loads
`elapsed_time`, adds the length of a period, and exchanges `elapsed_time` for the sum if it still is what
this CPU saw last.  A CPU whose exchange fails takes over what it finds.

`step` is one atomic step of one CPU, the next interrupt, or a CPU that joins.  Sums are checked: `none`
is an overflow, or a step that the CPU is not at.
-/

namespace AuroraOs.PitTimer

/-- `NANOSEC_PER_CLOCK`. -/
abbrev NANOSEC_PER_CLOCK : ℕ := 838

/-- The atomics of a `Pit`. -/
structure Pit where
  elapsedTime : ℕ
  reset : ℕ
  nanoReset : ℕ
  deriving DecidableEq

def Pit.new : Pit := ⟨0, 0, 0⟩

/-- What `set_reset(ticks)` stores. -/
def Pit.setReset (pit : Pit) (ticks : ℕ) : Pit :=
  { pit with reset := ticks, nanoReset := NANOSEC_PER_CLOCK * ticks }

/-- Where a CPU is with the latest interrupt. -/
inductive Pc
  | handled
  | raised
  /-- In `tick`, between the load and the exchange. -/
  | loaded (newTime : ℕ)
  deriving DecidableEq

/-- A CPU with its `last_time`. -/
structure Cpu where
  lastTime : ℕ
  pc : Pc
  deriving DecidableEq

/-- The timer, the CPUs that take part, and how many interrupts there were. -/
structure World where
  pit : Pit
  cpus : List Cpu
  round : ℕ
  deriving DecidableEq

inductive Act
  | interrupt
  | load (cpu : ℕ)
  | exchange (cpu : ℕ)
  /-- A CPU joins, and handles the latest interrupt or only the ones to come. -/
  | join (handles : Bool)
  deriving DecidableEq

/-- Every CPU has handled the latest interrupt. -/
def World.Handled (w : World) : Prop := ∀ c ∈ w.cpus, c.pc = .handled

instance (w : World) : Decidable w.Handled := inferInstanceAs (Decidable (∀ c ∈ w.cpus, c.pc = .handled))

/-- One atomic step. -/
def step (w : World) : Act → Option World
  | .interrupt =>
      if w.Handled then
        some { w with cpus := w.cpus.map fun c => { c with pc := .raised }, round := w.round + 1 }
      else none
  | .load i =>
      match w.cpus[i]? with
      | some ⟨lastTime, .raised⟩ =>
          let newTime := w.pit.elapsedTime + w.pit.nanoReset
          if newTime < usizeMod then some { w with cpus := w.cpus.set i ⟨lastTime, .loaded newTime⟩ }
          else none
      | _ => none
  | .exchange i =>
      match w.cpus[i]? with
      | some ⟨lastTime, .loaded newTime⟩ =>
          if w.pit.elapsedTime = lastTime then
            some { w with
              pit := { w.pit with elapsedTime := newTime }
              cpus := w.cpus.set i ⟨newTime, .handled⟩ }
          else some { w with cpus := w.cpus.set i ⟨w.pit.elapsedTime, .handled⟩ }
      | _ => none
  | .join handles =>
      if handles = true then
        if w.round ≠ 0 then some { w with cpus := w.cpus ++ [⟨0, .raised⟩] } else none
      else some { w with cpus := w.cpus ++ [⟨0, .handled⟩] }

/-- So many CPUs from the start, and a timer that was just set. -/
def World.boot (ticks n : ℕ) : World := ⟨Pit.new.setReset ticks, List.replicate n ⟨0, .handled⟩, 0⟩

/-! ### The invariant -/

/-- What any CPU has seen, where the interrupts up to now make `total` and `elapsed` of it is counted: no
more than was counted before the latest one, until it has handled that. -/
def Cpu.Within (r total elapsed : ℕ) (c : Cpu) : Prop :=
  match c.pc with
  | .handled => c.lastTime ≤ elapsed
  | .raised => c.lastTime + r ≤ total
  | .loaded newTime =>
      c.lastTime + r ≤ total ∧ (newTime = total ∨ newTime = total + r ∧ elapsed = total)

/-- A CPU that took part from the start has seen all of it, and then it is counted. -/
def Cpu.InStep (r total elapsed : ℕ) (c : Cpu) : Prop :=
  match c.pc with
  | .handled => c.lastTime = total ∧ elapsed = total
  | _ => c.lastTime + r = total

/-- All interrupts are counted but for the latest one, and this is as well once the first CPU has handled
it. -/
structure Inv (r : ℕ) (w : World) : Prop where
  nano : w.pit.nanoReset = r
  elapsed : w.pit.elapsedTime = w.round * r ∨ w.pit.elapsedTime + r = w.round * r
  within : ∀ c ∈ w.cpus, c.Within r (w.round * r) w.pit.elapsedTime
  inStep : ∃ c, w.cpus[0]? = some c ∧ c.InStep r (w.round * r) w.pit.elapsedTime

variable {r total elapsed lastTime newTime i : ℕ} {c : Cpu} {w w' : World} {a : Act}

theorem inv_boot (ticks : ℕ) {n : ℕ} (hn : 0 < n) : Inv (NANOSEC_PER_CLOCK * ticks) (World.boot ticks n) := by
  refine ⟨rfl, Or.inl (Nat.zero_mul _).symm, fun c hc => ?_, ⟨0, .handled⟩, ?_, ?_⟩
  · obtain rfl := List.eq_of_mem_replicate hc
    exact Nat.zero_le _
  · simp only [World.boot, List.getElem?_replicate, if_pos hn]
  · exact ⟨(Nat.zero_mul _).symm, (Nat.zero_mul _).symm⟩

/-- What a CPU becomes by a step must fit, and what the others have seen must still do. -/
theorem Inv.set (h : Inv r w) {c₁ : Cpu} {t : ℕ} (hi : w.cpus[i]? = some c)
    (ht : t = w.round * r ∨ t + r = w.round * r)
    (hothers : ∀ c : Cpu, (c.Within r (w.round * r) w.pit.elapsedTime → c.Within r (w.round * r) t) ∧
      (c.InStep r (w.round * r) w.pit.elapsedTime → c.InStep r (w.round * r) t))
    (hwithin : c₁.Within r (w.round * r) t)
    (hinStep : c.InStep r (w.round * r) w.pit.elapsedTime → c₁.InStep r (w.round * r) t) :
    Inv r { w with pit := { w.pit with elapsedTime := t }, cpus := w.cpus.set i c₁ } := by
  obtain ⟨c₀, h₀, hstep⟩ := h.inStep
  refine ⟨h.nano, ht, fun c' hc' => ?_, ?_⟩
  · rcases List.mem_or_eq_of_mem_set hc' with hmem | rfl
    · exact (hothers c').1 (h.within c' hmem)
    · exact hwithin
  · rcases eq_or_ne i 0 with rfl | hne
    · obtain rfl : c = c₀ := Option.some.inj (hi.symm.trans h₀)
      exact ⟨c₁, by rw [List.getElem?_set_self', h₀]; rfl, hinStep hstep⟩
    · exact ⟨c₀, by rw [List.getElem?_set_ne hne, h₀], (hothers c₀).2 hstep⟩

/-- A load takes the sum that was not counted yet, or one too many where another CPU has counted. -/
theorem Inv.load (h : Inv r w) (hs : step w (.load i) = some w') : Inv r w' := by
  simp only [step] at hs
  split at hs
  · next lastTime hi =>
    split_ifs at hs
    obtain rfl := Option.some.inj hs
    have hc : lastTime + r ≤ w.round * r := h.within _ (List.mem_of_getElem? hi)
    refine h.set hi h.elapsed (fun c => ⟨id, id⟩) ⟨hc, ?_⟩ id
    rw [h.nano]
    rcases h.elapsed with heq | heq
    · exact Or.inr ⟨by rw [heq], heq⟩
    · exact Or.inl heq
  · cases hs

/-- An exchange succeeds only where the latest interrupt is not counted, and counts it; after one that fails
a CPU that took part from the start knows that it is counted. -/
theorem Inv.exchange (h : Inv r w) (hs : step w (.exchange i) = some w') : Inv r w' := by
  simp only [step] at hs
  split at hs
  · next lastTime newTime hi =>
    obtain ⟨hlast, hnew⟩ : lastTime + r ≤ w.round * r ∧
        (newTime = w.round * r ∨ newTime = w.round * r + r ∧ w.pit.elapsedTime = w.round * r) :=
      h.within _ (List.mem_of_getElem? hi)
    have helapsed := h.elapsed
    split_ifs at hs with heq
    · obtain rfl := Option.some.inj hs
      have htotal : newTime = w.round * r := by omega
      refine h.set hi (Or.inl htotal) (fun c => ⟨fun hc => ?_, fun hc => ?_⟩) le_rfl fun _ => ⟨htotal, htotal⟩
      · unfold Cpu.Within at hc ⊢
        split at hc <;> omega
      · unfold Cpu.InStep at hc ⊢
        split at hc <;> omega
    · obtain rfl := Option.some.inj hs
      refine h.set hi h.elapsed (fun c => ⟨id, id⟩) le_rfl fun hc => ?_
      have hc : lastTime + r = w.round * r := hc
      have htotal : w.pit.elapsedTime = w.round * r := by omega
      exact ⟨htotal, htotal⟩
  · cases hs

/-- The next interrupt comes when the one before is counted. -/
theorem Inv.interrupt (h : Inv r w) (hs : step w .interrupt = some w') : Inv r w' := by
  simp only [step] at hs
  split_ifs at hs with hall
  obtain rfl := Option.some.inj hs
  obtain ⟨c₀, h₀, hstep⟩ := h.inStep
  rw [Cpu.InStep, hall c₀ (List.mem_of_getElem? h₀)] at hstep
  obtain ⟨hlast, htotal⟩ := hstep
  have hnext : (w.round + 1) * r = w.round * r + r := Nat.succ_mul _ _
  refine ⟨h.nano, Or.inr ?_, fun c hc => ?_, { c₀ with pc := .raised }, ?_, ?_⟩
  · rw [hnext, htotal]
  · obtain ⟨c₁, hmem, rfl⟩ := List.mem_map.1 hc
    have hc₁ := h.within c₁ hmem
    rw [Cpu.Within, hall c₁ hmem] at hc₁
    show c₁.lastTime + r ≤ (w.round + 1) * r
    rw [hnext, ← htotal]
    exact Nat.add_le_add_right hc₁ r
  · simp only [List.getElem?_map, h₀, Option.map_some]
  · show c₀.lastTime + r = (w.round + 1) * r
    rw [hnext, hlast]

theorem Inv.append (h : Inv r w) (hc : c.Within r (w.round * r) w.pit.elapsedTime) :
    Inv r { w with cpus := w.cpus ++ [c] } := by
  obtain ⟨c₀, h₀, hstep⟩ := h.inStep
  refine ⟨h.nano, h.elapsed, fun c' hc' => ?_, c₀, ?_, hstep⟩
  · rcases List.mem_append.1 hc' with hmem | hmem
    · exact h.within c' hmem
    · rwa [List.mem_singleton.1 hmem]
  · rw [List.getElem?_append_left (List.getElem?_eq_some_iff.1 h₀).1, h₀]

theorem Inv.join {handles : Bool} (h : Inv r w) (hs : step w (.join handles) = some w') : Inv r w' := by
  simp only [step] at hs
  split_ifs at hs with hhandles hround
  · obtain rfl := Option.some.inj hs
    refine h.append ?_
    show 0 + r ≤ w.round * r
    rw [Nat.zero_add]
    exact Nat.le_mul_of_pos_left r (Nat.pos_of_ne_zero hround)
  · obtain rfl := Option.some.inj hs
    exact h.append (Nat.zero_le _)

/-- Every step keeps the invariant. -/
theorem Inv.step (h : Inv r w) (hs : step w a = some w') : Inv r w' := by
  cases a with
  | interrupt => exact h.interrupt hs
  | load i => exact h.load hs
  | exchange i => exact h.exchange hs
  | join handles => exact h.join hs

theorem inv_run {acts : List Act} (h : Inv r w) (hrun : Machine.run PitTimer.step w acts = some w') :
    Inv r w' :=
  Machine.run_keeps (P := fun _ _ => True) (Inv r) (fun _ _ _ hinv _ hs => hinv.step hs) h
    (Machine.along_of_forall (R := fun _ => True) fun _ _ => trivial) hrun

/-- Once the first CPU has handled the latest interrupt, all are counted. -/
theorem Inv.elapsed_eq (h : Inv r w) (hall : w.Handled) : w.pit.elapsedTime = w.round * r := by
  obtain ⟨c₀, h₀, hstep⟩ := h.inStep
  rw [Cpu.InStep, hall c₀ (List.mem_of_getElem? h₀)] at hstep
  exact hstep.2

/-- **Each interrupt is counted exactly once**, however the CPUs interleave and whenever others join: after
`round` interrupts `elapsed_time` is so many periods, and while the latest one is handled it is that or one
period less. -/
theorem tick_counts_once {ticks n : ℕ} {acts : List Act} (hn : 0 < n)
    (hrun : Machine.run step (World.boot ticks n) acts = some w) :
    w.pit.nanoReset = NANOSEC_PER_CLOCK * ticks ∧
      (w.pit.elapsedTime = w.round * w.pit.nanoReset ∨
        w.pit.elapsedTime + w.pit.nanoReset = w.round * w.pit.nanoReset) ∧
      (w.Handled → w.pit.elapsedTime = w.round * w.pit.nanoReset) := by
  have hinv := inv_run (inv_boot ticks hn) hrun
  rw [hinv.nano]
  exact ⟨rfl, hinv.elapsed, hinv.elapsed_eq⟩

/-- Two CPUs that load before either exchanges, and a third that joins in between and falls behind. -/
theorem tick_counts_once_race :
    ∃ w, Machine.run step (World.boot 0xffff 2)
        [.interrupt, .load 0, .load 1, .join true, .exchange 1, .exchange 0, .load 2, .exchange 2,
          .interrupt, .load 2, .exchange 2, .load 1, .load 0, .exchange 0, .exchange 1] = some w ∧
      w.Handled ∧ w.round = 2 ∧ w.pit.nanoReset = NANOSEC_PER_CLOCK * 0xffff ∧
      (w.pit.elapsedTime = w.round * w.pit.nanoReset ∨
        w.pit.elapsedTime + w.pit.nanoReset = w.round * w.pit.nanoReset) ∧
      (w.Handled → w.pit.elapsedTime = w.round * w.pit.nanoReset) := by
  have hrun : Machine.run step (World.boot 0xffff 2)
      [.interrupt, .load 0, .load 1, .join true, .exchange 1, .exchange 0, .load 2, .exchange 2,
        .interrupt, .load 2, .exchange 2, .load 1, .load 0, .exchange 0, .exchange 1] =
      some ⟨⟨109836660, 0xffff, 54918330⟩,
        [⟨109836660, .handled⟩, ⟨109836660, .handled⟩, ⟨109836660, .handled⟩], 2⟩ := by
    decide
  exact ⟨_, hrun, by decide, rfl, tick_counts_once (by decide) hrun⟩

end AuroraOs.PitTimer
