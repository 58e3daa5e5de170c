import Mathlib

/-!
# Runs of a machine that may panic

A machine is a step function `σ → ι → Option σ`: a state, a call, and the next state or a panic.
`Along step P s ops` says that every call of a run meets a condition on the state it is made in;
`run_inv` is the induction over a run, with the condition supplied at each step.

A loop is a function `turn : σ → Option σ`: one turn, or nothing where the loop ends.
-/

namespace Machine

variable {σ ι : Type*} (step : σ → ι → Option σ)

/-- A run of calls; `none` is a panic. -/
def run (s : σ) : List ι → Option σ
  | [] => some s
  | op :: ops => (step s op).bind fun s' => run s' ops

/-- Every call of the run meets the condition in the state it is made in. -/
def Along (P : σ → ι → Prop) (s : σ) : List ι → Prop
  | [] => True
  | op :: ops => P s op ∧ ∀ s' ∈ step s op, Along P s' ops

instance decidableAlong {P : σ → ι → Prop} [∀ s op, Decidable (P s op)] :
    (s : σ) → (ops : List ι) → Decidable (Along step P s ops)
  | _, [] => isTrue trivial
  | s, op :: ops =>
      haveI : ∀ s', Decidable (Along step P s' ops) := fun s' => decidableAlong s' ops
      inferInstanceAs (Decidable (P s op ∧ ∀ s' ∈ step s op, Along step P s' ops))

variable {step} {P Q : σ → ι → Prop} {s : σ} {ops : List ι}

theorem Along.and (h : Along step P s ops) (h' : Along step Q s ops) :
    Along step (fun s op => P s op ∧ Q s op) s ops := by
  induction ops generalizing s with
  | nil => trivial
  | cons op ops ih => exact ⟨⟨h.1, h'.1⟩, fun s' hs => ih (h.2 s' hs) (h'.2 s' hs)⟩

theorem along_of_forall {R : ι → Prop} (h : ∀ op ∈ ops, R op) : Along step (fun _ op => R op) s ops := by
  induction ops generalizing s with
  | nil => trivial
  | cons op ops ih =>
    exact ⟨h op List.mem_cons_self, fun s' _ => ih fun op' h' => h op' (List.mem_cons_of_mem _ h')⟩

/-- **An invariant holds along a run**, and the run does not panic, when a step that meets the
condition keeps it and does not panic. -/
theorem run_inv (Inv : σ → Prop)
    (hstep : ∀ s op, Inv s → P s op → ∃ s', step s op = some s' ∧ Inv s')
    (h : Inv s) (hP : Along step P s ops) : ∃ s', run step s ops = some s' ∧ Inv s' := by
  induction ops generalizing s with
  | nil => exact ⟨s, rfl, h⟩
  | cons op ops ih =>
    obtain ⟨s₁, he₁, h₁⟩ := hstep s op h hP.1
    obtain ⟨s₂, he₂, h₂⟩ := ih h₁ (hP.2 s₁ he₁)
    exact ⟨s₂, by rw [run, he₁, Option.bind_some, he₂], h₂⟩

/-- An invariant holds after every run that does not panic, when each step that meets the condition
keeps it. -/
theorem run_keeps (Inv : σ → Prop) (hstep : ∀ s op s', Inv s → P s op → step s op = some s' → Inv s')
    (h : Inv s) (hP : Along step P s ops) {s' : σ} (he : run step s ops = some s') : Inv s' := by
  induction ops generalizing s with
  | nil => rwa [← Option.some.inj he]
  | cons op ops ih =>
    obtain ⟨s₁, he₁, he⟩ := Option.bind_eq_some_iff.1 he
    exact ih (hstep s op s₁ h hP.1 he₁) (hP.2 s₁ he₁) he

/-- Two conditions hold along the same runs, when a step from an invariant meets both or neither and
keeps the invariant if it meets them. -/
theorem along_iff {L : σ → ι → Prop} (Inv : σ → Prop)
    (hstep : ∀ s op, Inv s → L s op → (P s op ↔ Q s op) ∧ (Q s op → ∀ s' ∈ step s op, Inv s'))
    (h : Inv s) (hL : Along step L s ops) : Along step P s ops ↔ Along step Q s ops := by
  induction ops generalizing s with
  | nil => exact Iff.rfl
  | cons op ops ih =>
    obtain ⟨hiff, hkeep⟩ := hstep s op h hL.1
    constructor
    · rintro ⟨hp, hrest⟩
      have hq := hiff.1 hp
      exact ⟨hq, fun s' hs => (ih (hkeep hq s' hs) (hL.2 s' hs)).1 (hrest s' hs)⟩
    · rintro ⟨hq, hrest⟩
      exact ⟨hiff.2 hq, fun s' hs => (ih (hkeep hq s' hs) (hL.2 s' hs)).2 (hrest s' hs)⟩

/-- The calls of a run do what they should exactly when they meet the condition, when a step from an
invariant does what it should exactly if it meets the condition and then keeps the invariant. -/
theorem along_reaches_iff {Good : σ → ι → σ → Prop} (Inv : σ → Prop)
    (hstep : ∀ s op s', Inv s → step s op = some s' → (Good s op s' ↔ Q s op) ∧ (Q s op → Inv s'))
    (hstuck : ∀ s op, Inv s → step s op = none → Q s op) (h : Inv s) :
    Along step (fun s op => ∀ s' ∈ step s op, Good s op s') s ops ↔ Along step Q s ops := by
  refine along_iff (L := fun _ _ => True) Inv (fun s op hs _ => ?_) h
    (along_of_forall fun _ _ => trivial)
  refine ⟨?_, fun hq s' he => (hstep s op s' hs he).2 hq⟩
  cases he : step s op with
  | none => exact iff_of_true (fun _ h => nomatch h) (hstuck s op hs he)
  | some s' =>
    rw [← (hstep s op s' hs he).1]
    exact ⟨fun hgood => hgood s' rfl, fun hgood s₁ h₁ => Option.some.inj h₁ ▸ hgood⟩

/-- An invariant with a budget: each call uses up its cost, and a run that stays within the budget
keeps the invariant. -/
theorem run_inv_budget (Inv : ℕ → σ → Prop) (cost : ι → ℕ)
    (hstep : ∀ n s op, Inv (cost op + n) s → ∃ s', step s op = some s' ∧ Inv n s') {n : ℕ}
    (h : Inv ((ops.map cost).sum + n) s) : ∃ s', run step s ops = some s' ∧ Inv n s' := by
  induction ops generalizing s with
  | nil => exact ⟨s, rfl, by simpa using h⟩
  | cons op ops ih =>
    rw [List.map_cons, List.sum_cons, add_assoc] at h
    obtain ⟨s₁, he₁, h₁⟩ := hstep _ s op h
    obtain ⟨s₂, he₂, h₂⟩ := ih h₁
    exact ⟨s₂, by rw [run, he₁, Option.bind_some, he₂], h₂⟩

/-! ### Loops -/

/-- The loop ends in the second state after finitely many turns. -/
inductive Ends (turn : σ → Option σ) : σ → σ → Prop
  | stop {s : σ} : turn s = none → Ends turn s s
  | next {s s₁ s' : σ} : turn s = some s₁ → Ends turn s₁ s' → Ends turn s s'

variable {turn : σ → Option σ} {s' : σ}

/-- A loop ends where there is no turn, and keeps what every turn keeps. -/
theorem Ends.inv (Inv : σ → Prop) (hturn : ∀ s s₁, Inv s → turn s = some s₁ → Inv s₁)
    (he : Ends turn s s') (h : Inv s) : Inv s' ∧ turn s' = none := by
  induction he with
  | stop hstop => exact ⟨h, hstop⟩
  | next hnext _ ih => exact ih (hturn _ _ h hnext)

/-- A turn that changes nothing is followed by others. -/
theorem not_ends_of_fixed (hfix : turn s = some s) : ¬ Ends turn s s' := by
  intro he
  obtain ⟨rfl, hstop⟩ := he.inv (fun s₁ => s₁ = s)
    (fun s₁ s₂ heq hnext => Option.some.inj (hnext.symm.trans (heq ▸ hfix))) rfl
  rw [hfix] at hstop
  cases hstop

end Machine
