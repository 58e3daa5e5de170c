import AuroraOs.Sched.KFutex

/-!
# Runs of the kernel futex

`wait_count` moves ahead of the wait list: a thread in `block` is counted before it is enqueued, and
a thread in `unblock` is counted before it wakes anyone.  The balance is that the waiters, less the
wakeups under way, plus the threads on their way to the list are as many as `wait_count` says.
`unblock` breaks it when it finds fewer waiters than it has counted off: those on their way are
enqueued later, and nobody wakes them.
-/

namespace AuroraOs

open Machine

namespace Pc

/-- In `block`, counted but not yet on the list. -/
def pending : Pc → ℕ
  | locking | scheduling | switching | inserting => 1
  | _ => 0

/-- In `unblock`, not yet counted. -/
def owing : Pc → ℕ
  | unlocking n | listing n | counting n => n
  | _ => 0

/-- In `unblock`, counted but not yet woken. -/
def waking : Pc → ℕ
  | moving n => n
  | _ => 0

/-- With the lock of the thread list. -/
def listHeld : Pc → ℕ
  | switching | inserting | counting _ | moving _ => 1
  | _ => 0

end Pc

namespace KFutex

variable {Tid : Type*} [DecidableEq Tid] [Fintype Tid] {s s' : KFutex Tid} {t : Tid} {p : Pc}
  {f : Pc → ℕ}

/-- The sum of a weight over all threads. -/
def total (f : Pc → ℕ) (s : KFutex Tid) : ℕ := ∑ t, f (s.pc t)

theorem total_goto (f : Pc → ℕ) (s : KFutex Tid) (t : Tid) (p : Pc) :
    total f (s.goto t p) + f (s.pc t) = total f s + f p := by
  have h1 := Finset.add_sum_erase Finset.univ (fun u => f ((s.goto t p).pc u)) (Finset.mem_univ t)
  have h2 := Finset.add_sum_erase Finset.univ (fun u => f (s.pc u)) (Finset.mem_univ t)
  have hrest : ∑ u ∈ Finset.univ.erase t, f ((s.goto t p).pc u)
      = ∑ u ∈ Finset.univ.erase t, f (s.pc u) := by
    refine Finset.sum_congr rfl fun u hu => ?_
    rw [goto_pc_of_ne _ _ (Finset.ne_of_mem_erase hu)]
  simp only [hrest, goto_pc_self] at h1
  simp only [total]
  omega

/-- A thread with the list lock is the only one. -/
theorem total_eq_of_held (h : total Pc.listHeld s ≤ 1) (ht : (s.pc t).listHeld = 1)
    (hf : ∀ p : Pc, p.listHeld = 0 → f p = 0) : total f s = f (s.pc t) := by
  refine Finset.sum_eq_single t (fun u _ hu => hf _ ?_) fun hn => absurd (Finset.mem_univ t) hn
  have h2 : (s.pc t).listHeld + (s.pc u).listHeld ≤ total Pc.listHeld s := by
    rw [← Finset.sum_pair (f := fun u => (s.pc u).listHeld) hu.symm]
    exact Finset.sum_le_sum_of_subset (Finset.subset_univ _)
  omega

theorem waking_of_not_held : ∀ p : Pc, p.listHeld = 0 → p.waking = 0 := by
  intro p hp
  cases p <;> simp_all [Pc.listHeld, Pc.waking]

/-! ### The invariant -/

/-- The invariant of a futex that is not destroyed. -/
structure Inv (s : KFutex Tid) : Prop where
  alive : s.alive = true
  nodup : s.waiters.Nodup
  waiting : ∀ t, t ∈ s.waiters ↔ s.pc t = .waiting
  lock : total Pc.listHeld s = if s.listLock then 1 else 0
  balance : ((s.waiters.length - total Pc.waking s : ℕ) : ℤ) + total Pc.pending s
    = max 0 s.waitCount
  count : s.waitCount = s.blocks - s.wakeups + total Pc.owing s
  low : -2 ^ 63 ≤ s.waitCount
  high : s.waitCount < 2 ^ 63

/-- What `unblock` counts off fits an `isize`, and the waiters it counts off are on the list. -/
def Found (s : KFutex Tid) : Pc → Prop
  | .counting n =>
      (n : ℤ) < 2 ^ 63 ∧ -2 ^ 63 ≤ s.waitCount - n ∧ min (n : ℤ) s.waitCount ≤ s.waiters.length
  | _ => True

/-- `wait_count` does not overflow, and an `unblock` finds the waiters that it counts off. -/
def Covered (s : KFutex Tid) : Label Tid → Prop
  | .block _ => s.waitCount + 1 < 2 ^ 63
  | .unblock _ _ => True
  | .run t => s.Found (s.pc t)

instance (s : KFutex Tid) : (p : Pc) → Decidable (s.Found p)
  | .counting n => inferInstanceAs (Decidable ((n : ℤ) < 2 ^ 63 ∧ -2 ^ 63 ≤ s.waitCount - n ∧
      min (n : ℤ) s.waitCount ≤ s.waiters.length))
  | .idle | .locking | .scheduling | .switching | .inserting | .waiting | .unlocking _ | .listing _
  | .moving _ => isTrue trivial

instance (s : KFutex Tid) : (op : Label Tid) → Decidable (Covered s op)
  | .block _ => inferInstanceAs (Decidable (s.waitCount + 1 < 2 ^ 63))
  | .unblock _ _ => isTrue trivial
  | .run t => inferInstanceAs (Decidable (s.Found (s.pc t)))

omit [DecidableEq Tid] in
theorem inv_new : Inv (new : KFutex Tid) := by
  constructor <;> simp [new, total, Pc.listHeld, Pc.waking, Pc.pending, Pc.owing]

/-- A thread that goes on without touching the wait list: the weights of its old and new place have
to account for what it changes. -/
theorem Inv.move {r : KFutex Tid} (h : Inv s) (hpc : r.pc = s.pc) (hw : r.waiters = s.waiters)
    (halive : r.alive = s.alive) (ht : s.pc t ≠ .waiting) (hp : p ≠ .waiting)
    (hlock : total Pc.listHeld (r.goto t p) = if r.listLock then 1 else 0)
    (hbal : ((s.waiters.length - total Pc.waking (r.goto t p) : ℕ) : ℤ)
      + total Pc.pending (r.goto t p) = max 0 r.waitCount)
    (hcount : r.waitCount = r.blocks - r.wakeups + total Pc.owing (r.goto t p))
    (hlow : -2 ^ 63 ≤ r.waitCount) (hhigh : r.waitCount < 2 ^ 63) : Inv (r.goto t p) := by
  refine ⟨halive.trans h.alive, hw ▸ h.nodup, fun u => ?_, hlock, ?_, hcount, hlow, hhigh⟩
  · show u ∈ r.waiters ↔ _
    rw [hw, h.waiting u]
    rcases eq_or_ne u t with rfl | hu
    · rw [goto_pc_self]
      exact ⟨fun hm => absurd hm ht, fun hm => absurd hm hp⟩
    · rw [goto_pc_of_ne _ _ hu, hpc]
  · show ((r.waiters.length - _ : ℕ) : ℤ) + _ = _
    rw [hw]
    exact hbal

theorem total_goto_of_pc {r : KFutex Tid} (f : Pc → ℕ) (hpc : r.pc = s.pc) (t : Tid) (p : Pc) :
    total f (r.goto t p) + f (s.pc t) = total f s + f p := by
  have h1 := total_goto f r t p
  have h2 : total f r = total f s := by simp only [total, hpc]
  rw [hpc, h2] at h1
  exact h1

/-- The totals after a thread goes on, in one rewrite. -/
theorem totals_goto {r : KFutex Tid} (hpc : r.pc = s.pc) {q : Pc} (ht : s.pc t = q) (p : Pc) :
    total Pc.listHeld (r.goto t p) + q.listHeld = total Pc.listHeld s + p.listHeld ∧
      total Pc.waking (r.goto t p) + q.waking = total Pc.waking s + p.waking ∧
      total Pc.pending (r.goto t p) + q.pending = total Pc.pending s + p.pending ∧
      total Pc.owing (r.goto t p) + q.owing = total Pc.owing s + p.owing := by
  subst ht
  exact ⟨total_goto_of_pc _ hpc t p, total_goto_of_pc _ hpc t p, total_goto_of_pc _ hpc t p,
    total_goto_of_pc _ hpc t p⟩

/-- A step that changes no lock and no count but for a place of the same weights. -/
theorem Inv.move_same {r : KFutex Tid} {q : Pc} (h : Inv s) (hpc : r.pc = s.pc)
    (hw : r.waiters = s.waiters) (halive : r.alive = s.alive) (hc : r.waitCount = s.waitCount)
    (hb : r.blocks = s.blocks) (hu : r.wakeups = s.wakeups)
    (ht : s.pc t = q) (hq : q ≠ .waiting) (hp : p ≠ .waiting)
    (hlock : (if r.listLock then 1 else 0) + q.listHeld = (if s.listLock then 1 else 0) + p.listHeld)
    (hwaking : p.waking = q.waking) (hpending : p.pending = q.pending)
    (howing : p.owing = q.owing) : Inv (r.goto t p) := by
  obtain ⟨h1, h2, h3, h4⟩ := totals_goto (r := r) hpc ht p
  have hl := h.lock
  refine h.move hpc hw halive (ht ▸ hq) hp (by omega) ?_ ?_ (hc ▸ h.low) (hc ▸ h.high)
  · rw [show total Pc.waking (r.goto t p) = total Pc.waking s by omega,
      show total Pc.pending (r.goto t p) = total Pc.pending s by omega, hc]
    exact h.balance
  · rw [show total Pc.owing (r.goto t p) = total Pc.owing s by omega, hc, hb, hu]
    exact h.count

/-- Entering `block`. -/
theorem enterBlock_spec (h : Inv s) (ht : s.pc t = .idle) (hw : s.waitCount + 1 < 2 ^ 63) :
    Inv (s.enterBlock t) := by
  have hbal := h.balance
  have hcount := h.count
  have hlock := h.lock
  have hlow := h.low
  have hwrap : wrapIsize (s.waitCount + 1) = s.waitCount + 1 := wrapIsize_eq (by omega) hw
  unfold enterBlock
  simp only [hwrap]
  split_ifs with hold
  · obtain ⟨h1, h2, h3, h4⟩ := totals_goto (s := s)
      (r := { s with waitCount := s.waitCount + 1, blocks := s.blocks + 1 }) rfl ht .locking
    simp only [Pc.listHeld, Pc.waking, Pc.pending, Pc.owing] at h1 h2 h3 h4
    refine h.move rfl rfl rfl (by simp [ht]) (by simp) ?_ ?_ ?_ ?_ hw
    all_goals simp only; omega
  · refine ⟨h.alive, h.nodup, h.waiting, hlock, ?_, ?_, ?_, hw⟩
    · show ((s.waiters.length - total Pc.waking s : ℕ) : ℤ) + total Pc.pending s
        = max 0 (s.waitCount + 1)
      omega
    · show s.waitCount + 1 = ((s.blocks + 1 : ℕ) : ℤ) - s.wakeups + total Pc.owing s
      omega
    · show -2 ^ 63 ≤ s.waitCount + 1
      omega

/-- The waiters that `inner_state_move` takes off the list, seen in the state that holds its locks. -/
theorem innerStateMove_spec (n : ℕ) (hnd : s.waiters.Nodup)
    (hw : ∀ u, u ∈ s.waiters ↔ s.pc u = .waiting) :
    ∃ q : Tid → Pc, innerStateMove n s = { s with waiters := s.waiters.drop n, pc := q } ∧
      (∀ u, u ∈ s.waiters.drop n ↔ q u = .waiting) ∧
      (∀ u, s.pc u ≠ .waiting → q u = s.pc u) ∧
      ∀ f : Pc → ℕ, f .waiting = 0 → f .idle = 0 →
        total f { s with waiters := s.waiters.drop n, pc := q } = total f s := by
  induction n generalizing s with
  | zero => exact ⟨s.pc, rfl, hw, fun _ _ => rfl, fun _ _ _ => rfl⟩
  | succ n ih =>
    cases hs : s.waiters with
    | nil =>
      refine ⟨s.pc, ?_, ?_, fun _ _ => rfl, fun _ _ _ => rfl⟩
      · rw [innerStateMove, hs]
        simp only [List.drop_nil]
        rw [← hs]
      · rw [List.drop_nil, ← hs]
        exact hw
    | cons t ts =>
      rw [hs] at hnd hw
      obtain ⟨ht, hts⟩ := List.nodup_cons.1 hnd
      have htw : s.pc t = .waiting := (hw t).1 List.mem_cons_self
      have hw' : ∀ u, u ∈ ts ↔ (({ s with waiters := ts } : KFutex Tid).goto t .idle).pc u
          = .waiting := by
        intro u
        rcases eq_or_ne u t with rfl | hu
        · simp [ht]
        · rw [goto_pc_of_ne _ _ hu]
          simpa [hu] using hw u
      obtain ⟨q, he, h1, h2, h3⟩ := ih (s := ({ s with waiters := ts } : KFutex Tid).goto t .idle) hts hw'
      refine ⟨q, ?_, h1, fun u hu => ?_, fun f hfw hfi => ?_⟩
      · rw [innerStateMove, hs]
        exact he
      · have hut : u ≠ t := fun h => hu (h ▸ htw)
        rw [h2 u (by rwa [goto_pc_of_ne _ _ hut]), goto_pc_of_ne _ _ hut]
      · have h4 := total_goto_of_pc (s := s) (r := { s with waiters := ts }) f rfl t .idle
        rw [htw, hfw, hfi] at h4
        exact (h3 f hfw hfi).trans h4

/-- A thread with the list lock knows that nobody else is waking threads. -/
theorem Inv.waking_of_held (h : Inv s) (ht : (s.pc t).listHeld = 1) :
    s.listLock = true ∧ total Pc.waking s = (s.pc t).waking := by
  have hle : total Pc.listHeld s ≤ 1 := by
    rw [h.lock]
    split_ifs <;> omega
  refine ⟨?_, total_eq_of_held hle ht waking_of_not_held⟩
  by_contra hl
  have h0 : total Pc.listHeld s = 0 := by rw [h.lock, if_neg hl]
  have := Finset.single_le_sum (f := fun u => (s.pc u).listHeld) (fun _ _ => Nat.zero_le _)
    (Finset.mem_univ t)
  simp only [total] at h0
  omega

/-- `insert_into` at the end of `schedule`. -/
theorem enqueue_spec (h : Inv s) (ht : s.pc t = .inserting) :
    Inv ({ s with waiters := s.waiters ++ [t], listLock := false }.goto t .waiting) := by
  obtain ⟨hl, hwake⟩ := h.waking_of_held (t := t) (by rw [ht]; rfl)
  have hnot : t ∉ s.waiters := fun hm => by simpa [ht] using (h.waiting t).1 hm
  obtain ⟨h1, h2, h3, h4⟩ := totals_goto (s := s)
    (r := { s with waiters := s.waiters ++ [t], listLock := false }) rfl ht .waiting
  have hbal := h.balance
  have hcount := h.count
  have hlock := h.lock
  rw [ht] at hwake
  rw [hl] at hlock
  simp only [Pc.listHeld, Pc.waking, Pc.pending, Pc.owing, if_true] at h1 h2 h3 h4 hwake hlock
  refine ⟨h.alive, ?_, fun u => ?_, ?_, ?_, ?_, h.low, h.high⟩
  · exact List.nodup_append.2 ⟨h.nodup, List.nodup_singleton t, by
      rintro x hx y hy rfl
      exact hnot (List.mem_singleton.1 hy ▸ hx)⟩
  · show u ∈ s.waiters ++ [t] ↔ _
    rcases eq_or_ne u t with rfl | hu
    · simp
    · rw [goto_pc_of_ne _ _ hu]
      simpa [hu] using h.waiting u
  · show _ = 0
    omega
  · show (((s.waiters ++ [t]).length - _ : ℕ) : ℤ) + _ = max 0 s.waitCount
    rw [List.length_append, List.length_singleton]
    omega
  · show s.waitCount = (s.blocks : ℤ) - s.wakeups + _
    omega

/-- `fetch_sub` in `unblock`, with enough waiters on the list. -/
theorem count_spec {n : ℕ} (h : Inv s) (ht : s.pc t = .counting n) (hc : Covered s (.run t)) :
    Inv ({ s with waitCount := wrapIsize (s.waitCount - asIsize n) }.goto t (.moving n)) := by
  obtain ⟨hn, hlow, hlist⟩ : s.Found (.counting n) := ht ▸ hc
  obtain ⟨hl, hwake⟩ := h.waking_of_held (t := t) (by rw [ht]; rfl)
  have hbal := h.balance
  have hcount := h.count
  have hlock := h.lock
  have hupper : s.waitCount - n < 2 ^ 63 := by
    have := h.high
    omega
  have hn' : asIsize n = n := wrapIsize_eq (by omega) (by omega)
  have hw : wrapIsize (s.waitCount - asIsize n) = s.waitCount - n := by
    rw [hn']
    exact wrapIsize_eq hlow hupper
  rw [hw]
  obtain ⟨h1, h2, h3, h4⟩ := totals_goto (s := s)
    (r := { s with waitCount := s.waitCount - n }) rfl ht (.moving n)
  rw [ht] at hwake
  simp only [Pc.listHeld, Pc.waking, Pc.pending, Pc.owing] at h1 h2 h3 h4 hwake
  refine h.move rfl rfl rfl (by simp [ht]) (by simp) ?_ ?_ ?_ hlow hupper
  all_goals
    clear hn hlow hupper
    simp only
    omega

/-- The end of `unblock`. -/
theorem wake_spec {n : ℕ} (h : Inv s) (ht : s.pc t = .moving n) :
    Inv ({ innerStateMove n s with listLock := false, blockLock := false }.goto t .idle) := by
  obtain ⟨hl, hwake⟩ := h.waking_of_held (t := t) (by rw [ht]; rfl)
  obtain ⟨q, he, hmem, hsame, htotal⟩ := innerStateMove_spec n h.nodup h.waiting
  rw [he]
  show Inv (({ s with waiters := s.waiters.drop n, pc := q, listLock := false, blockLock := false } :
    KFutex Tid).goto t .idle)
  have htq : q t = .moving n := (hsame t (by simp [ht])).trans ht
  obtain ⟨h1, h2, h3, h4⟩ := totals_goto (s := { s with waiters := s.waiters.drop n, pc := q })
    (r := { s with waiters := s.waiters.drop n, pc := q, listLock := false, blockLock := false })
    rfl htq .idle
  have hlock := h.lock
  have hbal := h.balance
  have hcount := h.count
  rw [htotal _ rfl rfl] at h1 h2 h3 h4
  rw [ht] at hwake
  rw [hl] at hlock
  simp only [Pc.listHeld, Pc.waking, Pc.pending, Pc.owing, if_true] at h1 h2 h3 h4 hwake hlock
  refine ⟨h.alive, (List.drop_sublist n s.waiters).nodup h.nodup, fun u => ?_, ?_, ?_, ?_, h.low, h.high⟩
  · show u ∈ s.waiters.drop n ↔ _
    rw [hmem u]
    rcases eq_or_ne u t with rfl | hu
    · simp [htq]
    · rw [goto_pc_of_ne _ _ hu]
  · show _ = 0
    omega
  · show (((s.waiters.drop n).length - _ : ℕ) : ℤ) + _ = max 0 s.waitCount
    rw [List.length_drop]
    omega
  · show s.waitCount = (s.blocks : ℤ) - s.wakeups + _
    omega

/-- **One step of a thread in a call** keeps the invariant. -/
theorem advance_spec (h : Inv s) (hc : Covered s (.run t)) (he : s.advance t = some s') :
    Inv s' := by
  unfold advance at he
  cases ht : s.pc t with
  | idle => simp [ht] at he
  | waiting => simp [ht] at he
  | locking =>
    simp only [ht] at he
    rw [if_neg (by simp [h.alive])] at he
    split_ifs at he
    obtain rfl := Option.some.inj he
    exact h.move_same rfl rfl rfl rfl rfl rfl ht (by simp) (by simp) rfl rfl rfl rfl
  | scheduling =>
    simp only [ht] at he
    split_ifs at he with hl
    obtain rfl := Option.some.inj he
    exact h.move_same rfl rfl rfl rfl rfl rfl ht (by simp) (by simp) (by simp [hl, Pc.listHeld])
      rfl rfl rfl
  | switching =>
    simp only [ht] at he
    obtain rfl := Option.some.inj he
    exact h.move_same rfl rfl rfl rfl rfl rfl ht (by simp) (by simp) rfl rfl rfl rfl
  | inserting =>
    simp only [ht] at he
    obtain rfl := Option.some.inj he
    exact enqueue_spec h ht
  | unlocking n =>
    simp only [ht] at he
    split_ifs at he
    obtain rfl := Option.some.inj he
    exact h.move_same rfl rfl rfl rfl rfl rfl ht (by simp) (by simp) rfl rfl rfl rfl
  | listing n =>
    simp only [ht] at he
    split_ifs at he with hl
    obtain rfl := Option.some.inj he
    exact h.move_same rfl rfl rfl rfl rfl rfl ht (by simp) (by simp) (by simp [hl, Pc.listHeld])
      rfl rfl rfl
  | counting n =>
    simp only [ht] at he
    obtain rfl := Option.some.inj he
    exact count_spec h ht hc
  | moving n =>
    simp only [ht] at he
    obtain rfl := Option.some.inj he
    exact wake_spec h ht

/-- **One step** keeps the invariant. -/
theorem step_spec {op : Label Tid} (h : Inv s) (hc : Covered s op) (he : step s op = some s') :
    Inv s' := by
  cases op with
  | block t =>
    simp only [step] at he
    split_ifs at he with ht
    obtain rfl := Option.some.inj he
    exact enterBlock_spec h ht hc
  | unblock t n =>
    simp only [step] at he
    split_ifs at he with ht
    obtain rfl := Option.some.inj he
    obtain ⟨h1, h2, h3, h4⟩ := totals_goto (s := s)
      (r := { s with wakeups := s.wakeups + n }) rfl ht (.unlocking n)
    have hbal := h.balance
    have hcount := h.count
    have hlock := h.lock
    simp only [Pc.listHeld, Pc.waking, Pc.pending, Pc.owing] at h1 h2 h3 h4
    refine h.move rfl rfl rfl (by simp [ht]) (by simp) ?_ ?_ ?_ h.low h.high
    all_goals simp only; omega
  | run t => exact advance_spec h hc he

/-- **A run** keeps the invariant. -/
theorem run_spec {ops : List (Label Tid)} (h : Inv s) (hc : Along step Covered s ops)
    (he : run step s ops = some s') : Inv s' := by
  induction ops generalizing s with
  | nil => exact Option.some.inj he ▸ h
  | cons op ops ih =>
    obtain ⟨s₁, he₁, he⟩ := Option.bind_eq_some_iff.1 he
    exact ih (step_spec h hc.1 he₁) (hc.2 s₁ he₁) he

/-! ### The calls of a run -/

/-- A call of `block`. -/
def Label.isBlock : Label Tid → Bool
  | .block _ => true
  | _ => false

/-- A call of `unblock`. -/
def Label.isUnblock : Label Tid → Bool
  | .unblock _ _ => true
  | _ => false

/-- The wakeups that a step asks for. -/
def Label.wakeups : Label Tid → ℕ
  | .unblock _ n => n
  | _ => 0

omit [Fintype Tid] in
theorem innerStateMove_counts (n : ℕ) (s : KFutex Tid) :
    (innerStateMove n s).blocks = s.blocks ∧ (innerStateMove n s).wakeups = s.wakeups := by
  induction n generalizing s with
  | zero => exact ⟨rfl, rfl⟩
  | succ n ih =>
    rw [innerStateMove]
    cases s.waiters with
    | nil => exact ⟨rfl, rfl⟩
    | cons t ts => exact ih _

omit [Fintype Tid] in
theorem step_counts {op : Label Tid} (he : step s op = some s') :
    s'.blocks = s.blocks + op.isBlock.toNat ∧ s'.wakeups = s.wakeups + op.wakeups := by
  cases op with
  | block t =>
    simp only [step] at he
    split_ifs at he
    obtain rfl := Option.some.inj he
    simp only [enterBlock]
    split_ifs <;> exact ⟨rfl, rfl⟩
  | unblock t n =>
    simp only [step] at he
    split_ifs at he
    obtain rfl := Option.some.inj he
    exact ⟨rfl, rfl⟩
  | run t =>
    simp only [step, advance] at he
    cases ht : s.pc t <;> simp only [ht] at he <;> (try split_ifs at he) <;> cases he
    all_goals first | exact ⟨rfl, rfl⟩ | exact innerStateMove_counts _ s

omit [Fintype Tid] in
/-- The counters count the calls, when every `unblock` asks for one wakeup. -/
theorem run_counts {ops : List (Label Tid)} (hone : ∀ t n, Label.unblock t n ∈ ops → n = 1)
    (he : run step s ops = some s') :
    s'.blocks = s.blocks + ops.countP Label.isBlock ∧
      s'.wakeups = s.wakeups + ops.countP Label.isUnblock := by
  induction ops generalizing s with
  | nil =>
    obtain rfl := Option.some.inj he
    exact ⟨rfl, rfl⟩
  | cons op ops ih =>
    obtain ⟨s₁, he₁, he⟩ := Option.bind_eq_some_iff.1 he
    obtain ⟨h1, h2⟩ := ih (fun t n hm => hone t n (List.mem_cons_of_mem _ hm)) he
    obtain ⟨h3, h4⟩ := step_counts he₁
    have hw : op.wakeups = op.isUnblock.toNat := by
      cases op with
      | unblock t n => exact hone t n List.mem_cons_self
      | block t => rfl
      | run t => rfl
    rw [h1, h2, h3, h4, hw, List.countP_cons, List.countP_cons]
    cases op.isBlock <;> cases op.isUnblock <;> simp <;> omega

/-- No call is between two of its steps. -/
def Quiescent (s : KFutex Tid) : Prop := ∀ t, s.pc t = .idle ∨ s.pc t = .waiting

omit [DecidableEq Tid] in
theorem Quiescent.total_eq (h : Quiescent s) (hi : f .idle = 0) (hw : f .waiting = 0) :
    total f s = 0 := by
  refine Finset.sum_eq_zero fun t _ => ?_
  rcases h t with ht | ht
  · rw [ht, hi]
  · rw [ht, hw]

/-- **No wakeup is lost and none is duplicated**, in a run whose `unblock`s find the waiters they
count off: whenever no call is under way, the wait list is as long as there were more calls of
`block` than of `unblock`. -/
theorem run_waiters {ops : List (Label Tid)} (hone : ∀ t n, Label.unblock t n ∈ ops → n = 1)
    (hc : Along step Covered new ops) (he : run step new ops = some s) (hq : Quiescent s) :
    (s.waiters.length : ℤ) = max 0 ((ops.countP Label.isBlock : ℤ) - ops.countP Label.isUnblock) ∧
      ∀ t, t ∈ s.waiters ↔ s.pc t = .waiting := by
  have h := run_spec inv_new hc he
  obtain ⟨hb, hu⟩ := run_counts hone he
  have hbal := h.balance
  have hcount := h.count
  rw [hq.total_eq rfl rfl] at hbal hcount
  rw [hq.total_eq rfl rfl] at hbal
  rw [hb, hu] at hcount
  simp only [new] at hcount
  refine ⟨?_, h.waiting⟩
  omega

/-- One thread blocks, and another one wakes it. -/
theorem run_waiters_sample :
    ∃ s : KFutex Bool, run step new [.block false, .run false, .run false, .run false, .run false,
        .unblock true 1, .run true, .run true, .run true, .run true] = some s ∧
      s.waiters.length = 0 ∧ ∀ t, t ∈ s.waiters ↔ s.pc t = .waiting := by
  let ops : List (Label Bool) := [.block false, .run false, .run false, .run false, .run false,
    .unblock true 1, .run true, .run true, .run true, .run true]
  have hc : Along step Covered new ops := by decide
  have h := run_waiters (by simp [ops]) hc rfl (by unfold Quiescent; decide)
  exact ⟨_, rfl, by decide, h.2⟩

/-- **A lost wakeup**: the other thread runs `unblock` after the increment in `block` and before
`block_lock` is taken.  It finds nobody to wake, and the first thread waits for ever. -/
theorem run_lost_wakeup :
    ∃ (ops : List (Label Bool)) (s : KFutex Bool), (∀ t n, Label.unblock t n ∈ ops → n = 1) ∧
      run step new ops = some s ∧ Quiescent s ∧
      (s.waiters.length : ℤ) ≠ max 0 ((ops.countP Label.isBlock : ℤ) - ops.countP Label.isUnblock) := by
  refine ⟨[.block false, .unblock true 1, .run true, .run true, .run true, .run true, .run false,
    .run false, .run false, .run false], _, by simp, rfl, ?_, ?_⟩
  · unfold Quiescent
    decide
  · decide

end KFutex
end AuroraOs
