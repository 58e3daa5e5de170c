import AuroraOs.Util
import AuroraOs.Sched.KFutex

/-!
# Calls of the kernel futex, one after the other

`block` and `unblock(n)` where no call interrupts another one: all the steps of a thread, to the end of
its call or until it waits.

`unblock` subtracts `n as isize` from `wait_count`, so that a large `n` adds to it: the next threads
that block find a count that no thread on the wait list stands for.
-/

namespace AuroraOs

open Machine

namespace KFutex

variable {Tid : Type*} [DecidableEq Tid]

/-- The threads that `inner_state_move` moves, in their order. -/
def moved : ℕ → KFutex Tid → List Tid
  | 0, _ => []
  | n + 1, s =>
      match s.waiters with
      | [] => []
      | t :: ts => t :: moved n ({ s with waiters := ts }.goto t .idle)

/-- The number that `inner_state_move` returns. -/
def moveResult (count : ℕ) : ℕ → KFutex Tid → ℕ
  | 0, _ => count
  | left + 1, s =>
      match s.waiters with
      | [] => count - (left + 1)
      | t :: ts => moveResult count left ({ s with waiters := ts }.goto t .idle)

/-- The calls. -/
inductive Call (Tid : Type*)
  | block (t : Tid)
  | unblock (t : Tid) (n : Fin usizeMod)

/-- A whole call, with the threads that it wakes and the number that it returns; `none` if the thread
is in another call or waits. -/
def call (s : KFutex Tid) : Call Tid → Option (KFutex Tid × List Tid × ℕ)
  | .block t => do
      let s ← step s (.block t)
      if s.pc t = .idle then some (s, [], 0)
      else some (← run step s [.run t, .run t, .run t, .run t], [], 0)
  | .unblock t n => do
      let s ← run step s [.unblock t n, .run t, .run t, .run t]
      some (← step s (.run t), moved n s, moveResult n n s)

/-- A call as a step. -/
def callStep (s : KFutex Tid) (c : Call Tid) : Option (KFutex Tid) := (call s c).map Prod.fst

/-- `wait_count` is the length of the wait list, or the surplus of wakeups below zero. -/
def Balanced (s : KFutex Tid) : Prop :=
  0 ≤ s.waitCount ∧ s.waitCount = s.waiters.length ∨
    s.waitCount < 0 ∧ s.waiters = [] ∧ -s.waitCount = (s.wakeups : ℤ) - s.blocks

/-- The threads that a call has to wake. -/
def Call.wakes (s : KFutex Tid) : Call Tid → List Tid
  | .block _ => []
  | .unblock _ n => s.waiters.take n

/-- The call wakes the first threads that wait and returns their number, and leaves a balance. -/
def Right (s : KFutex Tid) (c : Call Tid) : Prop :=
  ∀ s' woken n, call s c = some (s', woken, n) → woken = c.wakes s ∧ n = (c.wakes s).length ∧ Balanced s'

/-- The thread that calls. -/
def Call.thread : Call Tid → Tid
  | .block t | .unblock t _ => t

/-- The count does not overflow, and there was no surplus that it has lost: it goes below zero by as much
as there are more wakeups than blocks.  A surplus of exactly `2 ^ 64` leaves it zero. -/
def Call.Fits (s : KFutex Tid) : Call Tid → Prop
  | .block _ => s.waitCount + 1 < 2 ^ 63
  | .unblock _ n => (n : ℤ) ≤ s.waitCount ∨
      -2 ^ 63 ≤ s.waitCount - n ∧ s.waitCount = s.blocks - s.wakeups ∨ s.waitCount - n = -2 ^ 64

/-- A call that is made fits. -/
def Fits (s : KFutex Tid) (c : Call Tid) : Prop := s.pc c.thread = .idle → c.Fits s

variable {s s' : KFutex Tid} {t : Tid} {n count : ℕ}

/-! ### The loop of `inner_state_move` -/

theorem moved_eq (n : ℕ) (s : KFutex Tid) : moved n s = s.waiters.take n := by
  induction n generalizing s with
  | zero => rfl
  | succ n ih =>
    rw [moved]
    cases hs : s.waiters with
    | nil => rfl
    | cons t ts =>
      rw [List.take_succ_cons]
      exact congrArg (t :: ·) (ih _)

theorem moveResult_eq (left : ℕ) (s : KFutex Tid) (h : left ≤ count) :
    moveResult count left s = count - left + (s.waiters.take left).length := by
  induction left generalizing s with
  | zero => simp [moveResult]
  | succ left ih =>
    rw [moveResult]
    cases hs : s.waiters with
    | nil => simp
    | cons t ts =>
      have hrest := ih ({ s with waiters := ts }.goto t .idle) (by omega)
      have hts : (({ s with waiters := ts } : KFutex Tid).goto t .idle).waiters = ts := rfl
      rw [hts] at hrest
      rw [List.take_succ_cons, List.length_cons]
      exact hrest.trans (by omega)

theorem innerStateMove_eq (n : ℕ) (s : KFutex Tid) :
    ∃ pc, innerStateMove n s = { s with waiters := s.waiters.drop n, pc := pc } := by
  induction n generalizing s with
  | zero => exact ⟨s.pc, rfl⟩
  | succ n ih =>
    rw [innerStateMove]
    cases hs : s.waiters with
    | nil =>
      refine ⟨s.pc, ?_⟩
      simp only [List.drop_nil]
      rw [← hs]
    | cons t ts => exact ih _

/-! ### A whole call -/

/-- No thread holds a lock of the futex, which is alive. -/
structure Still (s : KFutex Tid) : Prop where
  alive : s.alive = true
  blockLock : s.blockLock = false
  listLock : s.listLock = false

/-- **`block`** counts, and puts the thread on the wait list if there was no surplus. -/
theorem call_block (h : Still s) (ht : s.pc t = .idle) :
    ∃ s', call s (.block t) = some (s', [], 0) ∧ Still s' ∧ s'.waitCount = wrapIsize (s.waitCount + 1) ∧
      s'.waiters = (if 0 ≤ s.waitCount then s.waiters ++ [t] else s.waiters) ∧
      s'.blocks = s.blocks + 1 ∧ s'.wakeups = s.wakeups := by
  obtain ⟨halive, hblock, hlist⟩ := h
  by_cases hw : 0 ≤ s.waitCount
  · refine ⟨{ s with
      waitCount := wrapIsize (s.waitCount + 1), waiters := s.waiters ++ [t], blocks := s.blocks + 1
      pc := Function.update s.pc t .waiting }, ?_, ⟨halive, hblock, hlist⟩, rfl, (if_pos hw).symm, rfl, rfl⟩
    simp only [call, step, ht, if_true, enterBlock, ge_iff_le, hw, Option.bind_eq_bind, Option.bind_some,
      reduceCtorEq, if_false, run, advance, goto, Function.update_self, Function.update_idem, halive, hblock,
      hlist, Bool.false_eq_true]
  · simp only [call, step, ht, if_true, enterBlock, ge_iff_le, if_neg hw, Option.bind_eq_bind,
      Option.bind_some]
    exact ⟨_, rfl, ⟨halive, hblock, hlist⟩, rfl, rfl, rfl, rfl⟩

/-- **`unblock`** counts, and takes threads off the wait list. -/
theorem call_unblock (h : Still s) (ht : s.pc t = .idle) (n : Fin usizeMod) :
    ∃ s', call s (.unblock t n) = some (s', s.waiters.take n, (s.waiters.take n).length) ∧ Still s' ∧
      s'.waitCount = wrapIsize (s.waitCount - asIsize n) ∧ s'.waiters = s.waiters.drop n ∧
      s'.blocks = s.blocks ∧ s'.wakeups = s.wakeups + n := by
  obtain ⟨halive, hblock, hlist⟩ := h
  -- the state before `inner_state_move`
  let r : KFutex Tid := { s with
    waitCount := wrapIsize (s.waitCount - asIsize n), wakeups := s.wakeups + n
    blockLock := true, listLock := true, pc := Function.update s.pc t (.moving n) }
  have hrun : run step s [.unblock t n, .run t, .run t, .run t] = some r := by
    simp only [run, step, ht, if_true, Option.bind_some, advance, goto, Function.update_self,
      Function.update_idem, hblock, hlist, Bool.false_eq_true, if_false, r]
  obtain ⟨pc, hmove⟩ := innerStateMove_eq n r
  have hlast : step r (.run t) =
      some ({ innerStateMove n r with listLock := false, blockLock := false }.goto t .idle) := by
    simp only [step, advance, r, Function.update_self]
  refine ⟨{ innerStateMove n r with listLock := false, blockLock := false }.goto t .idle, ?_,
    ⟨?_, rfl, rfl⟩, ?_, ?_, ?_, ?_⟩
  · simp only [call, hrun, hlast, Option.bind_eq_bind, Option.bind_some]
    rw [moved_eq, moveResult_eq _ _ le_rfl, Nat.sub_self, Nat.zero_add]
  all_goals rw [hmove]
  · exact halive
  all_goals rfl

theorem call_of_ne_idle {c : Call Tid} (h : s.pc c.thread ≠ .idle) : call s c = none := by
  cases c with
  | block t =>
    have ht : ¬ s.pc t = .idle := h
    simp only [call, step, if_neg ht, Option.bind_eq_bind, Option.bind_none]
  | unblock t n =>
    have ht : ¬ s.pc t = .idle := h
    simp only [call, run, step, if_neg ht, Option.bind_eq_bind, Option.bind_none]

/-! ### Runs -/

/-- The invariant of a run of calls that are right. -/
structure Sound (s : KFutex Tid) : Prop where
  still : Still s
  balanced : Balanced s
  low : -2 ^ 63 ≤ s.waitCount
  high : s.waitCount < 2 ^ 63

theorem wrapIsize_range (x : ℤ) : -2 ^ 63 ≤ wrapIsize x ∧ wrapIsize x < 2 ^ 63 := by
  have hlow : -((2 ^ 64 : ℕ) / 2 : ℤ) ≤ wrapIsize x := Int.le_bmod (by decide)
  have hhigh : wrapIsize x < ((2 ^ 64 : ℕ) + 1) / 2 := Int.bmod_lt (by decide)
  push_cast at hlow hhigh
  omega

/-- What `unblock` leaves: a difference too low for an `isize` comes out `2 ^ 64` higher. -/
theorem wrapIsize_sub_asIsize {x : ℤ} (hlow : -2 ^ 63 ≤ x) (hhigh : x < 2 ^ 63) (hn : n < usizeMod) :
    wrapIsize (x - asIsize n) = if -2 ^ 63 ≤ x - n then x - n else x - n + 2 ^ 64 := by
  have hsub : wrapIsize (x - asIsize n) = wrapIsize (x - n) := by
    simp only [wrapIsize, asIsize, Int.sub_bmod_bmod]
  have hadd : wrapIsize (x - n + 2 ^ 64) = wrapIsize (x - n) := by
    have := Int.add_bmod_right (x - n) (2 ^ 64)
    rwa [Nat.cast_pow, Nat.cast_ofNat] at this
  have hn' : (n : ℤ) < 2 ^ 64 := by exact_mod_cast hn
  rw [hsub]
  split_ifs with hfit
  · exact wrapIsize_eq hfit (by omega)
  · rw [← hadd]
    exact wrapIsize_eq (by omega) (by omega)

omit [DecidableEq Tid] in
/-- `block` leaves a balance if the count does not overflow. -/
theorem balanced_block {t : Tid} (hbal : Balanced s) (hlow : -2 ^ 63 ≤ s.waitCount)
    (hw : s'.waitCount = wrapIsize (s.waitCount + 1))
    (hwait : s'.waiters = if 0 ≤ s.waitCount then s.waiters ++ [t] else s.waiters)
    (hblocks : s'.blocks = s.blocks + 1) (hwakeups : s'.wakeups = s.wakeups) (hhigh : s.waitCount < 2 ^ 63) :
    Balanced s' ↔ s.waitCount + 1 < 2 ^ 63 := by
  unfold Balanced at hbal ⊢
  rcases hbal with ⟨hpos, hlen⟩ | ⟨hneg, hnil, hsur⟩
  · rw [if_pos hpos] at hwait
    constructor
    · intro h
      by_contra hover
      have hlast : s'.waitCount = -2 ^ 63 := by
        rw [hw, show s.waitCount + 1 = 2 ^ 63 by omega]
        decide
      rcases h with ⟨h, -⟩ | ⟨-, h, -⟩
      · omega
      · rw [hwait] at h
        simp at h
    · intro hlt
      rw [hw, wrapIsize_eq (by omega) hlt, hwait, List.length_append, List.length_singleton]
      omega
  · rw [if_neg (by omega)] at hwait
    refine iff_of_true ?_ (by omega)
    rw [hw, wrapIsize_eq (by omega) (by omega), hwait, hnil, hblocks, hwakeups]
    simp only [List.length_nil, true_and]
    omega

omit [DecidableEq Tid] in
/-- `unblock` leaves a balance if it fits. -/
theorem balanced_unblock {n : Fin usizeMod} (hbal : Balanced s) (hlow : -2 ^ 63 ≤ s.waitCount)
    (hw : s'.waitCount =
      if -2 ^ 63 ≤ s.waitCount - (n : ℕ) then s.waitCount - (n : ℕ) else s.waitCount - (n : ℕ) + 2 ^ 64)
    (hwait : s'.waiters = s.waiters.drop n) (hblocks : s'.blocks = s.blocks)
    (hwakeups : s'.wakeups = s.wakeups + n) : Balanced s' ↔ Call.Fits s (.unblock t n) := by
  have hn : ((n : ℕ) : ℤ) < 2 ^ 64 := by exact_mod_cast n.isLt
  have hlen : s'.waiters.length = s.waiters.length - n := by rw [hwait, List.length_drop]
  have hnil : s'.waiters = [] ↔ s'.waiters.length = 0 := List.length_eq_zero_iff.symm
  have hnil' : s.waiters = [] ↔ s.waiters.length = 0 := List.length_eq_zero_iff.symm
  unfold Balanced at hbal ⊢
  unfold Call.Fits
  simp only
  rw [hnil, hlen, hblocks, hwakeups]
  rw [hnil'] at hbal
  push_cast
  split_ifs at hw <;> omega

/-- **One call** is right if and only if it fits. -/
theorem right_iff_fits (h : Sound s) (c : Call Tid) :
    (Right s c ↔ Fits s c) ∧ (Fits s c → ∀ s' ∈ callStep s c, Sound s') := by
  obtain ⟨hstill, hbal, hlow, hhigh⟩ := h
  by_cases ht : s.pc c.thread = .idle
  swap
  · -- there is no call
    have hnone := call_of_ne_idle ht
    refine ⟨iff_of_true (fun s' woken n he => ?_) fun h => absurd h ht, fun _ s' he => ?_⟩
    · rw [hnone] at he
      cases he
    · rw [callStep, hnone] at he
      cases he
  -- the call leaves one state, which is sound if it is balanced
  have hone : ∀ {s' : KFutex Tid}, call s c = some (s', c.wakes s, (c.wakes s).length) → Still s' →
      -2 ^ 63 ≤ s'.waitCount → s'.waitCount < 2 ^ 63 → (Balanced s' ↔ c.Fits s) →
      (Right s c ↔ Fits s c) ∧ (Fits s c → ∀ s' ∈ callStep s c, Sound s') := by
    intro s' he hstill' hlow' hhigh' hiff
    refine ⟨⟨fun hr _ => hiff.1 (hr _ _ _ he).2.2, fun hf r woken n hr => ?_⟩, fun hf r hr => ?_⟩
    · rw [he] at hr
      cases hr
      exact ⟨rfl, rfl, hiff.2 (hf ht)⟩
    · rw [callStep, he] at hr
      cases hr
      exact ⟨hstill', hiff.2 (hf ht), hlow', hhigh'⟩
  cases c with
  | block t =>
    obtain ⟨s', he, hstill', hw, hwait, hblocks, hwakeups⟩ := call_block hstill ht
    obtain ⟨hlow', hhigh'⟩ := wrapIsize_range (s.waitCount + 1)
    exact hone he hstill' (hw ▸ hlow') (hw ▸ hhigh')
      (balanced_block hbal hlow hw hwait hblocks hwakeups hhigh)
  | unblock t n =>
    obtain ⟨s', he, hstill', hw, hwait, hblocks, hwakeups⟩ := call_unblock hstill ht n
    obtain ⟨hlow', hhigh'⟩ := wrapIsize_range (s.waitCount - asIsize n)
    refine hone he hstill' (hw ▸ hlow') (hw ▸ hhigh') ?_
    rw [wrapIsize_sub_asIsize hlow hhigh n.isLt] at hw
    exact balanced_unblock hbal hlow hw hwait hblocks hwakeups

omit [DecidableEq Tid] in
theorem sound_new : Sound (new : KFutex Tid) where
  still := ⟨rfl, rfl, rfl⟩
  balanced := .inl ⟨le_rfl, rfl⟩
  low := by simp [new]
  high := by simp [new]

/-- **Every call wakes the first threads that wait, reports their number and leaves a balance**, in a run of
calls on a new futex, if and only if every call of the run fits. -/
theorem run_right_iff (cs : List (Call Tid)) :
    Along callStep Right new cs ↔ Along callStep Fits new cs := by
  have hL : Along callStep (fun _ _ => True) (new : KFutex Tid) cs := along_of_forall fun _ _ => trivial
  exact along_iff Sound (fun s c h _ => right_iff_fits h c) sound_new hL

/-- `unblock(usize::MAX)` on a new futex leaves a count of one, and nobody waits. -/
theorem not_run_right :
    ¬ Along callStep Right (new : KFutex Bool) [.unblock false ⟨usizeMod - 1, by decide⟩] := by
  intro h
  have hfits := (right_iff_fits sound_new _).1.1 h.1 rfl
  unfold Call.Fits at hfits
  revert hfits
  decide

end KFutex
end AuroraOs
