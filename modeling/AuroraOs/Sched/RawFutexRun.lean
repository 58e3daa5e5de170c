import AuroraOs.Sched.RawFutex
import AuroraOs.Lib.Threads

/-!
# Mutual exclusion of the raw futex

`count` is the number of holders and of threads that wait.  While it is positive there is one token:
it is a holder, or a thread on its way to `unblock`, or a credit of the semaphore.  The semaphore is
the one whose id won the `compare_exchange`; every other id has one owner, which destroys it.
-/

namespace AuroraOs
namespace RawFutex

open Threads

/-- What a thread is going to use its id for; in `block` it still waits. -/
def Pc.use : Pc → Option Use
  | idle | tryUpdate _ => none
  | loadId use | newId use | exchange use _ | destroy use _ _ | call use _ => some use
  | blocked _ => some .block

/-- The id that a thread created and that is not known to have won. -/
def Pc.owned : Pc → Option ℕ
  | exchange _ new | destroy _ new _ => some new
  | _ => none

/-- The id that a thread is about to use, or uses. -/
def Pc.target : Pc → Option ℕ
  | destroy _ _ id | call _ id | blocked id => some id
  | _ => none

/-- The weights. -/
def Thread.holding (th : Thread) : ℕ := if th.holds then 1 else 0
def Thread.waiting (th : Thread) : ℕ := if th.pc.use = some .block then 1 else 0
def Thread.waking (th : Thread) : ℕ := if th.pc.use = some .unblock then 1 else 0

namespace World

variable {Tid : Type*} [DecidableEq Tid] [Fintype Tid] {w w' : World Tid} {t u : Tid} {th : Thread}
  {fresh : ℕ} {spurious : Bool}

/-- The count, and the token. -/
structure Balance (w : World Tid) : Prop where
  count : w.futex.count = total Thread.holding w.threads + total Thread.waiting w.threads
  token : total Thread.holding w.threads + total Thread.waking w.threads + w.sem w.futex.id
    = if w.futex.count = 0 then 0 else 1

/-- The ids. -/
structure Ids (w : World Tid) : Prop where
  created : ∀ i ∈ w.created, i ≠ usizeMax ∧
    (i = w.futex.id ∨ i ∈ w.destroyed ∨ ∃ t, (w.threads t).pc.owned = some i)
  destroyed : ∀ i ∈ w.destroyed, i ∈ w.created ∧ i ≠ w.futex.id
  owned : ∀ t, ∀ i ∈ (w.threads t).pc.owned, i ∈ w.created ∧ i ∉ w.destroyed ∧ i ≠ w.futex.id
  owner : ∀ t u i, (w.threads t).pc.owned = some i → (w.threads u).pc.owned = some i → t = u
  target : ∀ t, ∀ i ∈ (w.threads t).pc.target, i = w.futex.id ∧ i ≠ usizeMax
  used : ∀ i ∈ w.used, i = w.futex.id ∧ i ≠ usizeMax
  winner : w.futex.id = usizeMax ∨ w.futex.id ∈ w.created
  sem : ∀ i, i ≠ w.futex.id ∨ i = usizeMax → w.sem i = 0

omit [DecidableEq Tid] in
theorem balance_init : Balance (init : World Tid) where
  count := by simp [init, RawFutex.new, total, Thread.holding, Thread.waiting, Pc.use]
  token := by simp [init, RawFutex.new, total, Thread.holding, Thread.waking, Pc.use]

omit [DecidableEq Tid] [Fintype Tid] in
theorem ids_init : Ids (init : World Tid) where
  created := by simp [init]
  destroyed := by simp [init]
  owned := by simp [init, Pc.owned]
  owner := by simp [init, Pc.owned]
  target := by simp [init, Pc.target]
  used := by simp [init]
  winner := Or.inl rfl
  sem := by simp [init]

/-! ### The balance -/

/-- The totals after one thread went on. -/
theorem totals_set {v : World Tid} (ht : v.threads = w.threads) (t : Tid) (th : Thread) :
    total Thread.holding (v.set t th).threads + (w.threads t).holding
        = total Thread.holding w.threads + th.holding ∧
      total Thread.waiting (v.set t th).threads + (w.threads t).waiting
        = total Thread.waiting w.threads + th.waiting ∧
      total Thread.waking (v.set t th).threads + (w.threads t).waking
        = total Thread.waking w.threads + th.waking := by
  simp only [set, ht]
  exact ⟨total_update _ _ t th, total_update _ _ t th, total_update _ _ t th⟩

/-- One thread goes on, and the count and the credits change with its weights. -/
theorem Balance.set {v : World Tid} (h : Balance w) (ht : v.threads = w.threads)
    (hcount : v.futex.count + ((w.threads t).holding + (w.threads t).waiting)
      = w.futex.count + (th.holding + th.waiting))
    (htoken : (if v.futex.count = 0 then 0 else 1) + ((w.threads t).holding + (w.threads t).waking)
        + w.sem w.futex.id
      = (if w.futex.count = 0 then 0 else 1) + (th.holding + th.waking) + v.sem v.futex.id) :
    Balance (v.set t th) := by
  obtain ⟨h1, h2, h3⟩ := totals_set ht t th
  have hc := h.count
  have htok := h.token
  constructor
  · show v.futex.count = _
    omega
  · show _ + _ + v.sem v.futex.id = if v.futex.count = 0 then 0 else 1
    omega

/-- A step inside a call: the thread waits, wakes or holds as before. -/
theorem Balance.set_same {v : World Tid} (h : Balance w) (ht : v.threads = w.threads)
    (hc : v.futex.count = w.futex.count) (hs : v.sem v.futex.id = w.sem w.futex.id)
    (hh : th.holds = (w.threads t).holds) (hu : th.pc.use = (w.threads t).pc.use) :
    Balance (v.set t th) := by
  have e1 : th.holding = (w.threads t).holding := by simp only [Thread.holding, hh]
  have e2 : th.waiting = (w.threads t).waiting := by simp only [Thread.waiting, hu]
  have e3 : th.waking = (w.threads t).waking := by simp only [Thread.waking, hu]
  exact h.set ht (by rw [hc, e1, e2]) (by rw [hc, hs, e1, e3])

omit [DecidableEq Tid] in
theorem Balance.holding_le (h : Balance w) : total Thread.holding w.threads ≤ 1 := by
  have := h.token
  split_ifs at this <;> omega

omit [DecidableEq Tid] in
/-- The count does not overflow. -/
theorem Balance.count_lt (h : Balance w) (hcard : Fintype.card Tid + 2 < usizeMod) :
    w.futex.count + 1 < usizeMod := by
  have h1 := h.holding_le
  have h2 : total Thread.waiting w.threads ≤ Fintype.card Tid :=
    total_le_card fun th => by unfold Thread.waiting; split_ifs <;> omega
  have := h.count
  omega

omit [DecidableEq Tid] in
/-- With a free lock or with a credit nobody holds the lock. -/
theorem Balance.holds_eq_false (h : Balance w) (hfree : w.futex.count = 0 ∨ 0 < w.sem w.futex.id)
    (t : Tid) : (w.threads t).holds = false := by
  have htok := h.token
  have hle : (w.threads t).holding ≤ total Thread.holding w.threads := le_total t
  have hzero : (w.threads t).holding = 0 := by
    split_ifs at htok <;> omega
  by_contra hne
  rw [Bool.not_eq_false] at hne
  rw [Thread.holding, if_pos hne] at hzero
  omega

theorem lock_balance (h : Balance w) (hcard : Fintype.card Tid + 2 < usizeMod)
    (ht : (w.threads t).pc = .idle) : Balance (w.lock t) := by
  have hmod : (w.futex.count + 1) % usizeMod = w.futex.count + 1 :=
    Nat.mod_eq_of_lt (h.count_lt hcard)
  unfold lock
  simp only [hmod]
  split_ifs with hold
  · -- one more waits
    refine h.set rfl ?_ ?_
    · simp only [Thread.holding, Thread.waiting, ht, Pc.use, if_true, reduceCtorEq, if_false]
      omega
    · simp only [Thread.holding, Thread.waking, ht, Pc.use, reduceCtorEq, if_false,
        Option.some.injEq]
      split_ifs <;> omega
  · -- the token is made
    have hfree := h.holds_eq_false (.inl (by omega)) t
    refine h.set rfl ?_ ?_
    · simp only [Thread.holding, Thread.waiting, ht, hfree, Pc.use, if_true, reduceCtorEq, if_false,
        Bool.false_eq_true]
    · simp only [Thread.holding, Thread.waking, ht, hfree, Pc.use, if_true, reduceCtorEq, if_false,
        Bool.false_eq_true]
      split_ifs <;> omega

theorem unlock_balance (h : Balance w) (hcard : Fintype.card Tid + 2 < usizeMod)
    (ht : (w.threads t).pc = .idle) (hh : (w.threads t).holds = true) : Balance (w.unlock t) := by
  have hlt := h.count_lt hcard
  have hpos : 0 < w.futex.count := by
    by_contra hn
    rw [h.holds_eq_false (.inl (by omega)) t] at hh
    exact absurd hh (by decide)
  have hmod : (w.futex.count + (usizeMod - 1)) % usizeMod = w.futex.count - 1 := by
    rw [show w.futex.count + (usizeMod - 1) = w.futex.count - 1 + usizeMod by omega,
      Nat.add_mod_right, Nat.mod_eq_of_lt (by omega)]
  unfold unlock
  simp only [hmod]
  split_ifs with hold
  · -- the token goes on to `unblock`
    refine h.set rfl ?_ ?_
    · simp only [Thread.holding, Thread.waiting, ht, hh, Pc.use, if_true, reduceCtorEq, if_false,
        Bool.false_eq_true, Option.some.injEq]
      omega
    · simp only [Thread.holding, Thread.waking, ht, hh, Pc.use, if_true, reduceCtorEq, if_false,
        Bool.false_eq_true]
      split_ifs <;> omega
  · -- the token is gone
    refine h.set rfl ?_ ?_
    · simp only [Thread.holding, Thread.waiting, ht, hh, Pc.use, if_true, reduceCtorEq, if_false,
        Bool.false_eq_true]
      omega
    · simp only [Thread.holding, Thread.waking, ht, hh, Pc.use, if_true, reduceCtorEq, if_false,
        Bool.false_eq_true]
      split_ifs <;> omega

/-- `unblock` makes the token a credit. -/
theorem unblock_balance (h : Balance w) (ht : (w.threads t).pc = .call .unblock w.futex.id) {used} :
    Balance ({ w with
      used := used
      sem := Function.update w.sem w.futex.id (w.sem w.futex.id + 1) }.set t
        ⟨.idle, (w.threads t).holds⟩) := by
  refine h.set rfl ?_ ?_
  · simp only [Thread.holding, Thread.waiting, ht, Pc.use, reduceCtorEq, if_false,
      Option.some.injEq]
  · simp only [Thread.holding, Thread.waking, ht, Pc.use, reduceCtorEq, if_true, if_false,
      Function.update_self]
    split_ifs <;> omega

/-- A return of `block` makes a credit the token of a holder. -/
theorem block_balance (h : Balance w) (ht : (w.threads t).pc = .blocked w.futex.id)
    (hs : 0 < w.sem w.futex.id) :
    Balance ({ w with sem := Function.update w.sem w.futex.id (w.sem w.futex.id - 1) }.set t
      ⟨.idle, true⟩) := by
  have hfree := h.holds_eq_false (.inr hs) t
  refine h.set rfl ?_ ?_
  · simp only [Thread.holding, Thread.waiting, ht, hfree, Pc.use, reduceCtorEq, if_true, if_false,
      Bool.false_eq_true]
  · simp only [Thread.holding, Thread.waking, ht, hfree, Pc.use, reduceCtorEq, if_true, if_false,
      Bool.false_eq_true, Option.some.injEq, Function.update_self]
    split_ifs <;> omega

/-- A successful `try_lock` makes the token. -/
theorem tryUpdate_balance (h : Balance w) (ht : (w.threads t).pc = .tryUpdate 0)
    (hc : w.futex.count = 0) :
    Balance ({ w with futex.count := 0 + 1 }.set t ⟨.idle, true⟩) := by
  have hfree := h.holds_eq_false (.inl hc) t
  refine h.set rfl ?_ ?_
  · simp only [Thread.holding, Thread.waiting, ht, hfree, hc, Pc.use, reduceCtorEq, if_true,
      if_false, Bool.false_eq_true]
  · simp only [Thread.holding, Thread.waking, ht, hfree, hc, Pc.use, reduceCtorEq, if_true,
      if_false, Bool.false_eq_true]

/-! ### The ids -/

section
omit [Fintype Tid]

theorem set_threads_self {v : World Tid} : (v.set t th).threads t = th := Function.update_self _ _ _

theorem set_threads_of_ne {v : World Tid} (h : u ≠ t) : (v.set t th).threads u = v.threads u :=
  Function.update_of_ne h _ _

/-- A step that makes and destroys no id. -/
theorem Ids.set_plain {v : World Tid} (h : Ids w) (ht : v.threads = w.threads)
    (hid : v.futex.id = w.futex.id) (hcr : v.created = w.created) (hde : v.destroyed = w.destroyed)
    (howned : th.pc.owned = (w.threads t).pc.owned)
    (htarget : ∀ i ∈ th.pc.target, i = w.futex.id ∧ i ≠ usizeMax)
    (hused : ∀ i ∈ v.used, i = w.futex.id ∧ i ≠ usizeMax)
    (hsem : ∀ i, i ≠ w.futex.id ∨ i = usizeMax → v.sem i = 0) : Ids (v.set t th) := by
  have hown : ∀ u, ((v.set t th).threads u).pc.owned = (w.threads u).pc.owned := by
    intro u
    by_cases hu : u = t
    · rw [hu, set_threads_self, howned]
    · rw [set_threads_of_ne hu, ht]
  constructor
  · show ∀ i ∈ v.created, i ≠ usizeMax ∧ (i = v.futex.id ∨ i ∈ v.destroyed ∨ _)
    simp only [hown, hid, hcr, hde]
    exact h.created
  · show ∀ i ∈ v.destroyed, i ∈ v.created ∧ i ≠ v.futex.id
    rw [hid, hcr, hde]
    exact h.destroyed
  · show ∀ u, ∀ i ∈ _, i ∈ v.created ∧ i ∉ v.destroyed ∧ i ≠ v.futex.id
    simp only [hown, hid, hcr, hde]
    exact h.owned
  · simp only [hown]
    exact h.owner
  · intro u i hi
    show i = v.futex.id ∧ i ≠ usizeMax
    rw [hid]
    by_cases hu : u = t
    · rw [hu, set_threads_self] at hi
      exact htarget i hi
    · rw [set_threads_of_ne hu, ht] at hi
      exact h.target u i hi
  · show ∀ i ∈ v.used, i = v.futex.id ∧ i ≠ usizeMax
    rw [hid]
    exact hused
  · show v.futex.id = usizeMax ∨ v.futex.id ∈ v.created
    rw [hid, hcr]
    exact h.winner
  · show ∀ i, i ≠ v.futex.id ∨ i = usizeMax → v.sem i = 0
    rw [hid]
    exact hsem

/-- `futex_new` makes an id that its caller owns. -/
theorem newId_ids {use : Use} {holds : Bool} (h : Ids w)
    (ht : (w.threads t).pc = .newId use) (hf : fresh ∉ w.created) (hmax : fresh ≠ usizeMax) :
    Ids ({ w with created := fresh :: w.created }.set t ⟨.exchange use fresh, holds⟩) := by
  have hid : fresh ≠ w.futex.id := by
    rintro rfl
    exact h.winner.elim hmax hf
  have hnone : (w.threads t).pc.owned = none := by rw [ht]; rfl
  constructor
  · intro i hi
    rcases List.mem_cons.1 hi with rfl | hi
    · exact ⟨hmax, .inr (.inr ⟨t, by rw [set_threads_self]; rfl⟩)⟩
    · refine ⟨(h.created i hi).1, (h.created i hi).2.imp_right (Or.imp_right ?_)⟩
      rintro ⟨u, hu⟩
      refine ⟨u, ?_⟩
      rw [set_threads_of_ne]
      · exact hu
      · rintro rfl
        rw [hnone] at hu
        exact absurd hu (by simp)
  · exact fun i hi => ⟨List.mem_cons_of_mem _ (h.destroyed i hi).1, (h.destroyed i hi).2⟩
  · intro u i hi
    by_cases hu : u = t
    · rw [hu, set_threads_self] at hi
      obtain rfl := Option.some.inj hi
      exact ⟨List.mem_cons_self, fun hd => hf (h.destroyed _ hd).1, hid⟩
    · rw [set_threads_of_ne hu] at hi
      obtain ⟨h1, h2, h3⟩ := h.owned u i hi
      exact ⟨List.mem_cons_of_mem _ h1, h2, h3⟩
  · intro u u' i hu hu'
    by_cases hut : u = t
    · by_cases hut' : u' = t
      · rw [hut, hut']
      · rw [hut, set_threads_self] at hu
        rw [set_threads_of_ne hut'] at hu'
        obtain rfl := Option.some.inj hu
        exact absurd (h.owned u' _ hu').1 hf
    · by_cases hut' : u' = t
      · rw [hut', set_threads_self] at hu'
        rw [set_threads_of_ne hut] at hu
        obtain rfl := Option.some.inj hu'
        exact absurd (h.owned u _ hu).1 hf
      · rw [set_threads_of_ne hut] at hu
        rw [set_threads_of_ne hut'] at hu'
        exact h.owner u u' i hu hu'
  · intro u i hi
    by_cases hu : u = t
    · rw [hu, set_threads_self] at hi
      exact absurd hi (by simp [Pc.target])
    · rw [set_threads_of_ne hu] at hi
      exact h.target u i hi
  · exact h.used
  · exact h.winner.imp_right (List.mem_cons_of_mem _)
  · exact h.sem

/-- A thread that gives its id up leaves the others their own. -/
theorem Ids.owner_set {v : World Tid} (h : Ids w) (ht : v.threads = w.threads)
    (hth : th.pc.owned = none) : ∀ u u' i, ((v.set t th).threads u).pc.owned = some i →
      ((v.set t th).threads u').pc.owned = some i → u = u' := by
  intro u u' i hu hu'
  by_cases hut : u = t
  · rw [hut, set_threads_self, hth] at hu
    exact absurd hu (by simp)
  · by_cases hut' : u' = t
    · rw [hut', set_threads_self, hth] at hu'
      exact absurd hu' (by simp)
    · rw [set_threads_of_ne hut, ht] at hu
      rw [set_threads_of_ne hut', ht] at hu'
      exact h.owner u u' i hu hu'

/-- The first `compare_exchange` installs its id. -/
theorem exchange_ids {use : Use} {new : ℕ} {holds : Bool} (h : Ids w)
    (ht : (w.threads t).pc = .exchange use new) (hid : w.futex.id = usizeMax) :
    Ids ({ w with futex.id := new }.set t ⟨.call use new, holds⟩) := by
  obtain ⟨hcr, hde, -⟩ := h.owned t new (by rw [ht]; rfl)
  have hmax := (h.created new hcr).1
  have hne : ∀ u, u ≠ t → (w.threads u).pc.owned ≠ some new := fun u hu he =>
    hu (h.owner u t new he (by rw [ht]; rfl))
  constructor
  · intro i hi
    refine ⟨(h.created i hi).1, ?_⟩
    rcases (h.created i hi).2 with rfl | hd | ⟨u, hu⟩
    · exact absurd hid (h.created _ hi).1
    · exact .inr (.inl hd)
    · by_cases hut : u = t
      · rw [hut, ht] at hu
        exact .inl (Option.some.inj hu).symm
      · exact .inr (.inr ⟨u, by rw [set_threads_of_ne hut]; exact hu⟩)
  · exact fun i hi => ⟨(h.destroyed i hi).1, fun (he : i = new) => hde (he ▸ hi)⟩
  · intro u i hi
    by_cases hu : u = t
    · rw [hu, set_threads_self] at hi
      exact absurd hi (by simp [Pc.owned])
    · rw [set_threads_of_ne hu] at hi
      obtain ⟨h1, h2, -⟩ := h.owned u i hi
      exact ⟨h1, h2, fun (he : i = new) => hne u hu (he ▸ hi)⟩
  · exact h.owner_set rfl rfl
  · intro u i hi
    by_cases hu : u = t
    · rw [hu, set_threads_self] at hi
      obtain rfl := Option.some.inj hi
      exact ⟨rfl, hmax⟩
    · rw [set_threads_of_ne hu] at hi
      exact absurd ((h.target u i hi).1.trans hid) (h.target u i hi).2
  · exact fun i hi => absurd ((h.used i hi).1.trans hid) (h.used i hi).2
  · exact .inr hcr
  · intro i _
    by_cases hi : i = w.futex.id
    · exact h.sem i (.inr (hi.trans hid))
    · exact h.sem i (.inl hi)

/-- A losing id is destroyed. -/
theorem destroy_ids {use : Use} {new id : ℕ} {holds : Bool} (h : Ids w)
    (ht : (w.threads t).pc = .destroy use new id) :
    Ids ({ w with destroyed := new :: w.destroyed }.set t ⟨.call use id, holds⟩) := by
  obtain ⟨hcr, hde, hid⟩ := h.owned t new (by rw [ht]; rfl)
  have hne : ∀ u, u ≠ t → (w.threads u).pc.owned ≠ some new := fun u hu he =>
    hu (h.owner u t new he (by rw [ht]; rfl))
  constructor
  · intro i hi
    refine ⟨(h.created i hi).1, (h.created i hi).2.imp_right ?_⟩
    rintro (hd | ⟨u, hu⟩)
    · exact .inl (List.mem_cons_of_mem _ hd)
    · by_cases hut : u = t
      · rw [hut, ht] at hu
        obtain rfl := Option.some.inj hu
        exact .inl List.mem_cons_self
      · exact .inr ⟨u, by rw [set_threads_of_ne hut]; exact hu⟩
  · intro i hi
    rcases List.mem_cons.1 hi with rfl | hi
    · exact ⟨hcr, hid⟩
    · exact h.destroyed i hi
  · intro u i hi
    by_cases hu : u = t
    · rw [hu, set_threads_self] at hi
      exact absurd hi (by simp [Pc.owned])
    · rw [set_threads_of_ne hu] at hi
      obtain ⟨h1, h2, h3⟩ := h.owned u i hi
      refine ⟨h1, fun hd => ?_, h3⟩
      rcases List.mem_cons.1 hd with rfl | hd
      · exact hne u hu hi
      · exact h2 hd
  · exact h.owner_set rfl rfl
  · intro u i hi
    by_cases hu : u = t
    · rw [hu, set_threads_self] at hi
      exact h.target t i (by rw [ht]; exact hi)
    · rw [set_threads_of_ne hu] at hi
      exact h.target u i hi
  · exact h.used
  · exact h.winner
  · exact h.sem

end

/-! ### Steps and runs -/

/-- The invariant. -/
structure Inv (w : World Tid) : Prop where
  balance : Balance w
  ids : Ids w

omit [Fintype Tid] in
/-- A step that touches neither the ids nor the semaphores. -/
theorem Ids.move {v : World Tid} (h : Ids w) (ht : v.threads = w.threads)
    (hid : v.futex.id = w.futex.id) (hcr : v.created = w.created) (hde : v.destroyed = w.destroyed)
    (hus : v.used = w.used) (hse : v.sem = w.sem)
    (howned : th.pc.owned = (w.threads t).pc.owned)
    (htarget : ∀ i ∈ th.pc.target, i = w.futex.id ∧ i ≠ usizeMax) : Ids (v.set t th) :=
  h.set_plain ht hid hcr hde howned htarget (hus ▸ h.used) (hse ▸ h.sem)

/-- A thread goes on in its call, and nothing else changes. -/
theorem Inv.goto {pc : Pc} (h : Inv w) (hu : pc.use = (w.threads t).pc.use)
    (ho : pc.owned = (w.threads t).pc.owned)
    (hta : ∀ i ∈ pc.target, i = w.futex.id ∧ i ≠ usizeMax) :
    Inv (w.set t ⟨pc, (w.threads t).holds⟩) :=
  ⟨h.balance.set_same rfl rfl rfl rfl hu, h.ids.move rfl rfl rfl rfl rfl rfl ho hta⟩

/-- A thread without an id goes on with the id of the futex. -/
theorem Inv.goto_target {pc : Pc} (h : Inv w) (hu : pc.use = (w.threads t).pc.use)
    (ho : pc.owned = (w.threads t).pc.owned) (hta : pc.target = some w.futex.id)
    (hid : w.futex.id ≠ usizeMax) : Inv (w.set t ⟨pc, (w.threads t).holds⟩) := by
  refine h.goto hu ho fun i hi => ?_
  obtain rfl := Option.some.inj (hta.symm.trans hi)
  exact ⟨rfl, hid⟩

theorem tryUpdate_inv {n : ℕ} (h : Inv w) (hpc : (w.threads t).pc = .tryUpdate n)
    (he : w.advance t fresh spurious = some w') : Inv w' := by
  simp only [advance, hpc] at he
  split_ifs at he with h0 hs
  · obtain rfl := Option.some.inj he
    exact h.goto (by rw [hpc]; rfl) (by rw [hpc]; rfl) (by simp [Pc.target])
  · obtain rfl := Option.some.inj he
    obtain rfl : n = 0 := by omega
    exact ⟨tryUpdate_balance h.balance hpc hs.1,
      h.ids.move rfl rfl rfl rfl rfl rfl (by rw [hpc]; rfl) (by simp [Pc.target])⟩
  · obtain rfl := Option.some.inj he
    exact h.goto (by rw [hpc]; rfl) (by rw [hpc]; rfl) (by simp [Pc.target])

theorem loadId_inv {use : Use} (h : Inv w) (hpc : (w.threads t).pc = .loadId use)
    (he : w.advance t fresh spurious = some w') : Inv w' := by
  simp only [advance, hpc] at he
  split_ifs at he with hid
  · obtain rfl := Option.some.inj he
    exact h.goto_target (by rw [hpc]; rfl) (by rw [hpc]; rfl) rfl hid
  · obtain rfl := Option.some.inj he
    exact h.goto (by rw [hpc]; rfl) (by rw [hpc]; rfl) (by simp [Pc.target])

theorem newId_inv {use : Use} (h : Inv w) (hpc : (w.threads t).pc = .newId use)
    (he : w.advance t fresh spurious = some w') : Inv w' := by
  simp only [advance, hpc] at he
  split_ifs at he with hf
  obtain rfl := Option.some.inj he
  exact ⟨h.balance.set_same rfl rfl rfl rfl (by rw [hpc]; rfl),
    newId_ids h.ids hpc (fun hc => hf (.inl hc)) fun hm => hf (.inr hm)⟩

theorem exchange_inv {use : Use} {new : ℕ} (h : Inv w) (hpc : (w.threads t).pc = .exchange use new)
    (he : w.advance t fresh spurious = some w') : Inv w' := by
  simp only [advance, hpc] at he
  split_ifs at he with hid
  · obtain rfl := Option.some.inj he
    refine ⟨h.balance.set_same rfl rfl ?_ rfl (by rw [hpc]; rfl), exchange_ids h.ids hpc hid⟩
    -- neither the new id nor the old value has credits yet
    obtain ⟨-, -, hne⟩ := h.ids.owned t new (by rw [hpc]; rfl)
    exact (h.ids.sem new (.inl hne)).trans (h.ids.sem w.futex.id (.inr hid)).symm
  · obtain rfl := Option.some.inj he
    exact h.goto_target (by rw [hpc]; rfl) (by rw [hpc]; rfl) rfl hid

omit [DecidableEq Tid] [Fintype Tid] in
/-- The credits of the ids that are not in use, when those of the id of the futex change. -/
theorem Ids.sem_update (h : Ids w) (hmax : w.futex.id ≠ usizeMax) (credits : ℕ) :
    ∀ i, i ≠ w.futex.id ∨ i = usizeMax → Function.update w.sem w.futex.id credits i = 0 := by
  intro i hi
  have hne : i ≠ w.futex.id := by
    rintro rfl
    exact hi.elim (fun hn => hn rfl) hmax
  exact (Function.update_of_ne hne _ _).trans (h.sem i hi)

theorem call_inv {use : Use} {id : ℕ} (h : Inv w) (hpc : (w.threads t).pc = .call use id)
    (he : w.advance t fresh spurious = some w') : Inv w' := by
  obtain ⟨rfl, hmax⟩ := h.ids.target t id (by rw [hpc]; rfl)
  have hused : ∀ i ∈ w.futex.id :: w.used, i = w.futex.id ∧ i ≠ usizeMax := by
    intro i hi
    rcases List.mem_cons.1 hi with rfl | hi
    · exact ⟨rfl, hmax⟩
    · exact h.ids.used i hi
  cases use with
  | block =>
    simp only [advance, hpc, Option.some.injEq] at he
    subst he
    refine ⟨h.balance.set_same rfl rfl rfl rfl (by rw [hpc]; rfl),
      h.ids.set_plain rfl rfl rfl rfl (by rw [hpc]; rfl) ?_ hused h.ids.sem⟩
    intro i hi
    obtain rfl := Option.some.inj hi
    exact ⟨rfl, hmax⟩
  | unblock =>
    simp only [advance, hpc, Option.some.injEq] at he
    subst he
    exact ⟨unblock_balance h.balance hpc, h.ids.set_plain rfl rfl rfl rfl (by rw [hpc]; rfl)
      (by simp [Pc.target]) hused (h.ids.sem_update hmax _)⟩

theorem blocked_inv {id : ℕ} (h : Inv w) (hpc : (w.threads t).pc = .blocked id)
    (he : w.advance t fresh spurious = some w') : Inv w' := by
  obtain ⟨rfl, hmax⟩ := h.ids.target t id (by rw [hpc]; rfl)
  simp only [advance, hpc] at he
  split_ifs at he with hs
  obtain rfl := Option.some.inj he
  exact ⟨block_balance h.balance hpc (by omega), h.ids.set_plain rfl rfl rfl rfl (by rw [hpc]; rfl)
    (by simp [Pc.target]) h.ids.used (h.ids.sem_update hmax _)⟩

/-- The next step of any call. -/
theorem advance_inv (h : Inv w) (he : w.advance t fresh spurious = some w') : Inv w' := by
  cases hpc : (w.threads t).pc with
  | idle => simp [advance, hpc] at he
  | tryUpdate n => exact tryUpdate_inv h hpc he
  | loadId use => exact loadId_inv h hpc he
  | newId use => exact newId_inv h hpc he
  | exchange use new => exact exchange_inv h hpc he
  | destroy use new id =>
    simp only [advance, hpc, Option.some.injEq] at he
    subst he
    exact ⟨h.balance.set_same rfl rfl rfl rfl (by rw [hpc]; rfl), destroy_ids h.ids hpc⟩
  | call use id => exact call_inv h hpc he
  | blocked id => exact blocked_inv h hpc he

omit [Fintype Tid] in
/-- A thread that is in no call changes the count. -/
theorem Ids.set_count (h : Ids w) (ht : (w.threads t).pc = .idle) (count : ℕ)
    (ho : th.pc.owned = none) (hta : th.pc.target = none) :
    Ids ({ w with futex.count := count }.set t th) :=
  Ids.move (v := { w with futex.count := count }) h rfl rfl rfl rfl rfl rfl
    (ho.trans (congrArg Pc.owned ht).symm) (by simp [hta])

omit [Fintype Tid] in
theorem lock_ids (h : Ids w) (ht : (w.threads t).pc = .idle) : Ids (w.lock t) := by
  unfold lock
  dsimp only
  split_ifs
  · exact h.set_count ht _ rfl rfl
  · exact h.set_count ht _ rfl rfl

omit [Fintype Tid] in
theorem unlock_ids (h : Ids w) (ht : (w.threads t).pc = .idle) : Ids (w.unlock t) := by
  unfold unlock
  dsimp only
  split_ifs
  · exact h.set_count ht _ rfl rfl
  · exact h.set_count ht _ rfl rfl

/-- Every step keeps the invariant, with fewer threads than the count can hold. -/
theorem step_inv (hcard : Fintype.card Tid + 2 < usizeMod) {op : Label Tid} (h : Inv w)
    (he : step w op = some w') : Inv w' := by
  cases op with
  | lock t =>
    simp only [step] at he
    split_ifs at he with hpc
    obtain rfl := Option.some.inj he
    exact ⟨lock_balance h.balance hcard hpc, lock_ids h.ids hpc⟩
  | tryLock t =>
    simp only [step] at he
    split_ifs at he with hpc
    obtain rfl := Option.some.inj he
    exact ⟨h.balance.set_same rfl rfl rfl rfl (congrArg Pc.use hpc).symm,
      h.ids.move rfl rfl rfl rfl rfl rfl (congrArg Pc.owned hpc).symm (by simp [Pc.target])⟩
  | unlock t =>
    simp only [step] at he
    split_ifs at he with hpc
    obtain rfl := Option.some.inj he
    exact ⟨unlock_balance h.balance hcard hpc.1 hpc.2, unlock_ids h.ids hpc.1⟩
  | run t fresh spurious => exact advance_inv h he

theorem run_inv (hcard : Fintype.card Tid + 2 < usizeMod) {ops : List (Label Tid)} (h : Inv w)
    (he : Machine.run step w ops = some w') : Inv w' := by
  induction ops generalizing w with
  | nil => exact Option.some.inj he ▸ h
  | cons op ops ih =>
    obtain ⟨v, hv, hw'⟩ := Option.bind_eq_some_iff.1 he
    exact ih (step_inv hcard h hv) hw'

/-- The lock is exclusive, one semaphore is used, and a lock that is not free has a holder or a
wakeup on its way. -/
structure Safe (w : World Tid) : Prop where
  exclusive : ∀ t u, (w.threads t).holds → (w.threads u).holds → t = u
  one_id : ∀ i ∈ w.used, i = w.futex.id ∧ i ∈ w.created ∧ i ∉ w.destroyed
  losers : ∀ i ∈ w.created, i = w.futex.id ∨ i ∈ w.destroyed ∨
    ∃ t, (w.threads t).pc.owned = some i
  wakeup : 0 < w.futex.count → (∀ t, (w.threads t).holds = false) →
    (∃ t, (w.threads t).pc.use = some .block) ∧
      (0 < w.sem w.futex.id ∨ ∃ t, (w.threads t).pc.use = some .unblock)

omit [DecidableEq Tid] in
theorem Inv.safe (h : Inv w) : Safe w := by
  constructor
  · intro t u ht hu
    refine eq_of_total_le_one h.balance.holding_le ?_ ?_
    · rw [Thread.holding, if_pos ht]
      exact Nat.one_pos
    · rw [Thread.holding, if_pos hu]
      exact Nat.one_pos
  · intro i hi
    obtain ⟨rfl, hmax⟩ := h.ids.used i hi
    exact ⟨rfl, h.ids.winner.resolve_left hmax, fun hd => (h.ids.destroyed _ hd).2 rfl⟩
  · exact fun i hi => (h.ids.created i hi).2
  · intro hpos hfree
    have hzero : total Thread.holding w.threads = 0 :=
      Finset.sum_eq_zero fun t _ => by rw [Thread.holding, hfree t]; rfl
    have hcount := h.balance.count
    have htoken := h.balance.token
    rw [if_neg (by omega)] at htoken
    constructor
    · have hpos' : 0 < total Thread.waiting w.threads := by omega
      obtain ⟨t, ht⟩ := exists_of_total_pos hpos'
      refine ⟨t, ?_⟩
      by_contra hn
      rw [Thread.waiting, if_neg hn] at ht
      omega
    · by_cases hs : 0 < w.sem w.futex.id
      · exact .inl hs
      · have hpos' : 0 < total Thread.waking w.threads := by omega
        obtain ⟨t, ht⟩ := exists_of_total_pos hpos'
        refine .inr ⟨t, ?_⟩
        by_contra hn
        rw [Thread.waking, if_neg hn] at ht
        omega

end World

/-- A thread, by the address of its `Thread`, which is a multiple of eight. -/
abbrev ThreadAddr := {a : ℕ // a < usizeMod ∧ 8 ∣ a}

instance : Finite ThreadAddr :=
  Set.Finite.subset (Set.finite_Iio usizeMod) fun _ ha => ha.1

noncomputable instance : Fintype ThreadAddr := Fintype.ofFinite _

theorem card_threadAddr : Fintype.card ThreadAddr ≤ 2 ^ 61 := by
  have hinj : Function.Injective fun a : ThreadAddr =>
      (⟨a.1 / 8, by have := a.2.1; simp only [usizeMod] at this; omega⟩ : Fin (2 ^ 61)) := by
    rintro ⟨a, ha, ha'⟩ ⟨b, hb, hb'⟩ he
    have := Fin.mk.inj_iff.1 he
    exact Subtype.ext (by simp only at this ⊢; omega)
  simpa using Fintype.card_le_of_injective _ hinj

theorem card_lt : Fintype.card ThreadAddr + 2 < usizeMod := by
  have := card_threadAddr
  simp only [usizeMod]
  omega

/-- **The raw futex is safe** in every state that any threads reach in any interleaving. -/
theorem run_safe (ops : List (Label ThreadAddr)) (w : World ThreadAddr)
    (he : Machine.run step World.init ops = some w) : World.Safe w :=
  (World.run_inv card_lt ⟨World.balance_init, World.ids_init⟩ he).safe

/-- A thread takes the lock; two more contend and create an id each, and one of the two loses. -/
def contention : List (Label ThreadAddr) :=
  let a : ThreadAddr := ⟨8, by decide⟩
  let b : ThreadAddr := ⟨16, by decide⟩
  let c : ThreadAddr := ⟨24, by decide⟩
  [.lock a, .lock b, .run b 0 false, .run b 5 false, .lock c, .run c 0 false, .run c 37 false,
    .run c 0 false, .run b 0 false, .run b 0 false, .unlock a, .run a 0 false, .run b 0 false,
    .run a 0 false, .run b 0 false]

theorem run_safe_contention :
    World.Safe ((Machine.run step World.init contention).get (by decide)) :=
  run_safe contention _ (Option.some_get _).symm

/-- The loser holds the lock in the end, over the id of the winner. -/
example : ((Machine.run step World.init contention).map fun w =>
    (w.futex, w.destroyed, w.used, (w.threads ⟨16, by decide⟩).holds)) =
      some (⟨37, 2⟩, [5], [37, 37], true) := by
  decide

end RawFutex
end AuroraOs
