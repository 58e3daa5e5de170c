import AuroraOs.Lib.Machine
import AuroraOs.Sched.ThreadRef

/-!
# Runs with references

`run_not_freed`: there is no reference to a thread that is freed, in the runs in which nobody gets a
reference from `get_thread` between the cleaner's look at `ref_count` and `remove_thread`.
`run_freed` is a run in which somebody does.
-/

namespace AuroraOs

open Machine

namespace ThreadRef
namespace State

variable (s : State) (tuid : Tuid)

/-- The threads that the cleaner has unlinked and not yet freed. -/
def held : List Tuid :=
  match s.pc with
  | .removing t | .freeing t => t :: s.list
  | _ => s.list

/-- The threads that the cleaner has yet to look at. -/
def rest : List Tuid :=
  match s.pc with
  | .scanning rest => rest
  | .unlinking t rest => t :: rest
  | _ => []

/-- The thread is beyond the cleaner's look at its `ref_count`. -/
def Doomed : Prop := s.condemned tuid = true ∨ s.pc = .freeing tuid ∨ s.freed tuid = true

/-- The invariant. -/
structure Inv : Prop where
  count : ∀ t, s.refCount t = s.refs.count t
  nodup : (s.destroy ++ s.held).Nodup
  scanned : s.rest.Sublist s.destroy
  tabled : ∀ t ∈ s.destroy ++ s.held, s.pc ≠ .freeing t → s.table t = true
  dead : ∀ t, s.pc = .freeing t ∨ s.freed t = true → s.table t = false ∨ s.process t.pid = false
  unreferenced : ∀ t, s.Doomed t → t ∉ s.refs
  fresh : ∀ t : Tuid, s.nextTid t.pid ≤ t.tid → t ∉ s.destroy ++ s.held ∧ s.freed t = false
  live : ∀ t, s.live t = true →
    t ∉ s.destroy ++ s.held ∧ s.table t = true ∧ t.tid < s.nextTid t.pid

variable {s tuid} {s' : State}

theorem condemned_iff : s.condemned tuid = true ↔
    tuid ∈ s.list ∨ (∃ rest, s.pc = .unlinking tuid rest) ∨ s.pc = .removing tuid := by
  unfold condemned
  cases s.pc <;> simp

/-- **There is no reference to a thread that is freed.** -/
theorem Inv.not_freed (h : s.Inv) (ht : tuid ∈ s.refs) : s.freed tuid = false := by
  by_contra hf
  exact h.unreferenced tuid (.inr (.inr (by simpa using hf))) ht

theorem inv_new : new.Inv := by
  refine ⟨fun t => rfl, List.nodup_nil, List.Sublist.refl _, ?_, ?_, ?_, ?_, ?_⟩ <;>
    simp [new, Doomed, condemned, held]

/-- **A new reference** to a thread that is not doomed. -/
theorem Inv.from_ (h : s.Inv) (ht : ¬ s.Doomed tuid) : (s.from_ tuid).Inv := by
  refine { h with count := fun u => ?_, unreferenced := fun u hu hm => ?_ }
  · by_cases hut : u = tuid
    · simp [State.from_, hut, h.count]
    · simp [State.from_, hut, Ne.symm hut, h.count]
  · rcases List.mem_cons.1 hm with rfl | hm
    · exact ht hu
    · exact h.unreferenced u hu hm

/-- The cleaner moves on with the threads that are unlinked or to be destroyed. -/
theorem Inv.goto (h : s.Inv) {destroy list : List Tuid} {pc : CleanerPc}
    (hperm : (destroy ++ held { s with list := list, pc := pc }).Perm (s.destroy ++ s.held))
    (hrest : (rest { s with pc := pc }).Sublist destroy) (hpc : ∀ t, s.pc ≠ .freeing t)
    (hfreeing : ∀ t, pc = .freeing t → s.process t.pid = false ∧ t ∉ s.refs)
    (hcondemned : ∀ t, condemned { s with list := list, pc := pc } t = true → t ∉ s.refs) :
    Inv { s with destroy := destroy, list := list, pc := pc } := by
  refine ⟨h.count, hperm.nodup_iff.2 h.nodup, hrest, fun t ht _ => ?_, fun t ht => ?_,
    fun t ht => ?_, fun t ht => ?_, fun t ht => ?_⟩
  · exact h.tabled t (hperm.mem_iff.1 ht) (hpc t)
  · rcases ht with ht | ht
    · exact .inr (hfreeing t ht).1
    · exact h.dead t (.inr ht)
  · rcases ht with ht | ht | ht
    · exact hcondemned t ht
    · exact (hfreeing t ht).2
    · exact h.unreferenced t (.inr (.inr ht))
  · obtain ⟨h1, h2⟩ := h.fresh t ht
    exact ⟨fun hm => h1 (hperm.mem_iff.1 hm), h2⟩
  · obtain ⟨h1, h2⟩ := h.live t ht
    exact ⟨fun hm => h1 (hperm.mem_iff.1 hm), h2⟩

theorem Inv.not_mem_refs (h : s.Inv) (ht : tuid ∈ s.list ∨ (∃ rest, s.pc = .unlinking tuid rest) ∨
    s.pc = .removing tuid) : tuid ∉ s.refs :=
  h.unreferenced tuid (.inl (condemned_iff.2 ht))

theorem Inv.asleep (h : s.Inv) (hpc : s.pc = .asleep) : ∃ s', s.clean = some s' ∧ s'.Inv := by
  unfold State.clean
  rw [hpc]
  refine ⟨_, rfl, h.goto (by simp [held, hpc]) (List.Sublist.refl _) (by simp [hpc]) (by simp)
    fun t ht => h.not_mem_refs (.inl ?_)⟩
  simpa [condemned_iff] using ht

/-- The next thread is unlinked if nobody refers to it. -/
theorem Inv.scanning (h : s.Inv) {rest : List Tuid} (hpc : s.pc = .scanning rest) :
    ∃ s', s.clean = some s' ∧ s'.Inv := by
  have hscanned := h.scanned
  unfold State.clean
  rw [hpc]
  simp only [State.rest, hpc] at hscanned
  cases rest with
  | nil =>
    refine ⟨_, rfl, h.goto (by simp [held, hpc]) (List.nil_sublist _) (by simp [hpc]) (by simp)
      fun t ht => h.not_mem_refs (.inl ?_)⟩
    simpa [condemned_iff] using ht
  | cons t rest =>
    simp only []
    by_cases hzero : s.refCount t = 0
    · -- nobody refers to the thread
      rw [if_pos hzero]
      refine ⟨_, rfl, h.goto (by simp [held, hpc]) hscanned (by simp [hpc]) (by simp) fun u hu => ?_⟩
      rcases condemned_iff.1 hu with hu | ⟨rest, hu⟩ | hu
      · exact h.not_mem_refs (.inl hu)
      · obtain ⟨rfl, -⟩ := CleanerPc.unlinking.inj hu
        rwa [← List.count_eq_zero, ← h.count]
      · cases hu
    · rw [if_neg hzero]
      refine ⟨_, rfl, h.goto (by simp [held, hpc]) ((List.sublist_cons_self t rest).trans hscanned)
        (by simp [hpc]) (by simp) fun u hu => h.not_mem_refs (.inl ?_)⟩
      simpa [condemned_iff] using hu

/-- The thread goes on the list of the cleaner. -/
theorem Inv.unlinking (h : s.Inv) {t : Tuid} {rest : List Tuid} (hpc : s.pc = .unlinking t rest) :
    ∃ s', s.clean = some s' ∧ s'.Inv := by
  have hscanned := h.scanned
  unfold State.clean
  rw [hpc]
  simp only [State.rest, hpc] at hscanned
  have ht : t ∈ s.destroy := hscanned.subset List.mem_cons_self
  have hperm : (s.destroy.erase t ++ (s.list ++ [t])).Perm (s.destroy ++ s.list) := by
    rw [← List.append_assoc]
    exact (List.perm_append_singleton t _).trans ((List.perm_cons_erase ht).append_right s.list).symm
  have hrest : rest.Sublist (s.destroy.erase t) := by
    simpa using hscanned.erase t
  refine ⟨_, rfl, h.goto (by simpa [held, hpc] using hperm) hrest (by simp [hpc]) (by simp) fun u hu => ?_⟩
  rcases condemned_iff.1 hu with hu | ⟨rest, hu⟩ | hu
  · rcases List.mem_append.1 hu with hu | hu
    · exact h.not_mem_refs (.inl hu)
    · obtain rfl := List.mem_singleton.1 hu
      exact h.not_mem_refs (.inr (.inl ⟨_, hpc⟩))
  · cases hu
  · cases hu

/-- The next thread is taken out of its table if its process is there. -/
theorem Inv.popping (h : s.Inv) (hpc : s.pc = .popping) : ∃ s', s.clean = some s' ∧ s'.Inv := by
  unfold State.clean
  rw [hpc]
  cases hlist : s.list with
  | nil =>
    refine ⟨_, rfl, h.goto (by simp [held, hpc, hlist]) (List.nil_sublist _) (by simp [hpc]) (by simp)
      fun t ht => ?_⟩
    simp [condemned_iff] at ht
  | cons t ts =>
    have ht : t ∉ s.refs := h.not_mem_refs (.inl (by simp [hlist]))
    have hts : ∀ u ∈ ts, u ∉ s.refs := fun u hu => h.not_mem_refs (.inl (by simp [hlist, hu]))
    simp only []
    by_cases hprocess : s.process t.pid = true
    · rw [if_pos hprocess]
      refine ⟨_, rfl, h.goto (by simp [held, hpc, hlist]) (List.nil_sublist _) (by simp [hpc]) (by simp)
        fun u hu => ?_⟩
      rcases condemned_iff.1 hu with hu | ⟨rest, hu⟩ | hu
      · exact hts u hu
      · cases hu
      · obtain rfl := CleanerPc.removing.inj hu
        exact ht
    · rw [if_neg hprocess]
      refine ⟨_, rfl, h.goto (by simp [held, hpc, hlist]) (List.nil_sublist _) (by simp [hpc]) ?_
        fun u hu => hts u (by simpa [condemned_iff] using hu)⟩
      rintro _ ⟨⟩
      exact ⟨by simpa using hprocess, ht⟩

/-- The thread was in its table. -/
theorem Inv.removing (h : s.Inv) {t : Tuid} (hpc : s.pc = .removing t) :
    ∃ s', s.clean = some s' ∧ s'.Inv := by
  unfold State.clean
  rw [hpc]
  have hmem : t ∈ s.destroy ++ s.held := by simp [held, hpc]
  have htable := h.tabled t hmem (by simp [hpc])
  have hheld : held { s with table := Function.update s.table t false, pc := .freeing t } = s.held := by
    simp [held, hpc]
  simp only [htable, if_true]
  refine ⟨_, rfl, h.count, hheld ▸ h.nodup, List.nil_sublist _, fun u hu hne => ?_, fun u hu => ?_,
    fun u hu => ?_, hheld ▸ h.fresh, fun u hu => ?_⟩
  · have hut : u ≠ t := by
      rintro rfl
      exact hne rfl
    exact (Function.update_of_ne hut _ _).trans (h.tabled u (hheld ▸ hu) (by simp [hpc]))
  · by_cases hut : u = t
    · exact .inl (by rw [hut]; exact Function.update_self _ _ _)
    · have hfreed : s.freed u = true := by
        rcases hu with hu | hu
        · exact absurd (CleanerPc.freeing.inj hu).symm hut
        · exact hu
      exact (h.dead u (.inr hfreed)).imp_left fun hf => (Function.update_of_ne hut _ _).trans hf
  · rcases hu with hu | hu | hu
    · exact h.not_mem_refs (.inl (by simpa [condemned_iff] using hu))
    · obtain rfl := CleanerPc.freeing.inj hu
      exact h.not_mem_refs (.inr (.inr hpc))
    · exact h.unreferenced u (.inr (.inr hu))
  · obtain ⟨h1, h2, h3⟩ := h.live u hu
    have hut : u ≠ t := fun hut => h1 (hut ▸ hmem)
    exact ⟨hheld ▸ h1, (Function.update_of_ne hut _ _).trans h2, h3⟩

/-- Nobody refers to the thread that is freed. -/
theorem Inv.freeing (h : s.Inv) {t : Tuid} (hpc : s.pc = .freeing t) :
    ∃ s', s.clean = some s' ∧ s'.Inv := by
  unfold State.clean
  rw [hpc]
  have hsub : ∀ u, u ∈ s.destroy ++ s.list → u ∈ s.destroy ++ s.held := by
    intro u hu
    simp only [held, hpc, List.mem_append, List.mem_cons] at hu ⊢
    tauto
  have hnodup := h.nodup
  simp only [held, hpc] at hnodup
  have ht : t ∉ s.destroy ++ s.list := (List.nodup_middle.1 hnodup |> List.nodup_cons.1).1
  refine ⟨_, rfl, h.count, ?_, List.nil_sublist _, fun u hu _ => ?_, fun u hu => ?_, fun u hu => ?_,
    fun u hu => ?_, fun u hu => ?_⟩
  · exact (List.nodup_cons.1 (List.nodup_middle.1 hnodup)).2
  · refine h.tabled u (hsub u hu) fun hf => ?_
    obtain rfl := CleanerPc.freeing.inj (hpc.symm.trans hf)
    exact ht hu
  · by_cases hut : u = t
    · exact h.dead u (.inl (hut ▸ hpc))
    · refine h.dead u (.inr ?_)
      rcases hu with hu | hu
      · cases hu
      · rwa [← Function.update_of_ne hut true s.freed]
  · by_cases hut : u = t
    · exact h.unreferenced u (.inr (.inl (hut ▸ hpc)))
    · rcases hu with hu | hu | hu
      · exact h.not_mem_refs (.inl (by simpa [condemned_iff] using hu))
      · cases hu
      · exact h.unreferenced u (.inr (.inr (by rwa [← Function.update_of_ne hut true s.freed])))
  · obtain ⟨h1, h2⟩ := h.fresh u hu
    have hut : u ≠ t := by
      rintro rfl
      exact h1 (by simp [held, hpc])
    exact ⟨fun hm => h1 (hsub u hm), (Function.update_of_ne hut _ _).trans h2⟩
  · obtain ⟨h1, h2⟩ := h.live u hu
    exact ⟨fun hm => h1 (hsub u hm), h2⟩

/-- **The cleaner's step** keeps the invariant. -/
theorem Inv.clean (h : s.Inv) : ∃ s', s.clean = some s' ∧ s'.Inv := by
  cases hpc : s.pc with
  | asleep => exact h.asleep hpc
  | scanning rest => exact h.scanning hpc
  | unlinking t rest => exact h.unlinking hpc
  | popping => exact h.popping hpc
  | removing t => exact h.removing hpc
  | freeing t => exact h.freeing hpc

theorem Inv.spawn (h : s.Inv) (pid : ℕ) : ∃ s', s.step (.spawn pid) = some s' ∧ s'.Inv := by
  obtain ⟨hnew, hfreed⟩ := h.fresh ⟨pid, s.nextTid pid⟩ le_rfl
  set t : Tuid := ⟨pid, s.nextTid pid⟩ with ht
  have hnext : ∀ u : Tuid, s.nextTid u.pid ≤ Function.update s.nextTid pid (s.nextTid pid + 1) u.pid := by
    intro u
    by_cases hu : u.pid = pid
    · rw [hu, Function.update_self]
      exact Nat.le_succ _
    · rw [Function.update_of_ne hu]
  refine ⟨_, rfl, h.count, h.nodup, h.scanned, fun u hu hpc => ?_, fun u hu => ?_, h.unreferenced,
    fun u hu => h.fresh u ((hnext u).trans hu), fun u hu => ?_⟩
  · by_cases hut : u = t
    · exact absurd hu (hut ▸ hnew)
    · exact (Function.update_of_ne hut _ _).trans (h.tabled u hu hpc)
  · have hut : u ≠ t := by
      rintro rfl
      rcases hu with hu | hu
      · exact hnew (List.mem_append_right _ (by simp [held, show s.pc = .freeing t from hu]))
      · rw [show s.freed t = true from hu] at hfreed
        cases hfreed
    exact (h.dead u hu).imp_left fun hf => (Function.update_of_ne hut _ _).trans hf
  · by_cases hut : u = t
    · refine ⟨hut ▸ hnew, ?_, ?_⟩
      · rw [hut]
        exact Function.update_self _ _ _
      · simp [hut, ht]
    · obtain ⟨h1, h2, h3⟩ := h.live u (by rwa [← Function.update_of_ne hut true s.live])
      exact ⟨h1, (Function.update_of_ne hut _ _).trans h2, lt_of_lt_of_le h3 (hnext u)⟩

theorem Inv.exit (h : s.Inv) (hlive : s.live tuid = true) (hlock : s.locked = false) :
    ∃ s', s.step (.exit tuid) = some s' ∧ s'.Inv := by
  obtain ⟨hnew, htable, hgiven⟩ := h.live tuid hlive
  have hperm : (s.destroy ++ [tuid] ++ s.held).Perm (tuid :: (s.destroy ++ s.held)) := by
    rw [List.append_assoc]
    exact List.perm_middle
  have hmem : ∀ u, u ∈ s.destroy ++ [tuid] ++ s.held ↔ u = tuid ∨ u ∈ s.destroy ++ s.held :=
    fun u => hperm.mem_iff.trans List.mem_cons
  refine ⟨_, rfl, h.count, hperm.nodup_iff.2 (List.nodup_cons.2 ⟨hnew, h.nodup⟩), ?_,
    fun u hu hpc => ?_, h.dead, h.unreferenced, fun u hu => ?_, fun u hu => ?_⟩
  · unfold locked at hlock
    unfold rest
    cases hpc : s.pc <;> simp_all
  · rcases (hmem u).1 hu with rfl | hu
    · exact htable
    · exact h.tabled u hu hpc
  · obtain ⟨h1, h2⟩ := h.fresh u hu
    refine ⟨fun hm => ?_, h2⟩
    rcases (hmem u).1 hm with rfl | hm
    · exact absurd hgiven (not_lt.2 hu)
    · exact h1 hm
  · have hut : u ≠ tuid := by
      rintro rfl
      exact Bool.false_ne_true ((Function.update_self _ _ _).symm.trans hu)
    obtain ⟨h1, h2⟩ := h.live u (by rwa [← Function.update_of_ne hut false s.live])
    exact ⟨fun hm => h1 (((hmem u).1 hm).resolve_left hut), h2⟩

/-- **A step** in time keeps the invariant. -/
theorem Inv.step (h : s.Inv) (op : Op) (hL : s.Legal op) (hin : s.InTime op) :
    ∃ s', s.step op = some s' ∧ s'.Inv := by
  cases op with
  | spawn pid => exact h.spawn pid
  | exit t => exact h.exit hL.1 hL.2
  | drop pid =>
    refine ⟨_, rfl, { h with dead := fun t ht => (h.dead t ht).imp_right fun hp => ?_ }⟩
    by_cases hpid : t.pid = pid
    · rw [hpid]
      exact Function.update_self _ _ _
    · exact (Function.update_of_ne hpid _ _).trans hp
  | getThread t =>
    refine ⟨_, rfl, ?_⟩
    by_cases ht : s.table t = true
    · rw [if_pos ht]
      refine h.from_ ?_
      rintro (hc | hd)
      · rw [show s.condemned t = false from hin] at hc
        cases hc
      · rcases h.dead t hd with hf | hp
        · rw [ht] at hf
          cases hf
        · rw [show s.process t.pid = true from hL] at hp
          cases hp
    · rwa [if_neg ht]
  | clone t => exact ⟨_, rfl, h.from_ fun hd => h.unreferenced t hd hL⟩
  | dropRef t =>
    refine ⟨_, rfl, { h with count := fun u => ?_, unreferenced := fun u hu hm => ?_ }⟩
    · by_cases hut : u = t
      · simp [hut, h.count]
      · simp [hut, h.count]
    · exact h.unreferenced u hu (List.mem_of_mem_erase hm)
  | clean => exact h.clean

/-- **No use after free**: in a run in which nobody looks up a thread that is condemned, the
cleaner's steps do not panic and there never is a reference to a thread that is freed. -/
theorem run_not_freed {ops : List Op} (hL : Along step Legal new ops) (hin : Along step InTime new ops) :
    ∃ s, run step new ops = some s ∧ ∀ t ∈ s.refs, s.freed t = false := by
  obtain ⟨s, he, h⟩ := run_inv Inv (fun s op h hop => h.step op hop.1 hop.2) inv_new (hL.and hin)
  exact ⟨s, he, fun t ht => h.not_freed ht⟩

/-- A thread is looked up, and is freed when it is no longer referred to. -/
theorem run_not_freed_sample :
    ∃ s, run step new [.spawn 1, .spawn 1, .getThread ⟨1, 0⟩, .getThread ⟨1, 1⟩, .exit ⟨1, 0⟩, .clean,
        .clean, .clean, .clean, .clone ⟨1, 0⟩, .dropRef ⟨1, 0⟩, .dropRef ⟨1, 0⟩, .clean, .clean, .clean,
        .clean, .clean, .clean, .clean] = some s ∧ ∀ t ∈ s.refs, s.freed t = false :=
  run_not_freed (by decide) (by decide)

/-- **A use after free**: the cleaner has seen that nobody refers to a thread, somebody looks it up,
and the thread is freed. -/
theorem run_freed :
    ∃ ops : List Op, Along step Legal new ops ∧
      ∃ s ∈ run step new ops, (⟨1, 0⟩ : Tuid) ∈ s.refs ∧ s.freed ⟨1, 0⟩ = true :=
  ⟨[.spawn 1, .exit ⟨1, 0⟩, .clean, .clean, .clean, .clean, .clean, .getThread ⟨1, 0⟩, .clean, .clean],
    by decide⟩

end State
end ThreadRef
end AuroraOs
