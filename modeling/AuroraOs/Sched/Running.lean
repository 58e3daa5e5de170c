import AuroraOs.Sched.ThreadListRun

/-!
# What the scheduler does to the running threads

Only `schedule` changes which thread a processor runs: it takes the running thread of its own processor away and
lets a thread run that none runs.  Every other step leaves the running threads.
-/

namespace AuroraOs

open LinkedList Machine

namespace LinkedList

variable {ι : Type*} [DecidableEq ι] {s : Lists ι}

/-- The list that an operation works on. -/
def ListOp.list : ListOp ι → ι
  | .push i _ | .pop i | .pushFront i _ | .popFront i | .insert i _ _ | .remove i _ | .insertBefore i _ _
  | .insertAfter i _ _ | .removeNode i _ | .updateNode i _ _ => i

/-- Other list values stay. -/
theorem step_list {op : ListOp ι} {r : Lists ι × Option Ptr} {j : ι} (he : step s op = some r) (hj : j ≠ op.list) :
    r.1.list j = s.list j := by
  have hstore : ∀ {i x}, j ≠ i → (s.store i x).1.list j = s.list j := fun hne => Function.update_of_ne hne _ _
  cases op with
  | removeNode i node | updateNode i old new =>
    obtain rfl := Option.some.inj he
    exact hstore hj
  | _ =>
    obtain ⟨x, -, rfl⟩ := Option.map_eq_some_iff.1 he
    exact hstore hj

end LinkedList

namespace ThreadList

variable {s s' s'' : ThreadList} {seqs seqs' : ListId → List Ptr} {threads : List Ptr} {p q : Ptr} {prid c : ℕ}
  {st : ThreadState} {id : ListId}

/-- The processors run the same threads. -/
structure StillRuns (s s' : ThreadList) : Prop where
  cpus : s'.cpus = s.cpus
  list : ∀ c, s'.lists.list (.running c) = s.lists.list (.running c)

theorem StillRuns.refl (s : ThreadList) : StillRuns s s := ⟨rfl, fun _ => rfl⟩

theorem StillRuns.trans (h : StillRuns s s') (h' : StillRuns s' s'') : StillRuns s s'' :=
  ⟨h'.cpus.trans h.cpus, fun c => (h'.list c).trans (h.list c)⟩

/-- The first node of a list does not depend on the links. -/
theorem getNode_zero (m m' : NodeMem) (l : LinkedList) : getNode m l 0 = getNode m' l 0 := by
  unfold getNode
  by_cases hlen : 0 ≥ l.len
  · rw [if_pos hlen, if_pos hlen]
  · rw [if_neg hlen, if_neg hlen, if_neg (by omega), if_neg (by omega)]
    rfl

theorem StillRuns.current (h : StillRuns s s') (c : ℕ) : s'.current c = s.current c := by
  have hhas : s'.has (.running c) = s.has (.running c) := by simp only [has, h.cpus]
  rw [ThreadList.current, ThreadList.current, hhas, h.list c, getNode_zero s'.lists.mem s.lists.mem]

theorem onList_stillRuns {op : ListOp ListId} {r : ThreadList × Option Ptr} (he : s.onList op = some r)
    (hop : ∀ c, op.list ≠ .running c) : StillRuns s r.1 := by
  obtain ⟨x, hx, rfl⟩ := Option.map_eq_some_iff.1 he
  exact ⟨rfl, fun c => step_list hx (hop c).symm⟩

theorem get_ne_running (hget : s.get prid st = some id) (hst : st ≠ .running) (c : ℕ) : id ≠ .running c := by
  simp only [get] at hget
  split at hget
  · obtain rfl := Option.some.inj hget
    exact select_ne_running hst c
  · cases hget

theorem insertInto_stillRuns (he : s.insertInto prid p = some s') (hst : (s.thread p).state ≠ .running) :
    StillRuns s s' := by
  obtain ⟨id, hid, he⟩ := Option.bind_eq_some_iff.1 he
  obtain ⟨r, hr, he⟩ := Option.bind_eq_some_iff.1 he
  obtain rfl := Option.some.inj he
  exact onList_stillRuns hr (get_ne_running hid hst)

/-- A thread that does not run is moved. -/
theorem moveTo_stillRuns (he : s.moveTo prid p st = some s') (hold : (s.thread p).state ≠ .running)
    (hst : st ≠ .running) : StillRuns s s' := by
  obtain ⟨s₁, h₁, he⟩ := Option.bind_eq_some_iff.1 he
  obtain ⟨id, hid, h₁⟩ := Option.bind_eq_some_iff.1 h₁
  obtain ⟨r, hr, h₁⟩ := Option.bind_eq_some_iff.1 h₁
  obtain rfl := Option.some.inj h₁
  have hremove := onList_stillRuns hr (get_ne_running hid hold)
  have hset : StillRuns r.1 (r.1.setState p st) := ⟨rfl, fun _ => rfl⟩
  have hinsert : StillRuns (r.1.setState p st) s' := insertInto_stillRuns he (by rwa [setState_state])
  exact hremove.trans (hset.trans hinsert)

/-! ### Loops -/

theorem forEachFrom_stillRuns {body : ThreadList → Ptr → Option ThreadList}
    (hbody : ∀ s p s', body s p = some s' → StillRuns s s') {n : ℕ} {start : Ptr}
    (he : forEachFrom body n start s = some s') : StillRuns s s' := by
  induction n generalizing s start with
  | zero =>
    obtain rfl := Option.some.inj he
    exact .refl s
  | succ n ih =>
    obtain ⟨p, -, he⟩ := Option.bind_eq_some_iff.1 he
    obtain ⟨s₁, h₁, he⟩ := Option.bind_eq_some_iff.1 he
    exact (hbody _ _ _ h₁).trans (ih he)

theorem wakeSleeping_stillRuns {nsec : ℕ} (he : s.wakeSleeping nsec = some s') : StillRuns s s' := by
  refine forEachFrom_stillRuns (fun s p s' hwake => ?_) he
  unfold wakeIfDue at hwake
  split at hwake
  · next hstate =>
    split at hwake
    · exact moveTo_stillRuns hwake (by simp [hstate]) (by simp)
    · obtain rfl := Option.some.inj hwake
      exact .refl s
  · cases hwake

theorem sweep_stillRuns {refCount : Ptr → ℕ} (he : s.sweep refCount = some s') : StillRuns s s' := by
  refine forEachFrom_stillRuns (fun s p s' hsweep => ?_) he
  unfold sweepOne at hsweep
  split at hsweep
  · obtain ⟨r, hr, hsweep⟩ := Option.bind_eq_some_iff.1 hsweep
    obtain ⟨r', hr', hsweep⟩ := Option.bind_eq_some_iff.1 hsweep
    obtain rfl := Option.some.inj hsweep
    have hremove : StillRuns s r.1 := onList_stillRuns hr (by simp [ListOp.list])
    exact hremove.trans (onList_stillRuns hr' (by simp [ListOp.list]))
  · obtain rfl := Option.some.inj hsweep
    exact .refl s

/-- The threads that are woken wait, so they do not run. -/
theorem wakeAll_stillRuns {gone : Tuid → Prop} (h : Inv gone s seqs [] threads) (hid : (s.select prid st).free = false)
    (hidle : ∀ c, s.select prid st ≠ .idle c) (hready : s.select prid st ≠ .ready)
    (he : s.wakeAll prid st = some s') : StillRuns s s' := by
  unfold wakeAll get at he
  by_cases hhas : s.has (s.select prid st) = true
  swap
  · simp only [hhas] at he
    obtain rfl := Option.some.inj he
    exact .refl s
  simp only [hhas, if_true] at he
  obtain ⟨s₂, seqs₂, he₂, -, hstill⟩ := forEach_spec (s.select prid st)
    (fun s ptr => s.moveTo prid ptr .ready) h (fun s' _ => StillRuns s s') (.refl s) (by
      intro s₁ seqs₁ kept p rest h₁ hs₁ hseq
      have hsel := h₁.core.select_eq (p := p) (by simp [hseq]) hid hidle prid
      obtain ⟨s₂, seqs₂, he, h₂, -, hseq₂⟩ := h₁.wake prid hseq hid hready hsel
      refine ⟨s₂, seqs₂, kept, he, h₂, hs₁.trans (moveTo_stillRuns he ?_ (by simp)), hseq₂⟩
      intro hrun
      rw [hrun, select_running] at hsel
      rw [hsel] at hid
      cases hid)
  rw [he] at he₂
  obtain rfl := Option.some.inj he₂
  exact hstill

theorem moveFrom_stillRuns {old new : ThreadState} {count left : ℕ} {r : ThreadList × ℕ}
    (he : moveFrom prid old new count left s = some r) (hold : old ≠ .running) (hnew : new ≠ .running) :
    StillRuns s r.1 := by
  induction left generalizing s with
  | zero =>
    obtain rfl := Option.some.inj he
    exact .refl s
  | succ left ih =>
    obtain ⟨id, hid, he⟩ := Option.bind_eq_some_iff.1 he
    obtain ⟨⟨s₁, next⟩, h₁, he⟩ := Option.bind_eq_some_iff.1 he
    have hpop : StillRuns s s₁ := onList_stillRuns h₁ (get_ne_running hid hold)
    cases next with
    | none =>
      obtain rfl := Option.some.inj he
      exact hpop
    | some p =>
      obtain ⟨s₂, h₂, he⟩ := Option.bind_eq_some_iff.1 he
      have hset : StillRuns s₁ (s₁.setState p new) := ⟨rfl, fun _ => rfl⟩
      have hinsert : StillRuns (s₁.setState p new) s₂ := insertInto_stillRuns h₂ (by rwa [setState_state])
      exact hpop.trans (hset.trans (hinsert.trans (ih he)))

theorem innerStateMove_stillRuns {old new : ThreadState} {count : ℕ} {r : ThreadList × ℕ}
    (he : s.innerStateMove prid old new count = some r) : StillRuns s r.1 := by
  unfold innerStateMove at he
  split at he
  · cases he
  · next hne =>
    rw [not_or] at hne
    split at he
    · obtain rfl := Option.some.inj he
      exact .refl s
    · exact moveFrom_stillRuns he hne.2 hne.1

/-! ### `schedule` -/

theorem current_of_ge (hc : s.cpus ≤ c) : s.current c = none := by
  have hhas : s.has (.running c) = false := decide_eq_false (by omega)
  rw [ThreadList.current, hhas]
  rfl

/-- The running lists say which threads run. -/
theorem Inv.current_congr {gone : Tuid → Prop} (h : Inv gone s seqs [] threads) (h' : Core s' seqs' [] threads)
    (hcpus : s'.cpus = s.cpus) (hc : seqs' (.running c) = seqs (.running c)) : s'.current c = s.current c := by
  by_cases hlt : c < s.cpus
  · obtain ⟨q, hq, hcur⟩ := h.current hlt
    rw [hcur, h'.current (hc.trans hq)]
  · rw [current_of_ge (by omega), current_of_ge (by omega)]

/-- A switch to a thread that no processor runs. -/
structure SwitchesTo (s s' : ThreadList) (threads : List Ptr) (prid : ℕ) (p : Ptr) : Prop where
  next : s'.current prid = some p
  other : ∀ c, c ≠ prid → s'.current c = s.current c
  idle : ∀ c, s.current c ≠ some p
  thread : p ∈ threads

/-- **Which threads run after `schedule`.** -/
theorem schedule_running {switched : Bool} (h : Inv (fun _ => False) s seqs [] threads) (hc : prid < s.cpus)
    (he : s.schedule prid = some (s', switched)) :
    if switched then ∃ p, SwitchesTo s s' threads prid p else ∀ c, s'.current c = s.current c := by
  have hfuel : (seqs .ready).length < (s.lists.list .ready).len + 1 := by
    rw [(h.core.lists.repr .ready).len_eq]
    exact Nat.lt_succ_self _
  obtain ⟨s₁, seqs₁, next, he₁, -, h₁, hpick⟩ := pickFrom_spec prid h hfuel
  unfold schedule at he
  simp only [he₁, Option.bind_eq_bind, Option.bind_some] at he
  cases next with
  | none =>
    obtain ⟨rfl, rfl⟩ := Prod.mk.inj (Option.some.inj he)
    exact fun c => h.current_congr h₁.core hpick.same.cpus (hpick.running c)
  | some p =>
    obtain ⟨s₂, he₂, he⟩ := Option.bind_eq_some_iff.1 he
    obtain ⟨rfl, rfl⟩ := Prod.mk.inj (Option.some.inj he)
    have hc₁ : prid < s₁.cpus := by rwa [hpick.same.cpus]
    obtain ⟨old, hold, hhas⟩ := h₁.busy prid hc₁
    have hoff := has_offState hc₁ (hhas.resolve_left (by simp [Late]))
    obtain ⟨s₃, seqs₃, he₃, h₃, hsw⟩ := h₁.core.switchTo hc₁ hold hoff
    rw [he₂] at he₃
    obtain rfl := Option.some.inj he₃
    have hfresh : ∀ c, p ∉ seqs (.running c) := fun c => by
      rw [← hpick.running c]
      exact (h₁.core.fresh p List.mem_cons_self).2 _
    refine ⟨p, h₃.current hsw.next, fun c hne => ?_, fun c hcur => ?_, (h₁.core.mem p).2 (.inl List.mem_cons_self)⟩
    · have hcpus : s₂.cpus = s.cpus := hsw.same.cpus.trans hpick.same.cpus
      have hne' : ListId.running c ≠ .running prid := by simpa using hne
      refine h.current_congr h₃ hcpus ?_
      rw [hsw.other _ hne' (select_ne_running (offState_ne_running _) c).symm, hpick.running]
    · by_cases hlt : c < s.cpus
      · obtain ⟨q, hq, hcur'⟩ := h.current hlt
        obtain rfl := Option.some.inj (hcur.symm.trans hcur')
        exact hfresh c (by simp [hq])
      · rw [current_of_ge (by omega)] at hcur
        cases hcur

end ThreadList
end AuroraOs
