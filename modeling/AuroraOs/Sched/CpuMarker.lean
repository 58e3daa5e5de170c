import Mathlib

/-!
# The CPUs that run a process: `CpuMarker` and `Process::terminate`

A `CpuMarker` has one mark for each of the `MAX_CPUS` CPUs; here their number is the length of the
list.  Its iterator looks for the next mark in the slice from `index` on, and its position there is
both what it returns and what it computes the next `index` from.

`terminate` takes the CPUs from `iter_clear`: it stops at its own, and sends a process exit IPI to
each of the others, which panics for a CPU that has no local APIC id.  `none` is a loop that is not
done within its fuel.
-/

namespace AuroraOs.Marks

structure CpuMarker where
  marks : List Bool

/-- `CpuMarkerIter`: the slice `marks[index..]` exists. -/
structure CpuMarkerIter where
  marks : List Bool
  index : ℕ
  index_le : index ≤ marks.length

/-- `from`. -/
def CpuMarkerIter.ofMarks (marks : List Bool) : CpuMarkerIter := ⟨marks, 0, Nat.zero_le _⟩

def CpuMarker.iter (self : CpuMarker) : CpuMarkerIter := .ofMarks self.marks

/-- `iter_clear`: `marks.map(|_| 0)` builds another array, which is dropped. -/
def CpuMarker.iterClear (self : CpuMarker) : CpuMarkerIter × CpuMarker := (.ofMarks self.marks, self)

/-- The CPU is marked. -/
def Marked (marks : List Bool) (c : ℕ) : Prop := marks[c]? = some true

instance (marks : List Bool) (c : ℕ) : Decidable (Marked marks c) :=
  inferInstanceAs (Decidable (marks[c]? = some true))

theorem findIdx?_drop {marks : List Bool} {index i : ℕ}
    (h : (marks.drop index).findIdx? id = some i) :
    Marked marks (index + i) ∧ ∀ j < i, ¬ Marked marks (index + j) := by
  obtain ⟨hi, hmark, hbefore⟩ := List.findIdx?_eq_some_iff_getElem.1 h
  constructor
  · rw [Marked, ← List.getElem?_drop, List.getElem?_eq_getElem hi]
    exact congrArg some hmark
  · intro j hj hmarked
    rw [Marked, ← List.getElem?_drop, List.getElem?_eq_getElem (hj.trans hi)] at hmarked
    exact hbefore j hj (Option.some.inj hmarked)

theorem findIdx?_drop_none {marks : List Bool} {index : ℕ}
    (h : (marks.drop index).findIdx? id = none) (c : ℕ) (hc : index ≤ c) : ¬ Marked marks c := by
  intro hmarked
  obtain ⟨j, rfl⟩ := Nat.exists_eq_add_of_le hc
  rw [Marked, ← List.getElem?_drop] at hmarked
  have hfalse := List.findIdx?_eq_none_iff.1 h true (List.mem_of_getElem? hmarked)
  cases hfalse

theorem lt_of_marked {marks : List Bool} {c : ℕ} (h : Marked marks c) : c < marks.length :=
  (List.getElem?_eq_some_iff.1 h).1

/-- `next`. -/
def CpuMarkerIter.next (self : CpuMarkerIter) : Option ℕ × CpuMarkerIter :=
  match h : (self.marks.drop self.index).findIdx? id with
  | some i => (some i, ⟨self.marks, i + 1, by
      have := lt_of_marked (findIdx?_drop h).1
      omega⟩)
  | none => (none, self)

/-- What one call of `next` answers, and the iterator after it. -/
theorem CpuMarkerIter.next_cases (it : CpuMarkerIter) :
    (∃ i it', it.next = (some i, it') ∧ it'.marks = it.marks ∧ it'.index = i + 1 ∧
      Marked it.marks (it.index + i) ∧ ∀ j < i, ¬ Marked it.marks (it.index + j)) ∨
    (it.next = (none, it) ∧ ∀ c, it.index ≤ c → ¬ Marked it.marks c) := by
  unfold CpuMarkerIter.next
  split
  · rename_i i h
    exact .inl ⟨i, _, rfl, rfl, rfl, findIdx?_drop h⟩
  · rename_i h
    exact .inr ⟨rfl, findIdx?_drop_none h⟩

/-! ### What the iterator yields -/

/-- The answer of one call of `next` after some others. -/
def CpuMarkerIter.nth (it : CpuMarkerIter) : ℕ → Option ℕ
  | 0 => it.next.1
  | k + 1 => it.next.2.nth k

/-- The marked CPUs in increasing order. -/
def marked (marks : List Bool) : List ℕ := (List.range marks.length).filter fun c => Marked marks c

theorem mem_marked {marks : List Bool} {c : ℕ} : c ∈ marked marks ↔ Marked marks c := by
  rw [marked, List.mem_filter, List.mem_range, decide_eq_true_iff]
  exact ⟨And.right, fun h => ⟨lt_of_marked h, h⟩⟩

theorem marked_sorted (marks : List Bool) : (marked marks).Pairwise (· < ·) :=
  List.pairwise_lt_range.filter _

/-- The iterator yields exactly the marked CPUs in increasing order, and then `None` for ever. -/
def CpuMarkerIter.Yields (it : CpuMarkerIter) (marks : List Bool) : Prop :=
  ∀ k, it.nth k = (marked marks)[k]?

/-- An iterator with no mark ahead answers `None` for ever. -/
theorem CpuMarkerIter.nth_of_none {it : CpuMarkerIter}
    (h : ∀ c, it.index ≤ c → ¬ Marked it.marks c) (k : ℕ) : it.nth k = none := by
  have hnext : it.next = (none, it) := by
    obtain ⟨i, it', -, -, -, hmark, -⟩ | ⟨hnext, -⟩ := it.next_cases
    · exact absurd hmark (h _ (Nat.le_add_right _ _))
    · exact hnext
  induction k with
  | zero => rw [CpuMarkerIter.nth, hnext]
  | succ k ih => rw [CpuMarkerIter.nth, hnext, ih]

/-- The first two marked CPUs, as `next` finds them. -/
theorem two_marked {marks : List Bool} (h : 1 < (marked marks).length) :
    ∃ m n it it', (CpuMarkerIter.ofMarks marks).next = (some m, it) ∧ it.next = (some n, it') ∧
      Marked marks m ∧ Marked marks (m + 1 + n) ∧ ∀ c < m + 1 + n, Marked marks c → c = m := by
  obtain ⟨a, b, hfirst, hsecond, hlt⟩ : ∃ a b, Marked marks a ∧ Marked marks b ∧ a < b :=
    ⟨(marked marks)[0], (marked marks)[1], mem_marked.1 (List.getElem_mem _),
      mem_marked.1 (List.getElem_mem _),
      List.pairwise_iff_getElem.1 (marked_sorted marks) 0 1 _ h Nat.zero_lt_one⟩
  obtain ⟨m, it, hm, hmarks, hindex, hmark, hbefore⟩ | ⟨-, hnone⟩ :=
    (CpuMarkerIter.ofMarks marks).next_cases
  · simp only [CpuMarkerIter.ofMarks, zero_add] at hmarks hmark hbefore
    have hle : m ≤ a := by
      by_contra hgt
      exact hbefore _ (by omega) hfirst
    obtain ⟨n, it', hn, -, -, hmark', hbefore'⟩ | ⟨-, hnone⟩ := it.next_cases
    · rw [hmarks, hindex] at hmark' hbefore'
      refine ⟨m, n, it, it', hm, hn, hmark, hmark', fun c hc hmarked => ?_⟩
      rcases Nat.lt_trichotomy c m with hlow | heq | hhigh
      · exact absurd hmarked (hbefore c hlow)
      · exact heq
      · refine absurd hmarked ?_
        have := hbefore' (c - (m + 1)) (by omega)
        rwa [Nat.add_sub_cancel' (by omega)] at this
    · rw [hmarks, hindex] at hnone
      exact absurd hsecond (hnone b (by omega))
  · exact absurd hfirst (hnone _ (Nat.zero_le _))

/-- A marker with at most one CPU marked: `next` finds it, and nothing after it. -/
theorem next_of_le_one {marks : List Bool} (h : (marked marks).length ≤ 1) :
    (∃ m it, (CpuMarkerIter.ofMarks marks).next = (some m, it) ∧ marked marks = [m] ∧
      ∀ c, it.index ≤ c → ¬ Marked it.marks c) ∨
    (marked marks = [] ∧ ∀ c, ¬ Marked marks c) := by
  obtain ⟨m, it, hm, hmarks, hindex, hmark, -⟩ | ⟨-, hnone⟩ :=
    (CpuMarkerIter.ofMarks marks).next_cases
  · simp only [CpuMarkerIter.ofMarks, zero_add] at hmarks hmark
    obtain ⟨m', hsingle⟩ := List.length_eq_one_iff.1
      (h.antisymm (List.length_pos_of_mem (mem_marked.2 hmark)))
    have honly : ∀ c, Marked marks c → c = m' := by
      intro c hc
      have := mem_marked.2 hc
      rwa [hsingle, List.mem_singleton] at this
    obtain rfl := honly m hmark
    refine .inl ⟨m, it, hm, hsingle, fun c hc hmarked => ?_⟩
    rw [hmarks] at hmarked
    have := honly c hmarked
    omega
  · have hno : ∀ c, ¬ Marked marks c := fun c => hnone c (Nat.zero_le c)
    exact .inr ⟨List.eq_nil_iff_forall_not_mem.2 fun c hc => hno c (mem_marked.1 hc), hno⟩

theorem yields_iff (marks : List Bool) :
    (CpuMarkerIter.ofMarks marks).Yields marks ↔ (marked marks).length ≤ 1 := by
  constructor
  · intro hyields
    by_contra hlen
    obtain ⟨m, n, it, it', hm, hn, -, hmark, honly⟩ := two_marked (not_le.1 hlen)
    -- the second answer is the distance from the first mark, below the second mark
    have hsecond := hyields 1
    rw [CpuMarkerIter.nth, CpuMarkerIter.nth, hm, hn, List.getElem?_eq_getElem (not_le.1 hlen)] at hsecond
    have hfirst := hyields 0
    rw [CpuMarkerIter.nth, hm, List.getElem?_eq_getElem (by omega)] at hfirst
    have hlt := List.pairwise_iff_getElem.1 (marked_sorted marks) 0 1 (by omega) (not_le.1 hlen)
      Nat.zero_lt_one
    have hnm : Marked marks n := by
      rw [Option.some.inj hsecond]
      exact mem_marked.1 (List.getElem_mem _)
    rw [← Option.some.inj hsecond, ← Option.some.inj hfirst, honly n (by omega) hnm] at hlt
    exact lt_irrefl m hlt
  · intro hlen k
    obtain ⟨m, it, hm, hsingle, hahead⟩ | ⟨hempty, hno⟩ := next_of_le_one hlen
    · rw [hsingle]
      cases k with
      | zero => rw [CpuMarkerIter.nth, hm]; rfl
      | succ k =>
        rw [CpuMarkerIter.nth, hm, CpuMarkerIter.nth_of_none hahead]
        rfl
    · rw [hempty, CpuMarkerIter.nth_of_none fun c _ => hno c]
      rfl

/-- **`iter` yields the marked CPUs exactly where at most one is marked, and `iter_clear` yields them
and leaves none marked exactly where none is.** -/
theorem iter_iff (self : CpuMarker) :
    (self.iter.Yields self.marks ↔ (marked self.marks).length ≤ 1) ∧
      (self.iterClear.1.Yields self.marks ∧ marked self.iterClear.2.marks = [] ↔
        marked self.marks = []) := by
  refine ⟨yields_iff self.marks, And.right, fun hempty => ⟨(yields_iff self.marks).2 ?_, hempty⟩⟩
  rw [hempty]
  exact Nat.zero_le 1

/-- CPUs 0 and 1 marked: the iterator answers 0 for ever, and `iter_clear` leaves both marked. -/
theorem iter_repeats :
    (∀ k, (CpuMarker.mk [true, true]).iter.nth k = some 0) ∧
      ¬ (CpuMarker.mk [true, true]).iter.Yields [true, true] ∧
      marked (CpuMarker.mk [true, true]).iterClear.2.marks = [0, 1] := by
  have hloop : ∀ k, (CpuMarkerIter.mk [true, true] 1 (by decide)).nth k = some 0 := by
    intro k
    induction k with
    | zero => rfl
    | succ k ih => exact ih
  have hrepeat : ∀ k, (CpuMarker.mk [true, true]).iter.nth k = some 0
    | 0 => rfl
    | k + 1 => hloop k
  refine ⟨hrepeat, fun hyields => ?_, by decide⟩
  have hsecond := hyields 1
  rw [hrepeat 1] at hsecond
  exact absurd hsecond (by decide)

/-! ### `Process::terminate` -/

structure Process where
  pid : ℕ
  alive : Bool
  cpusRunning : CpuMarker

/-- How `terminate` ends: the CPUs that process exit IPIs were sent to, and whether it reschedules its
own CPU; or a panic. -/
inductive Exit
  | exited (sent : List ℕ) (selfSwitch : Bool)
  | panicked

/-- The loop over `iter_clear`, with the CPUs that IPIs were sent to. -/
def terminateLoop (lapicIds : ℕ → Option UInt8) (prid : ℕ) :
    ℕ → CpuMarkerIter → List ℕ → Option Exit
  | 0, _, _ => none
  | fuel + 1, it, sent =>
    match it.next with
    | (none, _) => some (.exited sent false)
    | (some procId, it') =>
      if procId = prid then some (.exited sent true)
      else
        match lapicIds procId with
        | none => some .panicked
        | some _ => terminateLoop lapicIds prid fuel it' (sent ++ [procId])

/-- `terminate`, on the CPU `prid`: the process list without the process, the process, and how the loop
ends. -/
def Process.terminate (self : Process) (procList : List ℕ) (lapicIds : ℕ → Option UInt8) (prid : ℕ)
    (fuel : ℕ) : Option (List ℕ × Process × Exit) :=
  let (it, cpusRunning) := self.cpusRunning.iterClear
  (terminateLoop lapicIds prid fuel it []).map fun exit =>
    (procList.erase self.pid, { self with alive := false, cpusRunning }, exit)

/-- One process exit IPI to every other marked CPU and none to an unmarked one, and the own CPU is
rescheduled exactly if it is marked. -/
def Exit.Right (marks : List Bool) (prid : ℕ) : Exit → Prop
  | .exited sent selfSwitch =>
      (∀ c, sent.count c = if c ≠ prid ∧ Marked marks c then 1 else 0) ∧
        (selfSwitch = true ↔ Marked marks prid)
  | .panicked => False

/-- What was sent stays sent. -/
theorem sent_extends {lapicIds : ℕ → Option UInt8} {prid fuel : ℕ} {it : CpuMarkerIter}
    {sent out : List ℕ} {selfSwitch : Bool}
    (h : terminateLoop lapicIds prid fuel it sent = some (.exited out selfSwitch)) : sent <+: out := by
  induction fuel generalizing it sent with
  | zero => cases h
  | succ fuel ih =>
    rw [terminateLoop] at h
    split at h
    · cases h
      exact List.prefix_rfl
    · split_ifs at h
      · cases h
        exact List.prefix_rfl
      · split at h
        · cases h
        · exact (List.prefix_append _ _).trans (ih h)

theorem terminateLoop_none {lapicIds : ℕ → Option UInt8} {prid fuel : ℕ} {it it' : CpuMarkerIter}
    {sent : List ℕ} (h : it.next = (none, it')) :
    terminateLoop lapicIds prid (fuel + 1) it sent = some (.exited sent false) := by
  rw [terminateLoop, h]

theorem terminateLoop_self {lapicIds : ℕ → Option UInt8} {prid fuel : ℕ} {it it' : CpuMarkerIter}
    {sent : List ℕ} (h : it.next = (some prid, it')) :
    terminateLoop lapicIds prid (fuel + 1) it sent = some (.exited sent true) := by
  rw [terminateLoop, h]
  exact if_pos rfl

/-- The turn for another CPU panics, or goes on after an IPI to it. -/
theorem terminateLoop_other {prid procId : ℕ} {it it' : CpuMarkerIter} (lapicIds : ℕ → Option UInt8)
    (fuel : ℕ) (sent : List ℕ) (h : it.next = (some procId, it')) (hne : procId ≠ prid) :
    (lapicIds procId = none ∧
      terminateLoop lapicIds prid (fuel + 1) it sent = some .panicked) ∨
    ((lapicIds procId).isSome ∧ terminateLoop lapicIds prid (fuel + 1) it sent =
      terminateLoop lapicIds prid fuel it' (sent ++ [procId])) := by
  simp only [terminateLoop, h, if_neg hne]
  cases lapicIds procId with
  | none => exact .inl ⟨rfl, rfl⟩
  | some id => exact .inr ⟨rfl, rfl⟩

/-- With two CPUs marked, no way in which `terminate` ends is right. -/
theorem not_right_of_two {marks : List Bool} (h : 1 < (marked marks).length)
    {lapicIds : ℕ → Option UInt8} {prid fuel : ℕ} {exit : Exit}
    (he : terminateLoop lapicIds prid fuel (.ofMarks marks) [] = some exit) : ¬ exit.Right marks prid := by
  intro hright
  cases exit with
  | panicked => exact hright
  | exited sent selfSwitch =>
    obtain ⟨m, n, it, it', hm, hn, hmark, hmark', honly⟩ := two_marked h
    have hsent : ∀ c, c ≠ prid → Marked marks c → sent.count c = 1 := fun c hne hc =>
      (hright.1 c).trans (if_pos ⟨hne, hc⟩)
    obtain _ | fuel := fuel
    · cases he
    by_cases hself : m = prid
    · -- the loop stops at its own CPU, before the second mark
      rw [terminateLoop_self (hself ▸ hm)] at he
      cases he
      exact absurd (hsent (m + 1 + n) (by omega) hmark') (by simp)
    · obtain ⟨-, hpanic⟩ | ⟨-, hnext⟩ :=
        terminateLoop_other lapicIds fuel [] hm hself
      · rw [hpanic] at he
        cases he
      · rw [hnext] at he
        obtain _ | fuel := fuel
        · cases he
        by_cases hself' : n = prid
        · -- the second answer is its own number, and the second mark is not reached
          rw [terminateLoop_self (hself' ▸ hn)] at he
          cases he
          have hzero : ([] ++ [m] : List ℕ).count (m + 1 + n) = 0 := by
            rw [List.count_eq_zero, List.nil_append, List.mem_singleton]
            omega
          rw [hsent (m + 1 + n) (by omega) hmark'] at hzero
          cases hzero
        · obtain ⟨-, hpanic⟩ | ⟨-, hnext'⟩ :=
            terminateLoop_other lapicIds fuel ([] ++ [m]) hn hself'
          · rw [hpanic] at he
            cases he
          · -- the second IPI goes to an unmarked CPU, or to the first one again
            rw [hnext'] at he
            have hcount := (sent_extends he).sublist.count_le n
            rw [hright.1 n] at hcount
            by_cases hnm : Marked marks n
            · obtain rfl := honly n (by omega) hnm
              simp [hself, hnm] at hcount
            · have hmem : 0 < ([] ++ [m] ++ [n]).count n :=
                List.count_pos_iff.2 (List.mem_append_right _ (List.mem_singleton_self n))
              rw [if_neg fun hc => hnm hc.2] at hcount
              omega

/-- With at most one CPU marked, `terminate` ends as it should. -/
theorem right_of_le_one {marks : List Bool} (h : (marked marks).length ≤ 1)
    {lapicIds : ℕ → Option UInt8} (hids : ∀ c, Marked marks c → (lapicIds c).isSome) (prid : ℕ) :
    ∃ exit, terminateLoop lapicIds prid 2 (.ofMarks marks) [] = some exit ∧ exit.Right marks prid := by
  obtain ⟨m, it, hm, hsingle, hahead⟩ | ⟨-, hno⟩ := next_of_le_one h
  · have hmarked : ∀ c, Marked marks c ↔ c = m := by
      intro c
      rw [← mem_marked, hsingle, List.mem_singleton]
    by_cases hself : m = prid
    · subst hself
      refine ⟨_, terminateLoop_self hm, fun c => ?_, by simp [hmarked]⟩
      rw [List.count_nil, if_neg fun hc => hc.1 ((hmarked c).1 hc.2)]
    · obtain ⟨hnone, -⟩ | ⟨-, hnext⟩ :=
        terminateLoop_other lapicIds 1 [] hm hself
      · have := hids m ((hmarked m).2 rfl)
        rw [hnone] at this
        cases this
      · have hend : it.next = (none, it) := by
          obtain ⟨i, it', -, -, -, hmark, -⟩ | ⟨hend, -⟩ := it.next_cases
          · exact absurd hmark (hahead _ (Nat.le_add_right _ _))
          · exact hend
        refine ⟨_, hnext.trans (terminateLoop_none hend), fun c => ?_, ?_⟩
        · rw [List.nil_append, List.count_singleton]
          by_cases hc : c = m
          · subst hc
            simp [hself, hmarked]
          · simp [hc, Ne.symm hc, hmarked]
        · simp [hmarked, Ne.symm hself]
  · have hend : ∃ it', (CpuMarkerIter.ofMarks marks).next = (none, it') := by
      obtain ⟨i, it', -, -, -, hmark, -⟩ | ⟨hend, -⟩ := (CpuMarkerIter.ofMarks marks).next_cases
      · exact absurd hmark (hno _)
      · exact ⟨_, hend⟩
    obtain ⟨it', hend⟩ := hend
    refine ⟨_, terminateLoop_none hend, fun c => ?_, by simp [hno]⟩
    rw [List.count_nil, if_neg fun hc => hno c hc.2]

/-- **`terminate` reaches the other marked CPUs, and its own, exactly where at most one CPU is
marked**, every marked CPU having a local APIC id. -/
theorem terminate_iff (self : Process) (procList : List ℕ) (lapicIds : ℕ → Option UInt8) (prid : ℕ)
    (hids : ∀ c, Marked self.cpusRunning.marks c → (lapicIds c).isSome) :
    (∃ fuel out, self.terminate procList lapicIds prid fuel = some out ∧
        out.2.2.Right self.cpusRunning.marks prid) ↔
      (marked self.cpusRunning.marks).length ≤ 1 := by
  constructor
  · rintro ⟨fuel, out, hout, hright⟩
    by_contra hlen
    obtain ⟨exit, he, rfl⟩ := Option.map_eq_some_iff.1 hout
    exact not_right_of_two (not_le.1 hlen) he hright
  · intro hlen
    obtain ⟨exit, he, hright⟩ := right_of_le_one hlen hids prid
    exact ⟨2, _, Option.map_eq_some_iff.2 ⟨exit, he, rfl⟩, hright⟩

theorem terminate_iff_one :
    (∃ fuel out, (Process.mk 7 true ⟨[false, true, false]⟩).terminate [7]
        (fun _ => some 0) 0 fuel = some out ∧ out.2.2.Right [false, true, false] 0) ↔
      (marked [false, true, false]).length ≤ 1 :=
  terminate_iff _ _ _ _ fun _ _ => rfl

/-- CPUs 0 and 1 marked, `terminate` on CPU 2: it sends IPIs to CPU 0 for ever. -/
theorem terminate_repeats :
    (∀ fuel, (Process.mk 7 true ⟨[true, true, false]⟩).terminate [7] (fun _ => some 0) 2 fuel = none) ∧
      ¬ ∃ fuel out, (Process.mk 7 true ⟨[true, true, false]⟩).terminate [7] (fun _ => some 0) 2 fuel
        = some out ∧ out.2.2.Right [true, true, false] 2 := by
  have hloop : ∀ fuel sent, terminateLoop (fun _ => some 0) 2 fuel
      ⟨[true, true, false], 1, by decide⟩ sent = none := by
    intro fuel
    induction fuel with
    | zero => exact fun _ => rfl
    | succ fuel ih => exact fun sent => ih (sent ++ [0])
  have hnone : ∀ fuel, (Process.mk 7 true ⟨[true, true, false]⟩).terminate [7] (fun _ => some 0) 2 fuel
      = none
    | 0 => rfl
    | fuel + 1 => congrArg (Option.map _) (hloop fuel [0])
  refine ⟨hnone, fun ⟨fuel, out, hout, _⟩ => ?_⟩
  rw [hnone fuel] at hout
  cases hout

end AuroraOs.Marks
