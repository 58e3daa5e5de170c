import AuroraOs.Mem.ZoneManagerRun

/-!
# Allocations at an address

`alloc_at` and `oalloc_at` of the zone manager look for the zone of the address in all slots of `zones`,
those that are not taken too, and unwrap each one that they pass.  So an address of no zone is answered
with `None` only where every slot is taken.
-/

namespace AuroraOs

open Machine BuddyAllocator

namespace ZoneManager

variable {L : NodeLayout} {m : ZoneManager} {addr : ℕ} {z : Zone} {i : ℕ}
  {f : BuddyAllocator → Option (BuddyAllocator × Option Allocation)}

/-- Some zone contains the address. -/
def Contains (m : ZoneManager) (addr : ℕ) : Prop := ∃ z ∈ m.zones, z.allocer.containsAddr addr = true

instance (m : ZoneManager) (addr : ℕ) : Decidable (Contains m addr) :=
  inferInstanceAs (Decidable (∃ z ∈ m.zones, _))

/-- The search returns before it comes to a slot that is not taken. -/
def EndsInTime (m : ZoneManager) (addr : ℕ) : Prop := Contains m addr ∨ MAX_ZONES ≤ m.zones.length

instance (m : ZoneManager) (addr : ℕ) : Decidable (EndsInTime m addr) :=
  inferInstanceAs (Decidable (_ ∨ _))

/-- A call for an address returns: `None`, with nothing changed, if no zone contains it, and otherwise what
the zone that contains it returns. -/
def Answered (L : NodeLayout) (m : ZoneManager) (addr : ℕ)
    (f : BuddyAllocator → Option (BuddyAllocator × Option Allocation)) : Prop :=
  ∃ m' out, m.allocerActionContains L addr f = some (m', out) ∧
    (¬ Contains m addr → m' = m ∧ out = none) ∧
    (Contains m addr → ∃ i z z', m.zones[i]? = some z ∧ z.allocer.containsAddr addr = true ∧
      z.ask L f = some (z', out.map ZoneAllocation.mem) ∧ m'.zones = m.zones.set i z')

theorem zoneAt_eq_none_iff : m.zoneAt addr = none ↔ ¬ Contains m addr := by
  rw [zoneAt, List.find?_eq_none]
  constructor
  · rintro h ⟨z, hz, hin⟩
    obtain ⟨i, hi, rfl⟩ := List.getElem_of_mem hz
    exact h (m.zones[i], i) (List.mem_zipIdx_iff_getElem?.2 (List.getElem?_eq_getElem hi)) hin
  · intro h zi hzi hin
    exact h ⟨zi.1, List.mem_of_getElem? (List.mem_zipIdx_iff_getElem?.1 hzi), hin⟩

/-- A call is answered exactly when the search ends in time and the zone that it finds does not panic. -/
theorem answered_iff : Answered L m addr f ↔
    EndsInTime m addr ∧ ∀ zi ∈ m.zoneAt addr, (zi.1.ask L f).isSome := by
  unfold Answered allocerActionContains EndsInTime
  cases hat : m.zoneAt addr with
  | none =>
    have hno := zoneAt_eq_none_iff.1 hat
    constructor
    · rintro ⟨m', out, he, -⟩
      split_ifs at he with hlt
      exact ⟨Or.inr (not_lt.1 hlt), fun _ h => nomatch h⟩
    · rintro ⟨hend, -⟩
      have hfull := hend.resolve_left hno
      exact ⟨m, none, if_neg hfull.not_gt, fun _ => ⟨rfl, rfl⟩, fun h => absurd h hno⟩
  | some zi =>
    obtain ⟨z, i⟩ := zi
    obtain ⟨hz, hin⟩ := PhysMem.zoneAt_spec hat
    have hyes : Contains m addr := ⟨z, List.mem_of_getElem? hz, hin⟩
    constructor
    · rintro ⟨m', out, he, -⟩
      obtain ⟨r, hask, -⟩ := Option.bind_eq_some_iff.1 he
      refine ⟨Or.inl hyes, fun zi hzi => ?_⟩
      rw [← Option.some.inj hzi, hask]
      rfl
    · rintro ⟨-, hask⟩
      obtain ⟨⟨z', out⟩, hask⟩ := Option.isSome_iff_exists.1 (hask (z, i) rfl)
      refine ⟨{ m with zones := m.zones.set i z' }, out.map fun mem => ⟨mem, 0⟩, ?_,
        fun hno => absurd hyes hno, fun _ => ⟨i, z, z', hz, hin, ?_, rfl⟩⟩
      · simp only [hask, Option.bind_eq_bind, Option.bind_some]
      · rw [hask, Option.map_map]
        simp only [Function.comp_def, Option.map_id']

end ZoneManager

namespace PhysMem

open ZoneManager

variable {L : NodeLayout} {A : AlignVirt} {regions : List UsableMem} {m : ZoneManager} {s : PhysMem}
  {bs : List BuddyAllocator}

/-- The zone that contains the address does not panic if the block is found there. -/
theorem Inv.answered_oallocAt (h : Inv bs s) {addr order : ℕ}
    (hf : ∀ zi ∈ s.manager.zoneAt addr, zi.1.Found addr order) :
    Answered L s.manager addr (fun allocer => allocer.oallocAt addr order) ↔
      EndsInTime s.manager addr := by
  rw [answered_iff, and_iff_left]
  intro zi hzi
  obtain ⟨b, hb⟩ := h.zone (zoneAt_spec hzi).1
  obtain ⟨z', out, hask, -⟩ := hb.answers_oallocAt (L := L) (hf zi hzi)
  rw [hask]
  rfl

theorem Inv.answered_allocAt (h : Inv bs s) {addr size : ℕ}
    (hf : size ≠ 0 → ∀ zi ∈ s.manager.zoneAt addr, zi.1.Found addr (zi.1.allocer.getOrder size)) :
    Answered L s.manager addr (fun allocer => allocer.allocAt addr size) ↔
      EndsInTime s.manager addr := by
  rw [answered_iff, and_iff_left]
  intro zi hzi
  obtain ⟨b, hb⟩ := h.zone (zoneAt_spec hzi).1
  obtain ⟨z', out, hask, -⟩ := hb.answers_allocAt (L := L) fun h0 => hf h0 zi hzi
  rw [hask]
  rfl

/-- **`alloc_at` and `oalloc_at` return** in any state of a run exactly when a zone contains the address or
every slot is taken, and the zone that is asked does not panic.  Where the zones keep their invariant, it
does not if the block is found in it; and no two zones contain the address if the regions are apart. -/
theorem run_answered_iff (hpos : regions ≠ []) (hinit : init A regions = some m) (ops : List ManagerOp)
    (hrun : run (step L) ⟨m, []⟩ ops = some s) (addr : ℕ) :
    (∀ f, Answered L s.manager addr f ↔
      EndsInTime s.manager addr ∧ ∀ zi ∈ s.manager.zoneAt addr, (zi.1.ask L f).isSome) ∧
    (Along (step L) Legal ⟨m, []⟩ ops → Along (step L) Guarded ⟨m, []⟩ ops →
      (∀ order, (∀ zi ∈ s.manager.zoneAt addr, zi.1.Found addr order) →
        (Answered L s.manager addr (fun allocer => allocer.oallocAt addr order) ↔
          EndsInTime s.manager addr)) ∧
      (∀ size,
        (size ≠ 0 → ∀ zi ∈ s.manager.zoneAt addr, zi.1.Found addr (zi.1.allocer.getOrder size)) →
        (Answered L s.manager addr (fun allocer => allocer.allocAt addr size) ↔
          EndsInTime s.manager addr)) ∧
      (Apart regions → ∀ (i j : ℕ) (z z' : Zone), s.manager.zones[i]? = some z →
        s.manager.zones[j]? = some z' → z.allocer.containsAddr addr = true →
        z'.allocer.containsAddr addr = true → i = j)) := by
  refine ⟨fun f => answered_iff, fun hlegal hc => ?_⟩
  have h : Inv (m.zones.map Zone.allocer) s :=
    run_keeps _ (fun s op s' h hop he => step_inv h hop.1 hop.2 he) (inv_init hpos hinit)
      (hlegal.and hc) hrun
  exact ⟨fun order hf => h.answered_oallocAt hf, fun size hf => h.answered_allocAt hf,
    fun hapart i j z z' hz hz' hin hin' => h.zone_unique hinit hapart hz hz' hin hin'⟩

/-- Two of the four slots are taken, and the address is in no zone. -/
theorem run_answered_fails :
    ∃ m, twoZones = some m ∧ ¬ Contains m 0x1000 ∧
      m.oallocAt Zone.pageLayout 0x1000 0 = none ∧
      ¬ Answered Zone.pageLayout m 0x1000 fun allocer => allocer.oallocAt 0x1000 0 := by
  have hsome : twoZones.isSome := by decide +kernel
  obtain ⟨m, hm⟩ := Option.isSome_iff_exists.1 hsome
  have hall : ∀ m ∈ twoZones, ¬ Contains m 0x1000 ∧ m.zones.length = 2 := by decide +kernel
  obtain ⟨hno, hlen⟩ := hall m hm
  have hend : ¬ EndsInTime m 0x1000 := by
    rintro (hin | hfull)
    · exact hno hin
    · rw [hlen] at hfull
      exact absurd hfull (by decide)
  refine ⟨m, hm, hno, ?_, fun h => hend (answered_iff.1 h).1⟩
  rw [ZoneManager.oallocAt, ZoneManager.allocerActionContains, zoneAt_eq_none_iff.2 hno, hlen]
  rfl

/-- An address in the second zone. -/
theorem run_answered_iff_second :
    ∃ m s, twoZones = some m ∧ run (step Zone.pageLayout) ⟨m, []⟩ [.oalloc 0] = some s ∧
      EndsInTime s.manager 0x14000 ∧
      (Answered Zone.pageLayout s.manager 0x14000 (fun allocer => allocer.oallocAt 0x14000 0) ↔
        EndsInTime s.manager 0x14000) := by
  have hsome : twoZones.isSome := by decide +kernel
  obtain ⟨m, hm⟩ := Option.isSome_iff_exists.1 hsome
  have hall : ∀ m ∈ twoZones, Along (step Zone.pageLayout) Legal ⟨m, []⟩ [.oalloc 0] ∧
      Along (step Zone.pageLayout) Guarded ⟨m, []⟩ [.oalloc 0] ∧
      (run (step Zone.pageLayout) ⟨m, []⟩ [.oalloc 0]).isSome ∧
      ∀ s ∈ run (step Zone.pageLayout) ⟨m, []⟩ [.oalloc 0], EndsInTime s.manager 0x14000 ∧
        ∀ zi ∈ s.manager.zoneAt 0x14000, zi.1.Found 0x14000 0 := by decide +kernel
  obtain ⟨hlegal, hc, hsome', hends⟩ := hall m hm
  obtain ⟨s, hs⟩ := Option.isSome_iff_exists.1 hsome'
  obtain ⟨hend, hf⟩ := hends s hs
  exact ⟨m, s, hm, hs, hend,
    ((run_answered_iff (by simp) hm [.oalloc 0] hs 0x14000).2 hlegal hc).1 0 hf⟩

end PhysMem
end AuroraOs
