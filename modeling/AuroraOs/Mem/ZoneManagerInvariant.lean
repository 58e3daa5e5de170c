import AuroraOs.Mem.ZoneManager

/-!
# The invariant of the zone manager

Each call changes at most one zone, by a call to its allocator; what callers hold is live in the zone
of its index.  Two calls do not keep this up by themselves: `alloc_at` and `oalloc_at` leave `zindex`
at 0, so they must be served by the first zone.
-/

namespace AuroraOs

open Blocks Machine BuddyAllocator RoundRobin

/-! ### One zone -/

namespace Zone

variable {L : NodeLayout} {b : BuddyAllocator} {z z' : Zone} {mem : Allocation} {order : ℕ}
  {f : BuddyAllocator → Option (BuddyAllocator × Option Allocation)}

/-- A live allocation is on the list once. -/
theorem Inv.live_nodup (h : Inv b z) : z.live.Nodup := by
  obtain ⟨⟨seqs, h₁⟩, -⟩ := h
  have hpair := (List.pairwise_append.1 (packed_iff_pairwise.1 h₁.core.tiles.packed)).2.1
  refine hpair.imp_of_mem ?_
  rintro a c ha - hd rfl
  obtain ⟨-, -, hpos, -⟩ := h₁.live_mem ha
  exact hd a.addr ⟨le_rfl, by omega⟩ ⟨le_rfl, by omega⟩

/-- A call that hands out a block of the zone, or leaves the zone as it is. -/
def Answers (L : NodeLayout) (f : BuddyAllocator → Option (BuddyAllocator × Option Allocation))
    (z : Zone) : Prop :=
  ∃ z' out, z.ask L f = some (z', out) ∧ z'.live = out.toList ++ z.live ∧
    (∀ b, Inv b z → Inv b z') ∧ (out = none → z' = z)

theorem answers_of_spec (h : ∃ b' seqs' out, f z.allocer = some (b', out) ∧
    BuddyAllocator.Inv b' seqs' (out.toList ++ z.live) ∧ Same z.allocer b' ∧
      (out = none → b' = z.allocer)) : Answers L f z := by
  obtain ⟨b', seqs', out, he, h', hsame, hnone⟩ := h
  cases out with
  | none =>
    obtain rfl := hnone rfl
    exact ⟨z, none, by simp [ask, he], rfl, fun _ h => h, fun _ => rfl⟩
  | some a =>
    refine ⟨z.allocated L (b', some a), some a, by simp [ask, he], rfl, fun b h => ?_, by simp⟩
    exact h.allocated h' hsame

theorem Inv.answers_oalloc (h : Inv b z) (order : ℕ) :
    Answers L (fun allocer => allocer.oalloc order) z := by
  obtain ⟨⟨seqs, h₁⟩, -⟩ := h
  obtain ⟨b', seqs', out, he, h', hsame, -, -, hnone, -⟩ := oalloc_spec h₁ order
  exact answers_of_spec ⟨b', seqs', out, he, h', hsame, fun hout => (hnone hout).1⟩

theorem Inv.answers_oallocAt (h : Inv b z) {addr : ℕ} (hf : Found z addr order) :
    Answers L (fun allocer => allocer.oallocAt addr order) z := by
  obtain ⟨⟨seqs, h₁⟩, -, hl⟩ := h
  obtain ⟨b', seqs', out, he, h', hsame, -, hnone, -⟩ := oallocAt_spec h₁ hl hf
  exact answers_of_spec ⟨b', seqs', out, he, h', hsame, hnone⟩

theorem answers_none : Answers L (fun allocer => some (allocer, none)) z :=
  ⟨z, none, rfl, rfl, fun _ h => h, fun _ => rfl⟩

theorem Inv.answers_alloc (h : Inv b z) (size : ℕ) :
    Answers L (fun allocer => allocer.alloc size) z := by
  unfold Answers ask alloc
  split_ifs
  · exact answers_none
  · exact h.answers_oalloc _

theorem Inv.answers_allocAt (h : Inv b z) {addr size : ℕ}
    (hf : size ≠ 0 → Found z addr (z.allocer.getOrder size)) :
    Answers L (fun allocer => allocer.allocAt addr size) z := by
  unfold Answers ask allocAt
  split_ifs with h0
  · exact answers_none
  · exact h.answers_oallocAt (hf h0)

/-! ### Reallocation in one zone -/

/-- A reallocation that leaves the block with its bytes, or the zone as it is when the zone has no
other block to give. -/
def Reallocates (L : NodeLayout) (g : Zone → Option (BuddyAllocator × Bytes × Option Allocation))
    (f : BuddyAllocator → Option (BuddyAllocator × Option Allocation)) (z : Zone)
    (mem : Allocation) : Prop :=
  ∃ r, g z = some r ∧ (∀ b, Inv b z → Inv b (z.reallocated mem r)) ∧
    (r.2.2 = none → z.reallocated mem r = z ∧ z.ask L f = some (z, none)) ∧
    ∀ out ∈ r.2.2, ∀ i < min mem.size out.size, r.2.1 (out.addr + i) = z.bytes (mem.addr + i)

theorem ask_eq_none_iff : z.ask L f = some (z, none) ↔ f z.allocer = some (z.allocer, none) := by
  unfold ask
  constructor
  · intro h
    obtain ⟨⟨b', out⟩, he, ho⟩ := Option.map_eq_some_iff.1 h
    cases out with
    | none =>
      simp only [Prod.mk.injEq, and_true] at ho
      rw [he, ← ho]
    | some a => simp at ho
  · intro h
    rw [h]
    rfl

theorem Inv.reallocates_orealloc (h : Inv b z) (hmem : mem ∈ z.live) (hr : Room z mem order) :
    Reallocates L (fun z => z.allocer.orealloc L z.bytes mem order)
      (fun allocer => allocer.oalloc order) z mem := by
  obtain ⟨⟨seqs, h₁⟩, -⟩ := h
  have h₂ := h₁.perm (List.perm_cons_erase hmem)
  obtain ⟨b', bytes', out, he, hnone, hsome⟩ := orealloc_spec L z.bytes h₂ hr
  refine ⟨_, he, fun b h => ?_, fun hout => ?_, fun a ha => (hsome a ha).2.2.kept⟩
  · obtain ⟨r, he', hr'⟩ := h.orealloc (L := L) hmem hr
    rw [he] at he'
    rwa [Option.some.inj he']
  · obtain rfl : out = none := hout
    obtain ⟨rfl, rfl⟩ := hnone rfl
    have hno : NoBlock z.allocer order := by
      by_contra hblock
      exact (orealloc_none_iff h₂ he).1 rfl (Or.inr (Or.inr hblock))
    exact ⟨rfl, ask_eq_none_iff.2 (h₂.noBlock_iff.1 hno)⟩

theorem Inv.reallocates_realloc (h : Inv b z) (hmem : mem ∈ z.live) {size : ℕ}
    (hr : Room z mem (z.allocer.getOrder size)) :
    Reallocates L (fun z => z.allocer.realloc L z.bytes mem size)
      (fun allocer => allocer.alloc size) z mem := by
  unfold Reallocates ask realloc alloc
  split_ifs
  · exact ⟨_, rfl, fun _ h => h, fun _ => ⟨rfl, rfl⟩, by simp⟩
  · exact h.reallocates_orealloc hmem hr

end Zone

/-! ### Picking a zone -/

namespace ZoneManager

variable {L : NodeLayout} {m m' : ZoneManager} {zones : List Zone} {bs : List BuddyAllocator}
  {f : BuddyAllocator → Option (BuddyAllocator × Option Allocation)}

/-- The loop of `allocer_action` is one round over the zones. -/
theorem allocerLoop_eq {n start k : ℕ} (hn : zones.length = n) (hstart : start < n) (hk : k ≤ n) :
    allocerLoop L f start (n - k + 1) zones ((start + k) % n) (decide (k = 0)) =
      (search (Zone.ask L f) ((cycle n start).drop k) zones).map fun r =>
        (r.1, r.2.1, r.2.2.map fun a => ⟨a.2, a.1⟩) := by
  -- induction on what is left of the round
  induction hj : n - k generalizing k zones with
  | zero =>
    obtain rfl : k = n := by omega
    have hback : (start + k) % k = start := by
      rw [Nat.add_mod_right, Nat.mod_eq_of_lt hstart]
    have hdrop : (cycle k start).drop k = [] := List.drop_eq_nil_of_le (by simp [cycle])
    rw [allocerLoop, hback, hdrop, if_neg (by simp; omega)]
    rfl
  | succ j ih =>
    have hlt : k < n := by omega
    have hlen : k < (cycle n start).length := by simpa [cycle] using hlt
    have hcycle : (cycle n start)[k] = (start + k) % n := by simp [cycle]
    have hgoes : (start + k) % n ≠ start ∨ decide (k = 0) = true := by
      rcases Nat.eq_zero_or_pos k with rfl | hpos
      · exact Or.inr rfl
      · refine Or.inl fun h => ?_
        rcases Nat.lt_or_ge (start + k) n with hin | hin
        · rw [Nat.mod_eq_of_lt hin] at h
          omega
        · rw [Nat.mod_eq_sub_mod hin, Nat.mod_eq_of_lt (by omega)] at h
          omega
    rw [allocerLoop, if_pos hgoes, List.drop_eq_getElem_cons hlen, hcycle, search]
    simp only [Option.bind_eq_bind]
    cases hz : zones[(start + k) % n]? with
    | none => rfl
    | some z =>
      rw [Option.bind_some, Option.bind_some]
      cases hask : z.ask L f with
      | none => rfl
      | some r =>
        obtain ⟨z', out⟩ := r
        rw [Option.bind_some, Option.bind_some]
        cases out with
        | some a => rfl
        | none =>
          have hlen' : (zones.set ((start + k) % n) z').length = n := by simpa using hn
          have hnext := ih hlen' (show k + 1 ≤ n by omega) (by omega)
          have hmod : ((start + k) % n + 1) % n = (start + (k + 1)) % n := by
            rw [Nat.mod_add_mod, add_assoc]
          simp only [List.length_set, hn, hmod]
          rw [show decide (k + 1 = 0) = false from rfl] at hnext
          rw [hnext]
          cases search (Zone.ask L f) ((cycle n start).drop (k + 1))
            (zones.set ((start + k) % n) z') <;> rfl

/-- **`allocer_action`** tries zones at most once each.  It fails when all of them do, and changes the
one that answers. -/
theorem allocerAction_spec (hpos : m.zones ≠ []) (hf : ∀ z ∈ m.zones, Zone.Answers L f z) :
    ∃ m' tried out, m.allocerAction L f = some (m', tried, out) ∧ tried.Nodup ∧
      (∀ i ∈ tried, i < m.zones.length) ∧
      (out = none → m'.zones = m.zones ∧ ∀ z ∈ m.zones, z.ask L f = some (z, none)) ∧
      ∀ a, out = some a → ∃ z z', m.zones[a.zindex]? = some z ∧ z.ask L f = some (z', some a.mem) ∧
        m'.zones = m.zones.set a.zindex z' := by
  have hlen : 0 < m.zones.length := List.length_pos_of_ne_nil hpos
  have hpassive : Passive (Zone.ask L f) m.zones := by
    intro z hz
    obtain ⟨z', out, he, -, -, hnone⟩ := hf z hz
    exact ⟨z', out, he, hnone⟩
  obtain ⟨start, hstart⟩ : ∃ start, start = m.selnum % m.zones.length := ⟨_, rfl⟩
  have hlt : start < m.zones.length := hstart ▸ Nat.mod_lt _ hlen
  have hcycle : ∀ i ∈ cycle m.zones.length start, i < m.zones.length := fun i hi =>
    mem_cycle_iff.1 hi
  obtain ⟨zones', tried, out, he, hpre, hnone, hsome⟩ := search_spec hpassive hcycle
  have hloop := allocerLoop_eq (L := L) (f := f) rfl hlt (Nat.zero_le _)
  simp only [Nat.sub_zero, Nat.add_zero, Nat.mod_eq_of_lt hlt, List.drop_zero, he, decide_true]
    at hloop
  refine ⟨⟨zones', (m.selnum + 1) % usizeMod⟩, tried, out.map fun a => ⟨a.2, a.1⟩, ?_,
    (cycle_nodup _ start).sublist hpre.sublist, fun i hi => hcycle i (hpre.subset hi), ?_, ?_⟩
  · unfold allocerAction
    simp only [if_neg hlen.ne', ← hstart, hloop]
    rfl
  · intro hout
    obtain rfl : out = none := Option.map_eq_none_iff.1 hout
    exact ⟨(hnone rfl).1, search_cycle_none hpassive he⟩
  · intro a ha
    obtain ⟨⟨i, mem⟩, rfl, rfl⟩ := Option.map_eq_some_iff.1 ha
    exact (hsome i mem rfl).2.imp fun z hz => hz

end ZoneManager

/-! ### What a run keeps -/

namespace PhysMem

open ZoneManager

variable {L : NodeLayout} {s s' : PhysMem} {m' : ZoneManager} {bs : List BuddyAllocator} {i : ℕ}
  {z z' : Zone} {mem out : ZoneAllocation} {held : List ZoneAllocation}
  {f : BuddyAllocator → Option (BuddyAllocator × Option Allocation)}

/-- The invariant of the zones that `init` set up as `bs`: what callers hold is live in the zone of
its index. -/
structure Inv (bs : List BuddyAllocator) (s : PhysMem) : Prop where
  zones : List.Forall₂ Zone.Inv bs s.manager.zones
  nonempty : bs ≠ []
  held : ∀ mem ∈ s.held, ∃ z, s.manager.zones[mem.zindex]? = some z ∧ mem.mem ∈ z.live
  nodup : s.held.Nodup

theorem Inv.zone (h : Inv bs s) (hz : s.manager.zones[i]? = some z) : ∃ b, Zone.Inv b z := by
  obtain ⟨hi, rfl⟩ := List.getElem?_eq_some_iff.1 hz
  have hb : i < bs.length := by rwa [h.zones.length_eq]
  exact ⟨bs[i], List.forall₂_iff_get.1 h.zones |>.2 i hb hi⟩

theorem Inv.zone_of_mem (h : Inv bs s) (hz : z ∈ s.manager.zones) : ∃ b, Zone.Inv b z := by
  obtain ⟨i, hi, rfl⟩ := List.getElem_of_mem hz
  exact h.zone (List.getElem?_eq_getElem hi)

theorem Inv.live_of_zindex (h : Inv bs s) (hmem : mem ∈ s.held)
    (hz : s.manager.zones[i]? = some z) (hi : mem.zindex = i) : mem.mem ∈ z.live := by
  obtain ⟨z₁, hz₁, hin⟩ := h.held mem hmem
  rw [hi, hz] at hz₁
  rwa [Option.some.inj hz₁]

theorem Inv.zones_ne_nil (h : Inv bs s) : s.manager.zones ≠ [] := by
  intro h0
  have := h.zones.length_eq
  rw [h0, List.length_nil, List.length_eq_zero_iff] at this
  exact h.nonempty this

/-- **One zone changes.** -/
theorem Inv.set (h : Inv bs s) (hz : s.manager.zones[i]? = some z)
    (hz' : ∀ b, Zone.Inv b z → Zone.Inv b z') (hm : m'.zones = s.manager.zones.set i z')
    (hheld : ∀ a ∈ held, if a.zindex = i then a.mem ∈ z'.live else a ∈ s.held)
    (hnodup : held.Nodup) : Inv bs ⟨m', held⟩ := by
  obtain ⟨hi, rfl⟩ := List.getElem?_eq_some_iff.1 hz
  refine ⟨?_, h.nonempty, fun a ha => ?_, hnodup⟩
  · simp only [hm]
    refine List.forall₂_iff_get.2 ⟨by simpa using h.zones.length_eq, fun j hj hj' => ?_⟩
    have hold := (List.forall₂_iff_get.1 h.zones).2 j hj (by simpa using hj')
    simp only [List.get_eq_getElem, List.getElem_set] at hold ⊢
    split_ifs with hij
    · subst hij
      exact hz' _ hold
    · exact hold
  · have ha' := hheld a ha
    simp only [hm]
    split_ifs at ha' with hai
    · exact ⟨z', by rw [hai, List.getElem?_set_self hi], ha'⟩
    · rw [List.getElem?_set_ne (Ne.symm hai)]
      exact h.held a ha'

theorem Inv.same_zones (h : Inv bs s) (hm : m'.zones = s.manager.zones) : Inv bs ⟨m', s.held⟩ := by
  refine ⟨?_, h.nonempty, ?_, h.nodup⟩
  · simp only [hm]
    exact h.zones
  · simp only [hm]
    exact h.held

/-- A block is handed out. -/
theorem Inv.handedOut (h : Inv bs s) (hz : s.manager.zones[out.zindex]? = some z)
    (hz' : ∀ b, Zone.Inv b z → Zone.Inv b z') (hlive : z'.live = out.mem :: z.live)
    (hm : m'.zones = s.manager.zones.set out.zindex z') : Inv bs ⟨m', out :: s.held⟩ := by
  obtain ⟨b, hb⟩ := h.zone hz
  have hnodup := (hz' b hb).live_nodup
  rw [hlive, List.nodup_cons] at hnodup
  refine h.set hz hz' hm (fun a ha => ?_) (List.nodup_cons.2 ⟨fun hout => ?_, h.nodup⟩)
  · rcases List.mem_cons.1 ha with rfl | ha
    · rw [if_pos rfl, hlive]
      exact List.mem_cons_self
    · split_ifs with hai
      · rw [hlive]
        exact List.mem_cons_of_mem _ (h.live_of_zindex ha hz hai)
      · exact ha
  · exact hnodup.1 (h.live_of_zindex hout hz rfl)

/-- A block is taken back. -/
theorem Inv.takenBack (h : Inv bs s) (hz : s.manager.zones[mem.zindex]? = some z)
    (hz' : ∀ b, Zone.Inv b z → Zone.Inv b z') (hlive : z'.live = z.live.erase mem.mem) (hm : m'.zones = s.manager.zones.set mem.zindex z') :
    Inv bs ⟨m', s.held.erase mem⟩ := by
  refine h.set hz hz' hm (fun a ha => ?_) (h.nodup.erase mem)
  obtain ⟨hne, ha⟩ := (h.nodup.mem_erase_iff).1 ha
  split_ifs with hai
  · rw [hlive, List.mem_erase_of_ne fun heq => hne (ZoneAllocation.ext heq hai)]
    exact h.live_of_zindex ha hz hai
  · exact ha

/-- An allocation anywhere keeps the invariant. -/
theorem Inv.allocerAction (h : Inv bs s) (hf : ∀ z ∈ s.manager.zones, Zone.Answers L f z) :
    ∃ m' tried out, s.manager.allocerAction L f = some (m', tried, out) ∧
      Inv bs (s.allocated (m', out)) := by
  obtain ⟨m', tried, out, he, -, -, hnone, hsome⟩ := allocerAction_spec h.zones_ne_nil hf
  refine ⟨m', tried, out, he, ?_⟩
  cases out with
  | none => exact h.same_zones (hnone rfl).1
  | some a =>
    obtain ⟨z, z', hz, hask, hm⟩ := hsome a rfl
    obtain ⟨z₁, out₁, hask₁, hlive, hkeep, -⟩ := hf z (List.mem_of_getElem? hz)
    obtain ⟨rfl, rfl⟩ : z₁ = z' ∧ out₁ = some a.mem := by simpa using hask₁.symm.trans hask
    exact h.handedOut hz hkeep hlive hm

theorem zoneAt_spec {m : ZoneManager} {addr : ℕ} (h : m.zoneAt addr = some (z, i)) :
    m.zones[i]? = some z ∧ z.allocer.containsAddr addr = true := by
  have hcontains := List.find?_some h
  exact ⟨List.mem_zipIdx_iff_getElem?.1 (List.mem_of_find?_eq_some h), hcontains⟩

/-- An allocation at an address keeps the invariant if it is served by the first zone. -/
theorem Inv.allocerActionContains {addr : ℕ} {r : ZoneManager × Option ZoneAllocation}
    (h : Inv bs s) (hf : ∀ zi ∈ s.manager.zoneAt addr, Zone.Answers L f zi.1 ∧
      (zi.2 = 0 ∨ (f zi.1.allocer).map (·.2) = some none))
    (he : s.manager.allocerActionContains L addr f = some r) : Inv bs (s.allocated r) := by
  unfold ZoneManager.allocerActionContains at he
  cases hat : s.manager.zoneAt addr with
  | none =>
    rw [hat] at he
    split_ifs at he
    obtain rfl := Option.some.inj he
    exact h.same_zones rfl
  | some zi =>
    obtain ⟨z, i⟩ := zi
    obtain ⟨hz, -⟩ := zoneAt_spec hat
    obtain ⟨⟨z', out, hask, hlive, hkeep, hnone⟩, hfirst⟩ := hf (z, i) hat
    simp only [hat, hask, Option.bind_eq_bind, Option.bind_some, Option.some.injEq] at he
    subst he
    cases out with
    | none =>
      obtain rfl := hnone rfl
      refine h.same_zones ?_
      obtain ⟨hi, rfl⟩ := List.getElem?_eq_some_iff.1 hz
      exact List.set_getElem_self hi
    | some a =>
      have hi : i = 0 := by
        refine hfirst.resolve_right fun hfail => ?_
        obtain ⟨r, hr, hr'⟩ := Option.map_eq_some_iff.1 hfail
        obtain ⟨b, out⟩ := r
        simp only at hr'
        subst hr'
        simp [Zone.ask, hr] at hask
      subst hi
      show Inv bs ⟨_, (⟨a, 0⟩ : ZoneAllocation) :: s.held⟩
      exact h.handedOut hz hkeep hlive rfl

/-- A block takes the place of another one. -/
theorem Inv.replaced (h : Inv bs s) {new : Allocation}
    (hz : s.manager.zones[mem.zindex]? = some z) (hz' : ∀ b, Zone.Inv b z → Zone.Inv b z')
    (hlive : z'.live = new :: z.live.erase mem.mem)
    (hm : m'.zones = s.manager.zones.set mem.zindex z') :
    Inv bs ⟨m', ⟨new, mem.zindex⟩ :: s.held.erase mem⟩ := by
  obtain ⟨b, hb⟩ := h.zone hz
  have hnodup := (hz' b hb).live_nodup
  rw [hlive, List.nodup_cons] at hnodup
  have hrest : ∀ a ∈ s.held.erase mem, a.zindex = mem.zindex → a.mem ∈ z.live.erase mem.mem := by
    intro a ha hai
    obtain ⟨hne, ha⟩ := (h.nodup.mem_erase_iff).1 ha
    rw [List.mem_erase_of_ne fun heq => hne (ZoneAllocation.ext heq hai)]
    exact h.live_of_zindex ha hz hai
  refine h.set hz hz' hm (fun a ha => ?_)
    (List.nodup_cons.2 ⟨fun hin => hnodup.1 (hrest _ hin rfl), h.nodup.erase mem⟩)
  rcases List.mem_cons.1 ha with rfl | ha
  · rw [if_pos rfl, hlive]
    exact List.mem_cons_self
  · split_ifs with hai
    · rw [hlive]
      exact List.mem_cons_of_mem _ (hrest a ha hai)
    · exact List.mem_of_mem_erase ha

/-! ### Reallocation -/

theorem Inv.forget (h : Inv bs ⟨m', held⟩) {held' : List ZoneAllocation} (hs : held'.Sublist held) :
    Inv bs ⟨m', held'⟩ :=
  ⟨h.zones, h.nonempty, fun a ha => h.held a (hs.subset ha), h.nodup.sublist hs⟩

/-- A copy between two held blocks. -/
theorem Inv.copyFromMem (h : Inv bs s) (hout : out ∈ s.held) (hmem : mem ∈ s.held) :
    ∃ m' z z' src, s.manager.copyFromMem L out mem = some m' ∧ Inv bs ⟨m', s.held⟩ ∧
      s.manager.zones[mem.zindex]? = some src ∧ s.manager.zones[out.zindex]? = some z ∧
      m'.zones = s.manager.zones.set out.zindex z' ∧ z'.live = z.live ∧
      ∀ i < min mem.mem.size out.mem.size,
        z'.bytes (out.mem.addr + i) = src.bytes (mem.mem.addr + i) := by
  obtain ⟨src, hsrc, -⟩ := h.held mem hmem
  obtain ⟨z, hz, hlive⟩ := h.held out hout
  obtain ⟨bytes, hbytes⟩ : ∃ bytes : Bytes, bytes = fun x =>
      if out.mem.addr ≤ x ∧ x < out.mem.addr + min out.mem.size mem.mem.size then
        src.bytes (mem.mem.addr + (x - out.mem.addr))
      else z.bytes x := ⟨_, rfl⟩
  let z' : Zone :=
    ⟨z.allocer.reload L bytes ⟨out.mem.addr, min out.mem.size mem.mem.size⟩, z.live, bytes⟩
  refine ⟨{ s.manager with zones := s.manager.zones.set out.zindex z' }, z, z', src, ?_, ?_, hsrc, hz,
    rfl, rfl, fun i hi => ?_⟩
  · simp only [ZoneManager.copyFromMem, hsrc, hz, Option.bind_eq_bind, Option.bind_some, z', hbytes]
  · refine h.set hz (fun b hb => ?_) rfl (fun a ha => ?_) h.nodup
    · obtain ⟨⟨seqs, h₁⟩, hsame, hl⟩ := hb
      have hs : Same z.allocer z'.allocer := same_update _ _ _ _ _
      exact ⟨⟨seqs, h₁.reload hlive ⟨le_rfl, Nat.add_le_add_left (min_le_left _ _) _⟩⟩,
        hsame.trans hs, hs.largest hl⟩
    · split_ifs with hai
      · show a.mem ∈ z.live
        exact h.live_of_zindex ha hz hai
      · exact ha
  · show bytes _ = _
    simp only [hbytes]
    rw [if_pos (by omega), Nat.add_sub_cancel_left]

/-- A block is live in its zone. -/
def Live (m : ZoneManager) (a : ZoneAllocation) : Prop := ∃ z ∈ m.zones[a.zindex]?, a.mem ∈ z.live

/-- A byte of a block. -/
def byteOf (m : ZoneManager) (a : ZoneAllocation) (i : ℕ) : Option (BitVec 8) :=
  m.zones[a.zindex]?.map fun z => z.bytes (a.mem.addr + i)

/-- What a reallocation promises: the new block takes the place of the old one among all live
allocations and has its bytes; or nothing changes. -/
structure Replaces (m : ZoneManager) (mem : ZoneAllocation) (m' : ZoneManager)
    (out : Option ZoneAllocation) : Prop where
  unchanged : out = none → (∀ a, Live m' a ↔ Live m a) ∧
    ∀ i < mem.mem.size, byteOf m' mem i = byteOf m mem i
  live : ∀ new ∈ out, ∀ a, Live m' a ↔ a = new ∨ a ≠ mem ∧ Live m a
  kept : ∀ new ∈ out, ∀ i < min mem.mem.size new.mem.size, byteOf m' new i = byteOf m mem i

theorem live_set {m : ZoneManager} {a : ZoneAllocation} (hz : m.zones[i]? = some z)
    (hm : m'.zones = m.zones.set i z') :
    Live m' a ↔ if a.zindex = i then a.mem ∈ z'.live else Live m a := by
  obtain ⟨hi, -⟩ := List.getElem?_eq_some_iff.1 hz
  unfold Live
  rw [hm]
  split_ifs with hai
  · rw [hai, List.getElem?_set_self hi]
    simp
  · rw [List.getElem?_set_ne (Ne.symm hai)]

/-- The zone of the block puts a new block in its place. -/
theorem Inv.replaces_served (h : Inv bs s) (hz : s.manager.zones[mem.zindex]? = some z)
    {new : Allocation} (hlive : z'.live = new :: z.live.erase mem.mem)
    (hm : m'.zones = s.manager.zones.set mem.zindex z')
    (hkept : ∀ i < min mem.mem.size new.size, z'.bytes (new.addr + i) = z.bytes (mem.mem.addr + i)) :
    Replaces s.manager mem m' (some ⟨new, mem.zindex⟩) := by
  refine ⟨by simp, ?_, ?_⟩
  · rintro _ ⟨rfl⟩ a
    rw [live_set hz hm, hlive]
    obtain ⟨b, hb⟩ := h.zone hz
    have hnodup := hb.live_nodup
    split_ifs with hai
    · have hold : Live s.manager a ↔ a.mem ∈ z.live := by simp [Live, hai, hz]
      have hnew : a = ⟨new, mem.zindex⟩ ↔ a.mem = new :=
        ⟨fun heq => by rw [heq], fun heq => ZoneAllocation.ext heq hai⟩
      have hmem : a = mem ↔ a.mem = mem.mem :=
        ⟨fun heq => by rw [heq], fun heq => ZoneAllocation.ext heq hai⟩
      rw [List.mem_cons, hnodup.mem_erase_iff, hold, hnew, ne_eq, ne_eq, hmem]
    · have hne : a ≠ ⟨new, mem.zindex⟩ := fun heq => hai (by rw [heq])
      have hne' : a ≠ mem := fun heq => hai (by rw [heq])
      simp [hne, hne']
  · rintro _ ⟨rfl⟩ i hi
    obtain ⟨hlt, -⟩ := List.getElem?_eq_some_iff.1 hz
    simp only [byteOf, hm, List.getElem?_set_self hlt, hz, Option.map_some, Option.some.injEq]
    exact hkept i hi

/-- A block of another zone gets the bytes, and the old one is left behind. -/
theorem Inv.leftBehind {zₐ zₐ' : Zone} (h : Inv bs s) (hmem : mem ∈ s.held)
    (hz : s.manager.zones[mem.zindex]? = some z) (hzₐ : s.manager.zones[out.zindex]? = some zₐ)
    (hm : m'.zones = s.manager.zones.set out.zindex zₐ') (hother : mem.zindex ≠ out.zindex)
    (h₁ : Inv bs ⟨m', out :: s.held⟩) :
    ∃ m₂, m'.copyFromMem L out mem = some m₂ ∧ Inv bs ⟨m₂, out :: s.held.erase mem⟩ ∧
      ¬ Replaces s.manager mem m₂ (some out) := by
  obtain ⟨m₂, z₂, z₂', src, hcopy, h₂, -, hz₂, hm₂, hlive₂, -⟩ :=
    h₁.copyFromMem (L := L) List.mem_cons_self (List.mem_cons_of_mem _ hmem)
  have hleft : Live m₂ mem := by
    rw [live_set hz₂ hm₂, if_neg hother, live_set hzₐ hm, if_neg hother]
    exact ⟨z, hz, h.live_of_zindex hmem hz rfl⟩
  refine ⟨m₂, hcopy, h₂.forget (List.Sublist.cons_cons out List.erase_sublist), fun hrep => ?_⟩
  rcases (hrep.live out rfl mem).1 hleft with heq | ⟨hne, -⟩
  · exact hother (by rw [← heq])
  · exact hne rfl

/-- **`realloc` and `orealloc`** keep the invariant.  They keep their promise when the zone of the
block serves them or no zone does; what moves to another zone stays live in its own. -/
theorem reallocWith_spec {g : Zone → Option (BuddyAllocator × Bytes × Option Allocation)}
    {anywhere : ZoneManager → Option (ZoneManager × Option ZoneAllocation)} (h : Inv bs s)
    (hmem : mem ∈ s.held) (hz : s.manager.zones[mem.zindex]? = some z)
    (hg : Zone.Reallocates L g f z mem.mem) (hf : ∀ z ∈ s.manager.zones, Zone.Answers L f z)
    (hany : ∀ m, anywhere m = (m.allocerAction L f).map fun r => (r.1, r.2.2)) :
    ∃ m' out, s.manager.reallocWith L g anywhere mem = some (m', out) ∧
      Inv bs (s.reallocated mem (m', out)) ∧
      (Replaces s.manager mem m' out ↔
        (∃ r, g z = some r ∧ r.2.2.isSome) ∨ ∀ z ∈ s.manager.zones, z.ask L f = some (z, none)) := by
  obtain ⟨r, he, hkeep, hnone, hkept⟩ := hg
  unfold reallocWith
  simp only [hz, he, Option.bind_eq_bind, Option.bind_some]
  cases hr : r.2.2 with
  | some new =>
    -- the zone of the block serves the call
    have hlive : (z.reallocated mem.mem r).live = new :: z.live.erase mem.mem := by
      simp only [Zone.reallocated, hr]
    have hbytes : (z.reallocated mem.mem r).bytes = r.2.1 := by
      simp only [Zone.reallocated, hr]
    refine ⟨_, _, rfl, h.replaced hz hkeep hlive rfl,
      iff_of_true (h.replaces_served hz hlive rfl fun i hi => ?_) (Or.inl ⟨r, rfl, ?_⟩)⟩
    · rw [hbytes]
      exact hkept new (by rw [hr]; rfl) i hi
    · rw [hr]
      rfl
  | none =>
    obtain ⟨hsame, hown⟩ := hnone hr
    obtain ⟨hlt, hz'⟩ := List.getElem?_eq_some_iff.1 hz
    have hset : s.manager.zones.set mem.zindex (z.reallocated mem.mem r) = s.manager.zones := by
      rw [hsame, ← hz', List.set_getElem_self]
    obtain ⟨m₁, tried, out, haction, -, -, hfail, hans⟩ :=
      allocerAction_spec h.zones_ne_nil hf
    simp only [hset, hany, haction, Option.map_some, Option.bind_some]
    cases out with
    | none =>
      obtain ⟨hzones, hall⟩ := hfail rfl
      refine ⟨m₁, none, rfl, h.same_zones hzones,
        iff_of_true ⟨fun _ => ⟨?_, ?_⟩, ?_, ?_⟩ (Or.inr hall)⟩
      · simp [Live, hzones]
      · simp [byteOf, hzones]
      · simp
      · simp
    | some a =>
      -- another zone has a block: not the block's own, which has none
      obtain ⟨zₐ, zₐ', hzₐ, hask, hm₁⟩ := hans a rfl
      obtain ⟨z₁, out₁, hask₁, hlive₁, hkeep₁, -⟩ := hf zₐ (List.mem_of_getElem? hzₐ)
      obtain ⟨rfl, rfl⟩ : z₁ = zₐ' ∧ out₁ = some a.mem := by simpa using hask₁.symm.trans hask
      have hother : mem.zindex ≠ a.zindex := by
        intro heq
        rw [← heq, hz] at hzₐ
        obtain rfl := Option.some.inj hzₐ
        rw [hown] at hask
        simp at hask
      obtain ⟨m₂, hcopy, h₂, hleft⟩ := h.leftBehind (L := L) hmem hz hzₐ hm₁ hother
        (h.handedOut hzₐ hkeep₁ hlive₁ hm₁)
      refine ⟨m₂, some a, by simp only [hcopy]; rfl, h₂, iff_of_false hleft ?_⟩
      rintro (hsome | hall)
      · obtain ⟨r', ⟨rfl⟩, hsome'⟩ := hsome
        simp [hr] at hsome'
      · rw [hall zₐ (List.mem_of_getElem? hzₐ)] at hask
        simp at hask

/-! ### One call -/

theorem Inv.alloc (h : Inv bs s) (size : ℕ) :
    ∃ r, s.manager.alloc L size = some r ∧ Inv bs (s.allocated r) := by
  obtain ⟨m', tried, out, he, h'⟩ := h.allocerAction (L := L) fun z hz =>
    (h.zone_of_mem hz).choose_spec.answers_alloc size
  exact ⟨(m', out), by rw [ZoneManager.alloc, he]; rfl, h'⟩

theorem Inv.oalloc (h : Inv bs s) (order : ℕ) :
    ∃ r, s.manager.oalloc L order = some r ∧ Inv bs (s.allocated r) := by
  obtain ⟨m', tried, out, he, h'⟩ := h.allocerAction (L := L) fun z hz =>
    (h.zone_of_mem hz).choose_spec.answers_oalloc order
  exact ⟨(m', out), by rw [ZoneManager.oalloc, he]; rfl, h'⟩

theorem Inv.oallocAt (h : Inv bs s) {addr order : ℕ} (hc : FoundFirst s addr fun _ => order)
    {r : ZoneManager × Option ZoneAllocation} (he : s.manager.oallocAt L addr order = some r) :
    Inv bs (s.allocated r) := by
  refine h.allocerActionContains (fun zi hzi => ?_) he
  obtain ⟨hfound, hfirst⟩ := hc zi hzi
  obtain ⟨b, hb⟩ := h.zone (zoneAt_spec hzi).1
  refine ⟨hb.answers_oallocAt hfound, hfirst.imp_right fun hnot => ?_⟩
  rw [oallocAt_of_not_checked hnot]
  rfl

theorem Inv.allocAt (h : Inv bs s) {addr size : ℕ}
    (hc : size ≠ 0 → FoundFirst s addr (getOrder · size))
    {r : ZoneManager × Option ZoneAllocation} (he : s.manager.allocAt L addr size = some r) :
    Inv bs (s.allocated r) := by
  refine h.allocerActionContains (fun zi hzi => ?_) he
  obtain ⟨b, hb⟩ := h.zone (zoneAt_spec hzi).1
  refine ⟨hb.answers_allocAt fun h0 => (hc h0 zi hzi).1, ?_⟩
  by_cases h0 : size = 0
  · exact Or.inr (by rw [BuddyAllocator.allocAt, if_pos h0]; rfl)
  · refine (hc h0 zi hzi).2.imp_right fun hnot => ?_
    rw [BuddyAllocator.allocAt, if_neg h0, oallocAt_of_not_checked hnot]
    rfl

theorem Inv.realloc (h : Inv bs s) (hmem : mem ∈ s.held) {size : ℕ}
    (hc : RoomIn s mem (getOrder · size)) :
    ∃ r, s.manager.realloc L mem size = some r ∧ Inv bs (s.reallocated mem r) := by
  obtain ⟨z, hz, hlive⟩ := h.held mem hmem
  obtain ⟨b, hb⟩ := h.zone hz
  obtain ⟨m', out, he, h', -⟩ := reallocWith_spec h hmem hz
    (hb.reallocates_realloc (L := L) hlive (hc z hz))
    (fun z hz => (h.zone_of_mem hz).choose_spec.answers_alloc size) fun _ => rfl
  exact ⟨(m', out), he, h'⟩

theorem Inv.orealloc (h : Inv bs s) (hmem : mem ∈ s.held) {order : ℕ}
    (hc : RoomIn s mem fun _ => order) :
    ∃ r, s.manager.orealloc L mem order = some r ∧ Inv bs (s.reallocated mem r) := by
  obtain ⟨z, hz, hlive⟩ := h.held mem hmem
  obtain ⟨b, hb⟩ := h.zone hz
  obtain ⟨m', out, he, h', -⟩ := reallocWith_spec h hmem hz
    (hb.reallocates_orealloc (L := L) hlive (hc z hz))
    (fun z hz => (h.zone_of_mem hz).choose_spec.answers_oalloc order) fun _ => rfl
  exact ⟨(m', out), he, h'⟩

theorem Inv.dealloc (h : Inv bs s) (hmem : mem ∈ s.held) :
    ∃ m', s.manager.dealloc L mem = some m' ∧ Inv bs ⟨m', s.held.erase mem⟩ := by
  obtain ⟨z, hz, hlive⟩ := h.held mem hmem
  obtain ⟨b, hb⟩ := h.zone hz
  obtain ⟨z', he, -⟩ := Zone.step_spec (L := L) hb (.dealloc mem.mem) hlive trivial
  refine ⟨{ s.manager with zones := s.manager.zones.set mem.zindex z' }, ?_, ?_⟩
  · simp only [ZoneManager.dealloc, inZone, hz, he, Option.bind_eq_bind, Option.bind_some]
  · refine h.takenBack hz (fun c hc => ?_) ?_ rfl
    · obtain ⟨z₁, he₁, h₁⟩ := Zone.step_spec (L := L) hc (.dealloc mem.mem) hlive trivial
      rwa [Option.some.inj (he.symm.trans he₁)]
    · obtain ⟨b', -, rfl⟩ := Option.map_eq_some_iff.1 he
      rfl

theorem Inv.write (h : Inv bs s) (hmem : mem ∈ s.held) (hi : i < mem.mem.size) (byte : BitVec 8) :
    ∃ m', s.manager.inZone L mem.zindex (.write (mem.mem.addr + i) byte) = some m' ∧
      Inv bs ⟨m', s.held⟩ := by
  obtain ⟨z, hz, hlive⟩ := h.held mem hmem
  have hlegal : Zone.Legal z (.write (mem.mem.addr + i) byte) :=
    ⟨mem.mem, hlive, Nat.le_add_right _ _, by omega⟩
  refine ⟨_, by simp only [inZone, hz, Zone.step, Option.bind_eq_bind, Option.bind_some]; rfl,
    h.set hz (fun b hb => ?_) rfl (fun a ha => ?_) h.nodup⟩
  · obtain ⟨z', he, h'⟩ := Zone.step_spec (L := L) hb (.write (mem.mem.addr + i) byte) hlegal trivial
    rwa [← Option.some.inj he] at h'
  · split_ifs with hai
    · show a.mem ∈ z.live
      exact h.live_of_zindex ha hz hai
    · exact ha

/-- **One call** under its condition keeps the invariant. -/
theorem step_inv (h : Inv bs s) {op : ManagerOp} (hlegal : Legal s op) (hc : Guarded s op)
    (he : step L s op = some s') : Inv bs s' := by
  cases op with
  | alloc size =>
    obtain ⟨r, hr, h'⟩ := h.alloc (L := L) size
    obtain rfl : s.allocated r = s' := by simpa [step, hr] using he
    exact h'
  | oalloc order =>
    obtain ⟨r, hr, h'⟩ := h.oalloc (L := L) order
    obtain rfl : s.allocated r = s' := by simpa [step, hr] using he
    exact h'
  | allocAt addr size =>
    obtain ⟨r, hr, rfl⟩ := Option.map_eq_some_iff.1 he
    exact h.allocAt hc hr
  | oallocAt addr order =>
    obtain ⟨r, hr, rfl⟩ := Option.map_eq_some_iff.1 he
    exact h.oallocAt hc hr
  | realloc mem size =>
    obtain ⟨r, hr, h'⟩ := h.realloc (L := L) hlegal hc
    obtain rfl : s.reallocated mem r = s' := by simpa [step, hr] using he
    exact h'
  | orealloc mem order =>
    obtain ⟨r, hr, h'⟩ := h.orealloc (L := L) hlegal hc
    obtain rfl : s.reallocated mem r = s' := by simpa [step, hr] using he
    exact h'
  | dealloc mem =>
    obtain ⟨m', hm, h'⟩ := h.dealloc (L := L) hlegal
    obtain rfl : ⟨m', s.held.erase mem⟩ = s' := by simpa [step, hm] using he
    exact h'
  | write mem i byte =>
    obtain ⟨m', hm, h'⟩ := h.write (L := L) hlegal.1 hlegal.2 byte
    obtain rfl : ⟨m', s.held⟩ = s' := by simpa [step, hm] using he
    exact h'

end PhysMem
end AuroraOs
