import Mathlib

/-!
# Trying slots in a cycle

`search` asks slots of a list one after another until one answers, and keeps what asking leaves in
each slot.  `cycle n start` is one round over `n` slots from `start` on: every slot once.
-/

namespace RoundRobin

/-! ### One round -/

/-- The slots from `start` on, round and back. -/
def cycle (n start : ℕ) : List ℕ := (List.range n).map fun k => (start + k) % n

theorem cycle_nodup (n start : ℕ) : (cycle n start).Nodup := by
  refine List.Nodup.map_on (fun i hi j hj h => ?_) List.nodup_range
  have hmod : i ≡ j [MOD n] := Nat.ModEq.add_left_cancel' start h
  exact Nat.ModEq.eq_of_lt_of_lt hmod (List.mem_range.1 hi) (List.mem_range.1 hj)

theorem mem_cycle_iff {n start i : ℕ} : i ∈ cycle n start ↔ i < n := by
  have hle : cycle n start ⊆ List.range n := by
    intro j hj
    obtain ⟨k, hk, rfl⟩ := List.mem_map.1 hj
    exact List.mem_range.2 (Nat.mod_lt _ (by have := List.mem_range.1 hk; omega))
  -- as many different slots as there are
  have hperm : (cycle n start).Perm (List.range n) :=
    (List.subperm_of_subset (cycle_nodup n start) hle).perm_of_length_le (by simp [cycle])
  rw [hperm.mem_iff, List.mem_range]

/-! ### The search -/

universe u

variable {σ α : Type u} (ask : σ → Option (σ × Option α))

/-- Ask the slots in turn: the slots afterwards, those that were asked, and the first answer with its
slot. -/
def search : List ℕ → List σ → Option (List σ × List ℕ × Option (ℕ × α))
  | [], slots => some (slots, [], none)
  | i :: is, slots => do
      let s ← slots[i]?
      let (s', out) ← ask s
      match out with
      | some a => some (slots.set i s', [i], some (i, a))
      | none => do
          let (slots, tried, out) ← search is (slots.set i s')
          some (slots, i :: tried, out)

variable {ask} {is : List ℕ} {slots : List σ}

/-- A slot with nothing to give stays as it is. -/
def Passive (ask : σ → Option (σ × Option α)) (slots : List σ) : Prop :=
  ∀ s ∈ slots, ∃ s' out, ask s = some (s', out) ∧ (out = none → s' = s)

/-- **The search** goes through and asks an initial part of the round.  Without an answer nothing has
changed and no slot had one; an answer comes from one slot, the only one to change. -/
theorem search_spec (h : Passive ask slots) (his : ∀ i ∈ is, i < slots.length) :
    ∃ slots' tried out, search ask is slots = some (slots', tried, out) ∧ tried <+: is ∧
      (out = none → slots' = slots ∧ ∀ i ∈ is, ∀ s ∈ slots[i]?, ask s = some (s, none)) ∧
      ∀ i a, out = some (i, a) → i ∈ is ∧ ∃ s s', slots[i]? = some s ∧ ask s = some (s', some a) ∧
        slots' = slots.set i s' := by
  induction is with
  | nil => exact ⟨slots, [], none, rfl, List.prefix_rfl, by simp, by simp⟩
  | cons i is ih =>
    have hi := his i List.mem_cons_self
    have hs : slots[i]? = some slots[i] := List.getElem?_eq_getElem hi
    obtain ⟨s', out, he, hnone⟩ := h slots[i] (List.getElem_mem hi)
    cases out with
    | some a =>
      refine ⟨slots.set i s', [i], some (i, a), ?_, by simp, by simp, ?_⟩
      · simp [search, hs, he]
      · rintro j a' ⟨⟩
        exact ⟨List.mem_cons_self, slots[i], s', hs, he, rfl⟩
    | none =>
      obtain rfl := hnone rfl
      obtain ⟨slots', tried, out, hrest, hpre, hfail, hans⟩ :=
        ih fun j hj => his j (List.mem_cons_of_mem _ hj)
      refine ⟨slots', i :: tried, out, ?_, List.cons_prefix_cons.2 ⟨rfl, hpre⟩, fun hout => ?_,
        fun j a hout => ?_⟩
      · simp [search, hs, he, hrest]
      · obtain ⟨hsame, hall⟩ := hfail hout
        refine ⟨hsame, fun j hj s hsj => ?_⟩
        rcases List.mem_cons.1 hj with rfl | hj
        · rw [hs] at hsj
          rwa [← Option.some.inj hsj]
        · exact hall j hj s hsj
      · obtain ⟨hj, hex⟩ := hans j a hout
        exact ⟨List.mem_cons_of_mem _ hj, hex⟩

/-- A round asks every slot. -/
theorem search_cycle_none {start : ℕ} {slots' : List σ} {tried : List ℕ} (h : Passive ask slots)
    (he : search ask (cycle slots.length start) slots = some (slots', tried, none)) :
    ∀ s ∈ slots, ask s = some (s, none) := by
  obtain ⟨slots₁, tried₁, out, he₁, -, hnone, -⟩ :=
    search_spec h fun i hi => mem_cycle_iff.1 hi
  obtain ⟨-, -, rfl⟩ : slots₁ = slots' ∧ tried₁ = tried ∧ out = none := by
    simpa using he₁.symm.trans he
  intro s hs
  obtain ⟨i, hi, rfl⟩ := List.getElem_of_mem hs
  exact (hnone rfl).2 i (mem_cycle_iff.2 hi) _ (List.getElem?_eq_getElem hi)

end RoundRobin
