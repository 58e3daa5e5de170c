import AuroraOs.Lib.Machine
import AuroraOs.Mem.Sys
import AuroraOs.Mem.VirtAllocRevert

/-!
# The loop that shrinks a layout

The closure of `realloc` removes the last element as long as it is smaller than what is left to remove.
An element that is not smaller stays, and so does everything else, but the loop goes on: it ends only
when no element is left.  It never comes to that, because less is removed than the layout has.
-/

namespace AuroraOs

open Machine

namespace VirtMapper

/-- One turn of the loop: a layout, and how much is left to remove. -/
def shrinkTurn : VirtLayout × ℕ → Option (VirtLayout × ℕ)
  | (physZones, diff) =>
      match physZones.cleanSlice.getLast? with
      | none => none
      | some a => some (if diff > a.size then (physZones.popDelete, diff - a.size) else (physZones, diff))

variable {l l' : VirtLayout} {diff diff' fuel size : ℕ}

theorem length_popDelete_lt {a : VirtLayoutElement} (h : l.cleanSlice.getLast? = some a) :
    l.popDelete.data.length < l.data.length := by
  rcases List.eq_nil_or_concat l.data with hnil | ⟨init, b, hconcat⟩
  · simp [VirtLayout.cleanSlice, hnil] at h
  · rw [List.concat_eq_append] at hconcat
    rw [(VirtLayout.popDelete_concat hconcat).1, hconcat, List.length_append]
    exact Nat.lt_succ_self _

theorem ends_of_shrink (h : shrink fuel l diff = some l') :
    ∃ diff', Ends shrinkTurn (l, diff) (l', diff') := by
  induction fuel generalizing l diff with
  | zero => simp [shrink] at h
  | succ fuel ih =>
    rw [shrink] at h
    split at h
    · next hlast =>
      obtain rfl := Option.some.inj h
      exact ⟨diff, .stop (by simp only [shrinkTurn, hlast])⟩
    · next a hlast =>
      split_ifs at h with hgt
      obtain ⟨diff', hends⟩ := ih h
      exact ⟨diff', .next (by simp only [shrinkTurn, hlast, if_pos hgt]) hends⟩

theorem shrink_of_ends (h : Ends shrinkTurn (l, diff) (l', diff')) (hfuel : l.data.length < fuel) :
    shrink fuel l diff = some l' := by
  generalize hc : (l, diff) = c at h
  generalize hc' : (l', diff') = c' at h
  induction h generalizing l diff fuel with
  | stop hstop =>
    obtain ⟨rfl, rfl⟩ := Prod.mk.inj (hc'.trans hc.symm)
    subst hc
    obtain ⟨fuel, rfl⟩ : ∃ n, fuel = n + 1 := ⟨fuel - 1, by omega⟩
    cases hlast : l'.cleanSlice.getLast? with
    | none => simp only [shrink, hlast]
    | some a => simp only [shrinkTurn, hlast, reduceCtorEq] at hstop
  | next hnext hends ih =>
    subst hc
    obtain ⟨fuel, rfl⟩ : ∃ n, fuel = n + 1 := ⟨fuel - 1, by omega⟩
    cases hlast : l.cleanSlice.getLast? with
    | none => simp only [shrinkTurn, hlast, reduceCtorEq] at hnext
    | some a =>
      simp only [shrinkTurn, hlast] at hnext
      by_cases hgt : diff > a.size
      · rw [if_pos hgt] at hnext
        have hlen := length_popDelete_lt hlast
        simp only [shrink, hlast, if_pos hgt]
        exact ih (by omega) (Option.some.inj hnext) hc'
      · -- the turn changes nothing
        rw [if_neg hgt] at hnext
        obtain rfl := Option.some.inj hnext
        exact absurd hends (not_ends_of_fixed (by simp only [shrinkTurn, hlast, if_neg hgt]))

/-- The model of the loop, which gives up where nothing changes, finds exactly how the loop ends. -/
theorem shrink_eq_some_iff (hfuel : l.data.length < fuel) :
    shrink fuel l diff = some l' ↔ ∃ diff', Ends shrinkTurn (l, diff) (l', diff') :=
  ⟨ends_of_shrink, fun ⟨_, h⟩ => shrink_of_ends h hfuel⟩

/-- What is removed in a turn, and what is left to remove: all that is mapped is still there or removed,
and something is always left to remove. -/
structure Shrinking (l : VirtLayout) (d : ℕ) (c : VirtLayout × ℕ) : Prop where
  popped : ∃ popped, l.data = c.1.data ++ popped ∧ c.2 + VirtLayout.total popped = d
  dirty : c.1.dirtyIndex = c.1.data.length
  pos : 0 < c.2

theorem Shrinking.turn {d : ℕ} {c c₁ : VirtLayout × ℕ} (h : Shrinking l d c)
    (hturn : shrinkTurn c = some c₁) : Shrinking l d c₁ := by
  obtain ⟨l₁, d₁⟩ := c
  obtain ⟨⟨popped, hdata, hsum⟩, hdirty, hpos⟩ := h
  simp only [shrinkTurn, VirtLayout.cleanSlice_eq_data hdirty] at hturn
  split at hturn
  · cases hturn
  · next a hlast =>
    obtain rfl := Option.some.inj hturn
    split_ifs with hgt
    · obtain ⟨init, hinit⟩ := List.getLast?_eq_some_iff.1 hlast
      obtain ⟨hdata', -, -, hdirty', -⟩ := VirtLayout.popDelete_concat hinit
      refine ⟨⟨a :: popped, ?_, ?_⟩, ?_, Nat.sub_pos_of_lt hgt⟩
      · simp only [hdata, hdata', hinit, List.append_assoc, List.singleton_append]
      · simp only [VirtLayout.total_cons] at *
        omega
      · have hlen : l₁.dirtyIndex = init.length + 1 := by
          rw [show l₁.dirtyIndex = l₁.data.length from hdirty, hinit, List.length_append,
            List.length_singleton]
        simp only [hdata', hdirty']
        omega
    · exact ⟨⟨popped, hdata, hsum⟩, hdirty, hpos⟩

/-- The loop does not end: it would have to remove all that is mapped. -/
theorem not_ends (hl : l.dirtyIndex = l.data.length) (hpos : 0 < size) (hlt : size < l.size)
    (c : VirtLayout × ℕ) : ¬ Ends shrinkTurn (l, l.size - size) c := by
  intro hends
  have hstart : Shrinking l (l.size - size) (l, l.size - size) :=
    ⟨⟨[], by simp, by simp⟩, hl, Nat.sub_pos_of_lt hlt⟩
  obtain ⟨⟨⟨popped, hdata, hsum⟩, hdirty, hleft⟩, hstop⟩ :=
    hends.inv (Shrinking l (l.size - size)) (fun _ _ h => h.turn) hstart
  obtain ⟨l', d'⟩ := c
  simp only [shrinkTurn, VirtLayout.cleanSlice_eq_data hdirty] at hstop
  split at hstop
  · next hlast =>
    have hnil : l'.data = [] := List.getLast?_eq_none_iff.1 hlast
    have hle : l.size ≤ VirtLayout.total popped := by
      rw [VirtLayout.size, hdata, hnil, List.nil_append, VirtLayout.sizeOf_eq]
      exact Nat.mod_le _ _
    simp only at hsum hleft
    omega
  · cases hstop

/-- What the loop is for: it ends, and has removed elements from the end of the layout.  At least
`size` is left, and something is removed if the last element is not larger than what is too much. -/
def Shrunk (l : VirtLayout) (size : ℕ) : Prop :=
  ∃ l' diff, Ends shrinkTurn (l, l.size - size) (l', diff) ∧ size ≤ l'.size ∧
    (∀ a ∈ l.data.getLast?, a.size ≤ l.size - size → l'.size < l.size) ∧
    ∃ n, l' = VirtLayout.popDelete^[n] l

/-- **The closure never returns** when it has to shrink a layout that is mapped. -/
theorem reallocFunc_never_shrinks {l : VirtLayout} {size : ℕ} (hl : l.dirtyIndex = l.data.length)
    (hpos : 0 < size) (hlt : size < l.size) :
    ¬ Shrunk l size ∧ ∀ (σ : Type) (E : MemEnv σ) (s : σ) (flags : PageMappingFlags),
      reallocFunc E size flags s l = none := by
  refine ⟨fun ⟨l', diff, hends, _⟩ => not_ends hl hpos hlt _ hends, fun σ E s flags => ?_⟩
  have hnone : shrink (l.data.length + 1) l (l.size - size) = none := by
    refine Option.eq_none_iff_forall_ne_some.2 fun l' he => ?_
    obtain ⟨diff', hends⟩ := (shrink_eq_some_iff (Nat.lt_succ_self _)).1 he
    exact not_ends hl hpos hlt _ hends
  rw [reallocFunc]
  cases l.flags with
  | none => rfl
  | some newFlags => simp [hlt, hlt.not_gt, hnone]

/-- A page that was reserved, and another one that was added to it. -/
def twoReserved : VirtLayout :=
  let page : VirtLayoutElement := ⟨.empty 4096, 4096, .fromMappingFlags .USER, .USER⟩
  ⟨[page, page], [], 2, 8192, .virtMem, by decide⟩

theorem reallocFunc_never_shrinks_two : ¬ Shrunk twoReserved 4096 :=
  (reallocFunc_never_shrinks (l := twoReserved) (by decide) (show 0 < 4096 by decide) (by decide)).1

/-- Two pages are never shrunk to one. -/
theorem not_shrunk_two : ¬ ∀ l : VirtLayout, l.dirtyIndex = l.data.length →
    ∀ size, 0 < size → size < l.size → Shrunk l size := by
  intro h
  obtain ⟨l', diff, hends, -⟩ := h twoReserved (by decide) 4096 (by decide) (by decide)
  exact not_ends (by decide) (by decide) (by decide) _ hends

end VirtMapper
end AuroraOs
