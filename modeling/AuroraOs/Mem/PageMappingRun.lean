import AuroraOs.Mem.PageMappingIter

/-!
# Layouts that change

A layout is pushed to and popped from, and after its pages are mapped it is told so by `sync_mem`, or by
`mark_unmapped` when all of it is unmapped.  In every run its bookkeeping says what is mapped, so the
iterators do what they are for wherever no address is moved.
-/

namespace AuroraOs

open Machine

/-- What happens to a layout. -/
inductive LayoutOp
  | push (elem : VirtLayoutElement)
  | popDelete
  | syncMem
  | markUnmapped

namespace VirtLayout

/-- A step of a layout, and of the memory that its elements give back. -/
def layoutStep {σ : Type*} (M : MemApi σ) : σ × VirtLayout → LayoutOp → Option (σ × VirtLayout)
  | (s, l), .push elem => some (s, l.push elem)
  | (s, l), .popDelete => some (s, l.popDelete)
  | (s, l), .syncMem => l.syncMem M s
  | (s, l), .markUnmapped => l.markUnmapped M s

variable {σ : Type*} {M : MemApi σ} {s s' : σ} {P : AddrApi} {V : VirtAddrApi} {l l' : VirtLayout}
  {e : VirtLayoutElement} {elems : List VirtLayoutElement}

/-! ### What is mapped -/

theorem mapped_push : (l.push e).mapped = l.mapped := by
  simp only [mapped, cleanSlice, push, List.take_append_of_le_length l.dirty_le]

/-- An element that is removed is still mapped. -/
theorem mapped_popDelete : l.popDelete.mapped = l.mapped := by
  rcases List.eq_nil_or_concat l.data with hnil | ⟨init, a, hconcat⟩
  · unfold popDelete
    simp [hnil]
  · rw [List.concat_eq_append] at hconcat
    obtain ⟨hdata, -, -, hdirty, hque⟩ := popDelete_concat hconcat
    have hlen : l.dirtyIndex ≤ init.length + 1 := by
      simpa [hconcat] using l.dirty_le
    rw [mapped, mapped, cleanSlice, cleanSlice, hdata, hdirty, hque, hconcat]
    by_cases hlt : init.length < l.dirtyIndex
    · have hall : l.dirtyIndex = (init ++ [a]).length := by
        rw [List.length_append, List.length_singleton]
        omega
      rw [hall, List.take_length]
      simp
    · rw [min_eq_left (Nat.le_of_not_lt hlt), List.take_append_of_le_length (Nat.le_of_not_lt hlt)]
      simp [hlt]

theorem mapped_syncMem (h : l.syncMem M s = some (s', l')) : l'.mapped = l.data := by
  obtain ⟨_, -, h⟩ := Option.bind_eq_some_iff.1 h
  rw [← (Prod.mk.inj (Option.some.inj h)).2]
  simp [mapped, cleanSlice]

theorem mapped_markUnmapped (h : l.markUnmapped M s = some (s', l')) :
    l'.mapped = [] ∧ l'.cleanSize = 0 ∧ l'.deallocQue = [] := by
  obtain ⟨_, -, h⟩ := Option.bind_eq_some_iff.1 h
  rw [← (Prod.mk.inj (Option.some.inj h)).2]
  simp [mapped, cleanSlice]

/-! ### The sizes are counted -/

theorem foldl_subUsize {n : ℕ} (hn : n < usizeMod) (hlt : ∀ e ∈ elems, e.size < usizeMod) :
    elems.foldl (fun n a => subUsize n a.size) n < usizeMod ∧
      (elems.foldl (fun n a => subUsize n a.size) n + total elems) % usizeMod = n := by
  induction elems generalizing n with
  | nil => exact ⟨hn, by simpa using Nat.mod_eq_of_lt hn⟩
  | cons a elems ih =>
    have ha := hlt a List.mem_cons_self
    obtain ⟨hlt', hsum⟩ := ih (n := subUsize n a.size) (Nat.mod_lt _ (by decide))
      fun e he => hlt e (List.mem_cons_of_mem _ he)
    refine ⟨hlt', ?_⟩
    have hback : (subUsize n a.size + a.size) % usizeMod = n := by
      unfold subUsize
      generalize usizeMod = m at *
      rw [Nat.mod_add_mod, show n + m - a.size + a.size = n + m by omega, Nat.add_mod_right, Nat.mod_eq_of_lt hn]
    rw [List.foldl_cons, total_cons, Nat.add_comm a.size, ← Nat.add_assoc, ← Nat.mod_add_mod, hsum, hback]

/-- After `sync_mem` the size is that of the elements. -/
theorem Counted.cleanSize_syncMem (h : Counted P l) (hs : l.syncMem M s = some (s', l')) :
    l'.cleanSize = total l.data % usizeMod := by
  obtain ⟨_, -, hs⟩ := Option.bind_eq_some_iff.1 hs
  rw [← (Prod.mk.inj (Option.some.inj hs)).2]
  simp only
  have hdirty : l.dirtySlice.foldl (fun n a => (n + a.size) % usizeMod) l.cleanSize =
      (total l.mapped + total l.dirtySlice) % usizeMod := by rw [h.size, foldl_size]
  obtain ⟨hlt, hsum⟩ := foldl_subUsize (n := (total l.mapped + total l.dirtySlice) % usizeMod)
    (Nat.mod_lt _ (by decide)) fun e he => (h.que e he).lt
  have htotal : total l.mapped + total l.dirtySlice = total l.data + total l.deallocQue := by
    rw [← clean_append_dirty l, VirtLayout.mapped, total_append, total_append, total_reverse]
    omega
  rw [hdirty]
  rw [htotal] at hlt hsum ⊢
  generalize l.deallocQue.foldl (fun n a => subUsize n a.size)
    ((total l.data + total l.deallocQue) % usizeMod) = c at hlt hsum
  have hcancel : c ≡ total l.data [MOD usizeMod] := Nat.ModEq.add_right_cancel' (total l.deallocQue) hsum
  exact (Nat.mod_eq_of_lt hlt).symm.trans hcancel

/-- The elements that are pushed can be laid out. -/
def Pushes (P : AddrApi) (op : LayoutOp) : Prop := ∀ e, op = .push e → e.Layable P

/-- **A step keeps the count.** -/
theorem Counted.step {op : LayoutOp} (h : Counted P l) (hop : Pushes P op)
    (hs : layoutStep M (s, l) op = some (s', l')) : Counted P l' := by
  cases op with
  | push e =>
    obtain ⟨-, rfl⟩ := Prod.mk.inj (Option.some.inj hs)
    refine ⟨by rw [mapped_push]; exact h.size, fun e' he' => ?_, h.que⟩
    rcases List.mem_append.1 he' with he' | he'
    · exact h.data e' he'
    · obtain rfl := List.mem_singleton.1 he'
      exact hop e' rfl
  | popDelete =>
    obtain ⟨-, rfl⟩ := Prod.mk.inj (Option.some.inj hs)
    rcases List.eq_nil_or_concat l.data with hnil | ⟨init, a, hconcat⟩
    · have hsame : l.popDelete = l := by
        unfold popDelete
        simp [hnil]
      rwa [hsame]
    · rw [List.concat_eq_append] at hconcat
      obtain ⟨hdata, hsize, -, -, hque⟩ := popDelete_concat hconcat
      refine ⟨by rw [mapped_popDelete, hsize]; exact h.size, fun e he => ?_, fun e he => ?_⟩
      · rw [hdata] at he
        exact h.data e (by simp [hconcat, he])
      · rw [hque] at he
        rcases List.mem_append.1 he with he | he
        · exact h.que e he
        · split_ifs at he
          · obtain rfl := List.mem_singleton.1 he
            exact h.data e (by simp [hconcat])
          · cases he
  | syncMem =>
    refine ⟨by rw [mapped_syncMem hs]; exact h.cleanSize_syncMem hs, ?_, ?_⟩
    · rw [(syncMem_same hs).data]
      exact h.data
    · obtain ⟨_, -, hs⟩ := Option.bind_eq_some_iff.1 hs
      rw [← (Prod.mk.inj (Option.some.inj hs)).2]
      simp
  | markUnmapped =>
    obtain ⟨hmapped, hsize, hque⟩ := mapped_markUnmapped hs
    refine ⟨by rw [hmapped, hsize]; rfl, ?_, by simp [hque]⟩
    rw [(markUnmapped_same hs).data]
    exact h.data

/-- A layout that nothing has happened to yet has nothing mapped. -/
theorem counted_ofVec {vec : List VirtLayoutElement} (hvec : ∀ e ∈ vec, e.Layable P) (atype : AllocType) :
    Counted P (ofVec vec atype) where
  size := rfl
  data := hvec
  que := by simp [ofVec]

/-- A page of memory. -/
def page : VirtLayoutElement := ⟨.mem ⟨0x1000, 0x1000⟩, 0x1000, .PRESENT, .READ⟩

theorem layable_page : page.Layable MemoryRegionType.physAddr where
  dvd := by decide
  lt := by decide
  zone := ⟨some ⟨0x1000, 0x1000⟩, by decide⟩

/-- A page is pushed, mapped, and removed. -/
def popMapped : List LayoutOp := [.push page, .syncMem, .popDelete]

/-- The page is still mapped, and about to be unmapped. -/
def removed : VirtLayout := ⟨[], [page], 0, 0x1000, .virtMem, le_rfl⟩

theorem run_popMapped : run (layoutStep VirtMapper.idle.toMemApi) ((), ofVec [] .virtMem) popMapped =
    some ((), removed) := by
  decide

theorem pushes_popMapped : ∀ op ∈ popMapped, Pushes MemoryRegionType.physAddr op := by
  intro op hop e he
  subst he
  have hmem : e = page := by simpa [popMapped] using hop
  exact hmem ▸ layable_page

end VirtLayout
end AuroraOs
