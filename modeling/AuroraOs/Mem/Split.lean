import AuroraOs.Mem.RangeMap
import AuroraOs.Boot.Mb2Run

/-!
# Subtracting a range

What `split_at` of `kernel/src/mem/mod.rs` should return is the difference of two ranges.  It finds out
how they lie by testing four addresses: the start and the end of the range to subtract, and their
neighbours outside of it.

The ranges here are any ranges, of physical or of virtual addresses.
-/

namespace AuroraOs
namespace AddrRange

open Blocks

variable {A : AddrApi} {a b t : AddrRange} {p q : Option AddrRange} {x send end_ : ℕ}

/-! ### The difference -/

/-- Nonempty disjoint ranges that make up the difference: the whole range exactly if the ranges do not
meet, and nothing exactly if there is nothing left. -/
structure Difference (a b : AddrRange) (p q : Option AddrRange) : Prop where
  nonempty : ∀ t ∈ p.toList ++ q.toList, 0 < t.size
  disjoint : (p.toList ++ q.toList).Pairwise Block.Disjoint
  union : ∀ x, (∃ t ∈ p.toList ++ q.toList, t.Has x) ↔ a.Has x ∧ ¬ b.Has x
  apart : p = some a ∧ q = none ↔ ¬ ∃ x, a.Has x ∧ b.Has x
  inside : p = none ∧ q = none ↔ ∀ x, a.Has x → b.Has x

/-- `split_at` does not panic, and returns the difference. -/
def Splits (A : AddrApi) (a b : AddrRange) : Prop :=
  ∃ p q, splitAt A a b = some (p, q) ∧ Difference a b p q

/-- An address is in both ranges. -/
def Meets (a b : AddrRange) : Prop :=
  0 < a.size ∧ 0 < b.size ∧ a.addr < b.addr + b.size ∧ b.addr < a.addr + a.size

instance : Decidable (Meets a b) := inferInstanceAs (Decidable (_ ∧ _ ∧ _ ∧ _))

theorem meets_iff : (∃ x, a.Has x ∧ b.Has x) ↔ Meets a b := by
  unfold Meets Block.Has
  constructor
  · rintro ⟨x, ha, hb⟩
    omega
  · intro h
    exact ⟨max a.addr b.addr, by omega⟩

theorem inside_iff : (∀ x, a.Has x → b.Has x) ↔
    a.size = 0 ∨ b.addr ≤ a.addr ∧ a.addr + a.size ≤ b.addr + b.size := by
  unfold Block.Has
  constructor
  · intro h
    by_contra hnot
    have hfirst := h a.addr
    have hlast := h (a.addr + a.size - 1)
    omega
  · intro h x hx
    omega

theorem difference_nothing : Difference a b none none ↔
    0 < a.size ∧ b.addr ≤ a.addr ∧ a.addr + a.size ≤ b.addr + b.size := by
  constructor
  · intro h
    have hin := inside_iff.1 (h.inside.1 ⟨rfl, rfl⟩)
    -- an empty range meets nothing, and would have to be returned whole
    have hpos : 0 < a.size := by
      by_contra h0
      have hmeets : ¬ Meets a b := fun hm => h0 hm.1
      exact absurd (h.apart.2 (by rwa [meets_iff])).1 (by simp)
    exact ⟨hpos, hin.resolve_left hpos.ne'⟩
  · rintro ⟨hpos, hin⟩
    have hall := inside_iff.2 (Or.inr hin)
    refine ⟨by simp, by simp, fun x => ?_, ?_, ?_⟩
    · simp only [Option.toList_none, List.append_nil, List.not_mem_nil, false_and, exists_false,
        false_iff]
      exact fun h => h.2 (hall x h.1)
    · refine iff_of_false (by simp) (not_not.2 ⟨a.addr, ⟨le_rfl, by omega⟩, hall _ ⟨le_rfl, by omega⟩⟩)
    · exact iff_of_true ⟨rfl, rfl⟩ hall

/-- An interval that is the difference of two ranges that meet ends where the second one begins, or
begins where it ends. -/
theorem interval_cases (hpos : 0 < t.size) (hm : Meets a b) (hu : ∀ x, t.Has x ↔ a.Has x ∧ ¬ b.Has x) :
    (t.addr = a.addr ∧ t.addr + t.size = b.addr ∧ b.addr < a.addr + a.size ∧
        a.addr + a.size ≤ b.addr + b.size) ∨
      (b.addr ≤ a.addr ∧ a.addr < b.addr + b.size ∧ t.addr = b.addr + b.size ∧
        t.addr + t.size = a.addr + a.size) := by
  unfold Meets at hm
  have hof : ∀ x, a.Has x → ¬ b.Has x → t.Has x := fun x ha hb => (hu x).2 ⟨ha, hb⟩
  obtain ⟨hfirst, hfirst'⟩ := (hu t.addr).1 ⟨le_rfl, by omega⟩
  obtain ⟨hlast, hlast'⟩ := (hu (t.addr + t.size - 1)).1 ⟨by omega, by omega⟩
  unfold Block.Has at *
  by_cases hlt : a.addr < b.addr
  · left
    have h1 := hof a.addr (by omega) (by omega)
    have h2 := hof (b.addr - 1) (by omega) (by omega)
    have h3 : ¬ (t.addr ≤ b.addr ∧ b.addr < t.addr + t.size) := fun hx =>
      ((hu b.addr).1 hx).2 ⟨le_rfl, by omega⟩
    have h4 : a.addr + a.size ≤ b.addr + b.size := by
      by_contra hgt
      have hlast := hof (a.addr + a.size - 1) (by omega) (by omega)
      omega
    omega
  · right
    have h1 := hof (b.addr + b.size) (by omega) (by omega)
    have h2 := hof (a.addr + a.size - 1) (by omega) (by omega)
    omega

/-- One range is the difference in three cases: nothing is subtracted, the end is, or the start is. -/
theorem difference_one : Difference a b (some t) none ↔ 0 < t.size ∧
    ((t = a ∧ ¬ Meets a b) ∨
      (t.addr = a.addr ∧ t.addr + t.size = b.addr ∧ b.addr < a.addr + a.size ∧
        a.addr + a.size ≤ b.addr + b.size) ∨
      (b.addr ≤ a.addr ∧ a.addr < b.addr + b.size ∧ t.addr = b.addr + b.size ∧
        t.addr + t.size = a.addr + a.size)) := by
  have hunion : (∀ x, (∃ s ∈ (some t).toList ++ (none : Option AddrRange).toList, s.Has x) ↔
      a.Has x ∧ ¬ b.Has x) ↔ ∀ x, t.Has x ↔ a.Has x ∧ ¬ b.Has x := by simp
  constructor
  · intro h
    have hpos : 0 < t.size := h.nonempty t (by simp)
    refine ⟨hpos, ?_⟩
    by_cases hm : Meets a b
    · exact Or.inr (interval_cases hpos hm (hunion.1 h.union))
    · exact Or.inl ⟨Option.some.inj (h.apart.2 (by rwa [meets_iff])).1, hm⟩
  · rintro ⟨hpos, ⟨rfl, hm⟩ | hend | hstart⟩
    · have hnot : ∀ x, t.Has x → ¬ b.Has x := fun x ha hb => hm (meets_iff.1 ⟨x, ha, hb⟩)
      refine ⟨by simpa using hpos, by simp, hunion.2 fun x => ?_, ?_, ?_⟩
      · exact ⟨fun hx => ⟨hx, hnot x hx⟩, fun hx => hx.1⟩
      · exact iff_of_true ⟨rfl, rfl⟩ (by rwa [meets_iff])
      · refine iff_of_false (by simp) fun hall => ?_
        have hfirst : t.Has t.addr := ⟨le_rfl, by omega⟩
        exact hnot _ hfirst (hall _ hfirst)
    all_goals
      have hm : Meets a b := by
        unfold Meets
        omega
      have hne : t ≠ a := by
        rintro rfl
        omega
      refine ⟨by simpa using hpos, by simp, hunion.2 fun x => ?_, ?_, ?_⟩
      · unfold Block.Has
        omega
      · rw [meets_iff]
        exact iff_of_false (fun h => hne (Option.some.inj h.1)) (not_not.2 hm)
      · rw [inside_iff]
        refine iff_of_false (by simp) ?_
        omega

/-- If the first of two intervals ends where the subtracted range begins, the second is what is left
behind the subtracted range. -/
theorem behind_cases (hlt : a.addr < b.addr) (hpos : 0 < t.size) (hm : Meets a b)
    (hapart : ∀ x, a.addr ≤ x ∧ x < b.addr → ¬ t.Has x)
    (hu : ∀ x, (a.addr ≤ x ∧ x < b.addr) ∨ t.Has x ↔ a.Has x ∧ ¬ b.Has x) :
    t.addr = b.addr + b.size ∧ t.addr + t.size = a.addr + a.size := by
  have hrest : ∀ x, t.Has x ↔ Block.Has ⟨b.addr, a.addr + a.size - b.addr⟩ x ∧ ¬ b.Has x := by
    intro x
    have hx := hu x
    have hx' := hapart x
    rw [show Block.Has ⟨b.addr, a.addr + a.size - b.addr⟩ x ↔
      b.addr ≤ x ∧ x < b.addr + (a.addr + a.size - b.addr) from Iff.rfl]
    unfold Meets at hm
    unfold Block.Has at *
    by_cases hbelow : a.addr ≤ x ∧ x < b.addr
    · have hnot := hx' hbelow
      omega
    · omega
  have hmeets : Meets ⟨b.addr, a.addr + a.size - b.addr⟩ b := by
    unfold Meets at hm ⊢
    simp only
    omega
  have hcases := interval_cases hpos hmeets hrest
  unfold Meets at hm
  simp only at hcases
  omega

/-- Two ranges, of which the first ends where the subtracted range begins. -/
theorem difference_two (hp : p = some ⟨a.addr, b.addr - a.addr⟩) : Difference a b p (some t) ↔
    a.addr < b.addr ∧ 0 < b.size ∧ 0 < t.size ∧ t.addr = b.addr + b.size ∧
      t.addr + t.size = a.addr + a.size := by
  subst hp
  have hlist : (some (⟨a.addr, b.addr - a.addr⟩ : AddrRange)).toList ++ (some t).toList
      = [⟨a.addr, b.addr - a.addr⟩, t] := rfl
  have hhas : ∀ x, Block.Has ⟨a.addr, b.addr - a.addr⟩ x ↔ a.addr ≤ x ∧ x < b.addr := by
    intro x
    unfold Block.Has
    simp only
    omega
  have hunion : (∀ x, (∃ s ∈ [⟨a.addr, b.addr - a.addr⟩, t], s.Has x) ↔ a.Has x ∧ ¬ b.Has x) ↔
      ∀ x, (a.addr ≤ x ∧ x < b.addr) ∨ t.Has x ↔ a.Has x ∧ ¬ b.Has x := by
    simp only [List.mem_cons, List.not_mem_nil, or_false, exists_eq_or_imp, exists_eq_left, hhas]
  constructor
  · intro h
    have hpos : 0 < b.addr - a.addr := h.nonempty ⟨a.addr, b.addr - a.addr⟩ (by rw [hlist]; simp)
    have hpos' : 0 < t.size := h.nonempty t (by rw [hlist]; simp)
    have hm : Meets a b := by
      by_contra hm
      exact absurd (h.apart.2 (by rwa [meets_iff])).2 (by simp)
    have hu := h.union
    have hd := h.disjoint
    rw [hlist] at hu hd
    rw [hunion] at hu
    have hapart : ∀ x, a.addr ≤ x ∧ x < b.addr → ¬ t.Has x := fun x hx =>
      (List.pairwise_cons.1 hd).1 t (List.mem_singleton_self t) x ((hhas x).2 hx)
    have hbehind := behind_cases (by omega) hpos' hm hapart hu
    unfold Meets at hm
    omega
  · intro h
    refine ⟨?_, ?_, ?_, ?_, ?_⟩
    · rw [hlist]
      simp only [List.mem_cons, List.not_mem_nil, or_false, forall_eq_or_imp, forall_eq]
      omega
    · rw [hlist, List.pairwise_pair]
      intro x hx
      rw [hhas] at hx
      unfold Block.Has
      omega
    · rw [hlist, hunion]
      unfold Block.Has
      intro x
      omega
    · rw [meets_iff]
      refine iff_of_false (by simp) (not_not.2 ?_)
      unfold Meets
      omega
    · rw [inside_iff]
      refine iff_of_false (by simp) ?_
      omega

/-! ### The branches of `split_at` -/

/-- The branches, in the order in which they stand. -/
inductive SplitCase
  | apart
  | covered
  | cutEnd
  | cutStart
  | hole
  deriving DecidableEq

/-- The branch that is taken; `none` if one of the tests panics. -/
def splitCase (A : AddrApi) (self range : AddrRange) : Option SplitCase := do
  let send ← A.add self.addr self.size
  let end_ ← A.add range.addr range.size
  if !(← containsRange A self range) then some .apart
  else if range.addr ≤ self.addr ∧ end_ ≥ send then some .covered
  else
    let before ← inside A self (A.sub range.addr 1)
    let after ← inside A self (A.add end_ 1)
    if before ∧ !after then some .cutEnd
    else if after ∧ !before then some .cutStart
    else some .hole

/-- What a branch returns, from the ends that `split_at` computes. -/
def SplitCase.result (A : AddrApi) (self range : AddrRange) (send end_ : ℕ) :
    SplitCase → Option (Option AddrRange × Option AddrRange)
  | .apart => some (some self, none)
  | .covered => some (none, none)
  | .cutEnd => do some (some ⟨self.addr, ← A.diff range.addr self.addr⟩, none)
  | .cutStart => do some (some ⟨end_, ← A.diff send end_⟩, none)
  | .hole => do
      some (some ⟨self.addr, ← A.diff range.addr self.addr⟩, some ⟨end_, ← A.diff send end_⟩)

/-- A branch is right for two ranges.  The one that cuts off the start or makes a hole needs the ends as
numbers, not only as addresses. -/
def SplitCase.Fits (a b : AddrRange) (send end_ : ℕ) : SplitCase → Prop
  | .apart => 0 < a.size ∧ ¬ Meets a b
  | .covered => 0 < a.size ∧ b.addr ≤ a.addr ∧ a.addr + a.size ≤ b.addr + b.size
  | .cutEnd => a.addr < b.addr ∧ b.addr ≤ a.addr + a.size ∧ a.addr + a.size ≤ b.addr + b.size
  | .cutStart => end_ < send ∧
      ((end_ = a.addr ∧ send = a.addr + a.size ∧ ¬ Meets a b) ∨
        (end_ = a.addr ∧ send = b.addr ∧ b.addr < a.addr + a.size ∧
          a.addr + a.size ≤ b.addr + b.size) ∨
        (b.addr ≤ a.addr ∧ a.addr < b.addr + b.size ∧ end_ = b.addr + b.size ∧
          send = a.addr + a.size))
  | .hole => a.addr < b.addr ∧ 0 < b.size ∧ end_ < send ∧ end_ = b.addr + b.size ∧
      send = a.addr + a.size

theorem splitAt_eq_result (hsend : A.add a.addr a.size = some send) (hend : A.add b.addr b.size = some end_) :
    splitAt A a b = (splitCase A a b).bind (SplitCase.result A a b send end_) := by
  simp only [splitAt, splitCase, hsend, hend, Option.bind_eq_bind, Option.bind_some]
  cases containsRange A a b with
  | none => rfl
  | some meets =>
    cases meets with
    | false => rfl
    | true =>
      by_cases hcovered : b.addr ≤ a.addr ∧ end_ ≥ send
      · simp [hcovered, SplitCase.result]
      simp only [Option.bind_some, Bool.not_true, Bool.false_eq_true, if_false, hcovered]
      cases inside A a (A.sub b.addr 1) with
      | none => rfl
      | some before =>
        cases inside A a (A.add end_ 1) with
        | none => cases before <;> simp
        | some after => cases before <;> cases after <;> simp [SplitCase.result]

/-- What a branch returns is the difference if and only if the branch fits. -/
theorem result_iff (hdiff : ∀ x y, A.diff x y = if y ≤ x then some (x - y) else none) (c : SplitCase) :
    (∃ p q, c.result A a b send end_ = some (p, q) ∧ Difference a b p q) ↔ c.Fits a b send end_ := by
  have hone : ∀ {t : Option AddrRange}, (∃ p q, some (t, (none : Option AddrRange)) = some (p, q) ∧
      Difference a b p q) ↔ Difference a b t none := by
    intro t
    simp
  cases c with
  | apart =>
    refine hone.trans (difference_one.trans ?_)
    simp only [SplitCase.Fits, true_and]
    unfold Meets
    omega
  | covered => exact hone.trans difference_nothing
  | cutEnd =>
    simp only [SplitCase.result, SplitCase.Fits, hdiff, Option.bind_eq_bind]
    by_cases hle : a.addr ≤ b.addr
    · rw [if_pos hle, Option.bind_some]
      refine hone.trans (difference_one.trans ?_)
      obtain ⟨u, n⟩ := a
      simp only [Block.mk.injEq, true_and, Meets]
      simp only at hle
      omega
    · rw [if_neg hle, Option.bind_none]
      refine iff_of_false (by simp) (by omega)
  | cutStart =>
    simp only [SplitCase.result, SplitCase.Fits, hdiff, Option.bind_eq_bind]
    by_cases hle : end_ ≤ send
    · rw [if_pos hle, Option.bind_some]
      refine hone.trans (difference_one.trans ?_)
      obtain ⟨u, n⟩ := a
      simp only [Block.mk.injEq, Meets]
      omega
    · rw [if_neg hle, Option.bind_none]
      refine iff_of_false (by simp) (by omega)
  | hole =>
    simp only [SplitCase.result, SplitCase.Fits, hdiff, Option.bind_eq_bind]
    by_cases hle : a.addr ≤ b.addr
    · rw [if_pos hle, Option.bind_some]
      by_cases hle' : end_ ≤ send
      · rw [if_pos hle', Option.bind_some]
        have htwo := @difference_two a b ⟨end_, send - end_⟩ _ rfl
        simp only [Option.some.injEq, Prod.mk.injEq, existsAndEq, true_and]
        refine htwo.trans ?_
        simp only
        omega
      · rw [if_neg hle', Option.bind_none]
        refine iff_of_false (by simp) (by omega)
    · rw [if_neg hle, Option.bind_none]
      refine iff_of_false (by simp) (by omega)

/-- For any ranges: `split_at` returns the difference if and only if both ranges have an end address and
the branch that is taken fits. -/
theorem splits_iff_fits (hdiff : ∀ x y, A.diff x y = if y ≤ x then some (x - y) else none) :
    Splits A a b ↔ ∃ send end_ c, A.add a.addr a.size = some send ∧ A.add b.addr b.size = some end_ ∧
      splitCase A a b = some c ∧ c.Fits a b send end_ := by
  constructor
  · rintro ⟨p, q, h, hd⟩
    have hends : ∃ send end_, A.add a.addr a.size = some send ∧ A.add b.addr b.size = some end_ := by
      obtain ⟨send, hsend, h⟩ := Option.bind_eq_some_iff.1 h
      obtain ⟨end_, hend, -⟩ := Option.bind_eq_some_iff.1 h
      exact ⟨send, end_, hsend, hend⟩
    obtain ⟨send, end_, hsend, hend⟩ := hends
    rw [splitAt_eq_result hsend hend] at h
    obtain ⟨c, hc, hresult⟩ := Option.bind_eq_some_iff.1 h
    exact ⟨send, end_, c, hsend, hend, hc, (result_iff hdiff c).1 ⟨p, q, hresult, hd⟩⟩
  · rintro ⟨send, end_, c, hsend, hend, hc, hfits⟩
    obtain ⟨p, q, hresult, hd⟩ := (result_iff hdiff c).2 hfits
    refine ⟨p, q, ?_, hd⟩
    rw [splitAt_eq_result hsend hend, hc, Option.bind_some, hresult]

/-! ### Ranges that end at an address -/

/-- When the difference is returned: the range is not empty; what is subtracted does not begin before it
and cover it, does not end one address before its end, is not empty inside of it, and has a neighbour on
either side if that is asked for. -/
def Clean (first last : Prop) (a b : AddrRange) : Prop :=
  0 < a.size ∧
  ¬ (b.addr < a.addr ∧ a.addr + a.size ≤ b.addr + b.size) ∧
  b.addr + b.size + 1 ≠ a.addr + a.size ∧
  ¬ (b.size = 0 ∧ a.addr < b.addr ∧ b.addr < a.addr + a.size) ∧
  ¬ (first ∧ a.addr ≤ b.addr + b.size ∧ b.addr + b.size < a.addr + a.size) ∧
  ¬ (last ∧ a.addr < b.addr ∧ b.addr < a.addr + a.size)

section Clean

variable {first last : Prop} [Decidable first] [Decidable last]

/-- The tests of `split_at` as tests of numbers. -/
structure Tests (A : AddrApi) (first last : Prop) [Decidable first] [Decidable last] (a b : AddrRange) :
    Prop where
  send : A.add a.addr a.size = some (a.addr + a.size)
  end_ : A.add b.addr b.size = some (b.addr + b.size)
  contains : containsRange A a b = some (decide (a.Has b.addr ∨ a.Has (b.addr + b.size)))
  before : a.Has b.addr ∨ a.Has (b.addr + b.size) → inside A a (A.sub b.addr 1)
    = if first then none else some (decide (a.Has (b.addr - 1)))
  after : a.Has b.addr ∨ a.Has (b.addr + b.size) → inside A a (A.add (b.addr + b.size) 1)
    = if last then none else some (decide (a.Has (b.addr + b.size + 1)))
  pos : ¬ first → 0 < b.addr
  le_of_first : first → a.Has b.addr ∨ a.Has (b.addr + b.size) → b.addr ≤ a.addr
  le_of_last : last → a.addr + a.size ≤ b.addr + b.size

theorem splits_iff_clean (hdiff : ∀ x y, A.diff x y = if y ≤ x then some (x - y) else none)
    (h : Tests A first last a b) : Splits A a b ↔ Clean first last a b := by
  have hfits : Splits A a b ↔
      ∃ c, splitCase A a b = some c ∧ c.Fits a b (a.addr + a.size) (b.addr + b.size) := by
    rw [splits_iff_fits hdiff]
    constructor
    · rintro ⟨send, end_, c, hsend, hend, hc, hf⟩
      obtain rfl := Option.some.inj (h.send.symm.trans hsend)
      obtain rfl := Option.some.inj (h.end_.symm.trans hend)
      exact ⟨c, hc, hf⟩
    · rintro ⟨c, hc, hf⟩
      exact ⟨_, _, c, h.send, h.end_, hc, hf⟩
  have hbefore := h.before
  have hafter := h.after
  have hpos := h.pos
  have hfirstle := h.le_of_first
  have hlastle := h.le_of_last
  rw [hfits]
  unfold Clean
  simp only [splitCase, h.send, h.end_, h.contains, Option.bind_eq_bind, Option.bind_some]
  by_cases hin : a.Has b.addr ∨ a.Has (b.addr + b.size)
  swap
  · simp only [hin, decide_false, Bool.not_false, if_true, Option.some.injEq, exists_eq_left',
      SplitCase.Fits]
    unfold Meets
    unfold Block.Has at hin
    omega
  rw [hbefore hin, hafter hin]
  simp only [hin, decide_true, Bool.not_true, Bool.false_eq_true, if_false]
  unfold Block.Has at hin ⊢
  by_cases hcovered : b.addr ≤ a.addr ∧ b.addr + b.size ≥ a.addr + a.size
  · simp only [if_pos hcovered, Option.some.injEq, exists_eq_left', SplitCase.Fits]
    omega
  rw [if_neg hcovered]
  by_cases hfirst : first
  · have hle := hfirstle hfirst hin
    refine iff_of_false (by simp [hfirst]) (by simp only [hfirst, true_and]; omega)
  by_cases hlast : last
  · have hle := hlastle hlast
    refine iff_of_false (by simp [hfirst, hlast]) (by simp only [hlast, true_and]; omega)
  have hb := hpos hfirst
  rw [if_neg hfirst, if_neg hlast]
  simp only [Option.bind_some, hfirst, hlast, false_and, not_false_eq_true, and_true]
  by_cases h1 : a.addr ≤ b.addr - 1 ∧ b.addr - 1 < a.addr + a.size
  · by_cases h2 : a.addr ≤ b.addr + b.size + 1 ∧ b.addr + b.size + 1 < a.addr + a.size
    · simp only [h1, h2, and_self, decide_true, Bool.not_true, Bool.false_eq_true, and_false, if_false,
        Option.some.injEq, exists_eq_left', SplitCase.Fits, and_true]
      omega
    · simp only [h1, h2, and_self, decide_true, decide_false, Bool.not_false, if_true,
        Option.some.injEq, exists_eq_left', SplitCase.Fits]
      omega
  · by_cases h2 : a.addr ≤ b.addr + b.size + 1 ∧ b.addr + b.size + 1 < a.addr + a.size
    · simp only [h1, h2, and_self, decide_true, decide_false, Bool.not_true, Bool.not_false,
        Bool.false_eq_true, if_false, if_true, Option.some.injEq, exists_eq_left', SplitCase.Fits,
        and_true, true_and]
      unfold Meets
      omega
    · simp only [h1, h2, decide_false, Bool.false_eq_true, Bool.not_false, false_and, if_false,
        Option.some.injEq, exists_eq_left', SplitCase.Fits]
      omega

/-- Ranges of physical addresses. -/
theorem tests_phys (hA : A.IsPhys) (ha : a.addr + a.size < 2 ^ 52) (hb : b.addr + b.size < 2 ^ 52) :
    Tests A (b.addr = 0) (b.addr + b.size + 1 = 2 ^ 52) a b where
  send := add_of_lt hA ha
  end_ := add_of_lt hA hb
  contains := containsRange_of_lt hA ha hb
  before _ := inside_sub hA ha (by omega)
  after _ := inside_add hA ha hb
  pos h := Nat.pos_of_ne_zero h
  le_of_first h _ := h ▸ Nat.zero_le _
  le_of_last h := by omega

/-- Ranges of virtual addresses, each in one half and with an end in it. -/
theorem tests_virt {V : VirtAddrApi} (hV : V.IsVirt) (ha : OneHalf a) (hb : OneHalf b)
    (ha' : a.addr + a.size ≠ 2 ^ 47) (hb' : b.addr + b.size ≠ 2 ^ 47) :
    Tests V.toAddrApi (b.addr = 0 ∨ b.addr = 2 ^ 64 - 2 ^ 47) False a b := by
  obtain ⟨send, hsend, he⟩ := ha.endAddr hV
  obtain ⟨end_, hend, he'⟩ := hb.endAddr hV
  obtain rfl : send = a.addr + a.size := by omega
  obtain rfl : end_ = b.addr + b.size := by omega
  have hhas : ∀ x, Canonical x → contains V.toAddrApi a x = some (decide (a.Has x)) := fun x hx =>
    VirtMapper.contains_half hV ha hx
  unfold OneHalf at ha hb
  have hcb : Canonical b.addr := by
    unfold Canonical
    omega
  have hce : Canonical (b.addr + b.size) := by
    unfold Canonical
    omega
  refine ⟨hsend, hend, ?_, fun hin => ?_, fun hin => ?_, fun h => by omega, fun h hin => ?_, False.elim⟩
  · unfold endAddr at hend
    simp only [containsRange, hhas _ hcb, hend, hhas _ hce, Option.bind_eq_bind, Option.bind_some]
    by_cases hx : a.Has b.addr
    · simp [hx]
    · simp [hx]
  · rw [hV.sub_eq]
    by_cases hfirst : b.addr = 0 ∨ b.addr = 2 ^ 64 - 2 ^ 47
    · rw [if_pos hfirst]
      rcases hfirst with h0 | hk
      · rw [if_neg (by omega)]
        rfl
      · rw [if_pos (by omega), hk, hV.new_eq _ (by decide)]
        rfl
    · rw [if_neg hfirst, if_pos (by omega)]
      have hc : Canonical (b.addr - 1) := by
        unfold Canonical at hcb ⊢
        omega
      rw [hV.new_of_canonical hc]
      exact hhas _ hc
  · rw [if_neg not_false, hV.add_eq]
    unfold Block.Has at hin
    -- behind the last address of a half comes the first one of the other, where the range is not
    have hnot : ∀ x y, a.addr + a.size ≤ y → ¬ a.Has x → V.new x = some x → Canonical x →
        inside V.toAddrApi a (V.new x) = some (decide (a.Has y)) := by
      intro x y hy hx hnew hc
      have hy' : ¬ a.Has y := fun h => by
        unfold Block.Has at h
        omega
      rw [hnew]
      exact (hhas x hc).trans (by rw [decide_eq_false hx, decide_eq_false hy'])
    by_cases hc : Canonical (b.addr + b.size + 1)
    · have hlt : b.addr + b.size + 1 < usizeMod := by
        unfold Canonical at hc
        simp only [usizeMod]
        omega
      rw [Nat.mod_eq_of_lt hlt, hV.new_of_canonical hc]
      exact hhas _ hc
    · have hlast : b.addr + b.size + 1 = 2 ^ 47 ∨ b.addr + b.size + 1 = 2 ^ 64 := by
        unfold Canonical at hc hce
        omega
      rcases hlast with hlast | hlast
      · have hnew : V.new (2 ^ 47) = V.new (2 ^ 64 - 2 ^ 47) := by
          rw [hV.new_eq _ (by decide), hV.new_eq _ (by decide)]
          rfl
        have hup : Canonical (2 ^ 64 - 2 ^ 47) := Or.inr ⟨le_rfl, by decide⟩
        rw [hlast, show 2 ^ 47 % usizeMod = 2 ^ 47 from rfl, hnew]
        refine hnot _ _ (by omega) ?_ (hV.new_of_canonical hup) hup
        unfold Block.Has
        omega
      · have hzero : Canonical 0 := Or.inl (by decide)
        rw [hlast, show 2 ^ 64 % usizeMod = 0 from rfl]
        refine hnot _ _ (by omega) ?_ (hV.new_of_canonical hzero) hzero
        unfold Block.Has
        omega
  · unfold Block.Has at hin
    omega

instance (first last : Prop) [Decidable first] [Decidable last] (a b : AddrRange) :
    Decidable (Clean first last a b) := inferInstanceAs (Decidable (_ ∧ _ ∧ _ ∧ _ ∧ _ ∧ _))

/-- **`split_at` returns the difference** of any two ranges if and only if both have an end address and the
branch that is taken fits.  For ranges with numbers as ends this is `Clean`. -/
theorem splits_iff {V : VirtAddrApi} (hA : A.IsPhys) (hV : V.IsVirt) :
    (∀ B ∈ [A, V.toAddrApi], ∀ a b : AddrRange, Splits B a b ↔ ∃ send end_ c,
      B.add a.addr a.size = some send ∧ B.add b.addr b.size = some end_ ∧
        splitCase B a b = some c ∧ c.Fits a b send end_) ∧
    (∀ a b : AddrRange, a.addr + a.size < 2 ^ 52 → b.addr + b.size < 2 ^ 52 →
      (Splits A a b ↔ Clean (b.addr = 0) (b.addr + b.size + 1 = 2 ^ 52) a b)) ∧
    ∀ a b : AddrRange, OneHalf a → OneHalf b → a.addr + a.size ≠ 2 ^ 47 → b.addr + b.size ≠ 2 ^ 47 →
      (Splits V.toAddrApi a b ↔ Clean (b.addr = 0 ∨ b.addr = 2 ^ 64 - 2 ^ 47) False a b) := by
  refine ⟨fun B hB a b => ?_, fun a b ha hb => ?_, fun a b ha hb ha' hb' => ?_⟩
  · rcases List.mem_cons.1 hB with rfl | hB
    · exact splits_iff_fits hA.diff_eq
    · obtain rfl := List.mem_singleton.1 hB
      exact splits_iff_fits hV.diff_eq
  · exact splits_iff_clean hA.diff_eq (tests_phys hA ha hb)
  · exact splits_iff_clean hV.diff_eq (tests_virt hV ha hb ha' hb')

/-- A page out of the middle of three, of either kind. -/
theorem splits_iff_middle :
    Splits MemoryRegionType.physAddr ⟨0x1000, 0x3000⟩ ⟨0x2000, 0x1000⟩ ∧
      Splits virtAddr.toAddrApi ⟨0x1000, 0x3000⟩ ⟨0x2000, 0x1000⟩ := by
  obtain ⟨-, hphys, hvirt⟩ := splits_iff MemoryRegionType.physAddr_isPhys virtAddr_isVirt
  refine ⟨(hphys _ _ (by decide) (by decide)).2 (by decide), ?_⟩
  exact (hvirt _ _ (Or.inl (by decide)) (Or.inl (by decide)) (by decide) (by decide)).2 (by decide)

/-- A range that begins before the other and covers it is taken for one that is apart. -/
theorem not_splits : ¬ Splits MemoryRegionType.physAddr ⟨0x2000, 0x1000⟩ ⟨0x1000, 0x3000⟩ ∧
    ¬ Splits virtAddr.toAddrApi ⟨0x2000, 0x1000⟩ ⟨0x1000, 0x3000⟩ := by
  have hphys := @tests_phys MemoryRegionType.physAddr ⟨0x2000, 0x1000⟩ ⟨0x1000, 0x3000⟩
    MemoryRegionType.physAddr_isPhys (by decide) (by decide)
  have hvirt := @tests_virt ⟨0x2000, 0x1000⟩ ⟨0x1000, 0x3000⟩ virtAddr virtAddr_isVirt
    (Or.inl (by decide)) (Or.inl (by decide)) (by decide) (by decide)
  constructor
  · intro h
    exact absurd ((splits_iff_clean MemoryRegionType.physAddr_isPhys.diff_eq hphys).1 h) (by decide)
  · intro h
    exact absurd ((splits_iff_clean virtAddr_isVirt.diff_eq hvirt).1 h) (by decide)

end Clean
end AddrRange
end AuroraOs
