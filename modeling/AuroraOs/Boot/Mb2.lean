import AuroraOs.Mem.Range

/-!
# The memory map

`MemoryRegionType::new` of `kernel/src/mb2.rs`: an entry of the multiboot memory map, less the kernel
and less the initrd.  `split_at` misses a range that starts before the entry and covers it, and
loses the last byte of an entry when the subtracted range ends right before it.
-/

namespace AuroraOs

open Blocks AddrRange

/-- `Mb2MemoryRegion`: an entry as the boot loader wrote it. -/
structure Mb2MemoryRegion where
  addr : ℕ
  len : ℕ
  typ : ℕ
  addr_lt : addr < usizeMod
  len_lt : len < usizeMod

/-- A range of physical addresses. -/
structure PhysRange extends Block where
  fits : addr + size < 2 ^ 52

/-- The multiboot type ids. -/
def USABLE : ℕ := 1
def ACPI : ℕ := 3
def HIBERNATE_PRESERVE : ℕ := 4
def DEFECTIVE : ℕ := 5

/-- `MemoryRegionType`. -/
inductive MemoryRegionType
  | usable (range : AddrRange)
  | acpi (range : AddrRange)
  | hibernatePreserve (range : AddrRange)
  | defective (range : AddrRange)
  | reserved (range : AddrRange)
  deriving DecidableEq

namespace MemoryRegionType

/-- `MemoryRegionType::range`. -/
def range : MemoryRegionType → AddrRange
  | usable r | acpi r | hibernatePreserve r | defective r | reserved r => r

/-- `convert_func` of `MemoryRegionType::new`. -/
def convert (typ : ℕ) (range : AddrRange) : MemoryRegionType :=
  if typ = USABLE then usable range
  else if typ = ACPI then acpi range
  else if typ = HIBERNATE_PRESERVE then hibernatePreserve range
  else if typ = DEFECTIVE then defective range
  else reserved range

/-- Subtract the initrd from what is left of an entry. -/
def splitPiece (A : AddrApi) (prange : Option AddrRange) (initrd : AddrRange) :
    Option (Option AddrRange × Option AddrRange) :=
  match prange with
  | some prange => splitAt A prange initrd
  | none => some (none, none)

/-- `MemoryRegionType::new`. -/
def new (A : AddrApi) (region : Mb2MemoryRegion) (kernel initrd : AddrRange) :
    Option (List (Option MemoryRegionType)) := do
  let addr ← A.new region.addr
  let (prange1, prange2) ← splitAt A ⟨addr, region.len⟩ kernel
  let (prange1, prange3) ← splitPiece A prange1 initrd
  let (prange2, prange4) ← splitPiece A prange2 initrd
  some ([prange1, prange2, prange3, prange4].map (Option.map (convert region.typ)))

/-- The ranges of the regions. -/
def ranges (out : List (Option MemoryRegionType)) : List Block := out.reduceOption.map range

@[simp] theorem range_convert (typ : ℕ) (r : AddrRange) : (convert typ r).range = r := by
  unfold convert
  split_ifs <;> rfl

end MemoryRegionType

/-! ### One subtraction -/

variable {A : AddrApi} {s r : AddrRange} {p q : Option AddrRange} {x : ℕ}

/-- `split_at` is exact, unless the range to subtract starts before and covers the other, or ends one
byte before its end without starting with it, or starts at the first or ends at the last address. -/
def SplitExact (s r : AddrRange) : Prop :=
  ¬ (r.addr < s.addr ∧ 0 < s.size ∧ s.addr + s.size ≤ r.addr + r.size) ∧
  ¬ (r.addr ≠ s.addr ∧ s.addr ≤ r.addr + r.size ∧ r.addr + r.size + 1 = s.addr + s.size) ∧
  ¬ (r.addr = 0 ∧ s.addr ≤ r.addr + r.size ∧ r.addr + r.size < s.addr + s.size) ∧
  ¬ (r.addr + r.size + 1 = 2 ^ 52 ∧ s.addr < r.addr ∧ r.addr < s.addr + s.size)

instance : Decidable (SplitExact s r) := inferInstanceAs (Decidable (_ ∧ _ ∧ _ ∧ _))

/-- What is left before and after a subtracted range. -/
def leftOf (s r : AddrRange) : AddrRange := ⟨s.addr, min (s.addr + s.size) r.addr - s.addr⟩
def rightOf (s r : AddrRange) : AddrRange :=
  ⟨max s.addr (r.addr + r.size), s.addr + s.size - max s.addr (r.addr + r.size)⟩

/-- The result of `split_at`. -/
abbrev pieces (p q : Option AddrRange) : List Block := p.toList ++ q.toList

/-- The pieces cover what is in the one range and not in the other, once. -/
def Subtracted (p q : Option AddrRange) (s r : AddrRange) : Prop :=
  ∀ x, cover (pieces p q) x = if s.Has x ∧ ¬ r.Has x then 1 else 0

/-- The pieces are ranges of the range that was split. -/
theorem splitAt_le (hA : A.IsPhys) (hs : s.addr + s.size < 2 ^ 52) (hr : r.addr + r.size < 2 ^ 52)
    (he : splitAt A s r = some (p, q)) :
    (∀ t ∈ pieces p q, t.addr + t.size < 2 ^ 52) ∧
      ∀ x, cover (pieces p q) x ≤ if s.Has x then 1 else 0 := by
  obtain ⟨a, n⟩ := s
  obtain ⟨c, m⟩ := r
  rw [splitAt_eq hA hs hr] at he
  simp only [Block.Has] at he hs hr ⊢
  split_ifs at he with c1 c2 c3 c4 c5 c6 <;> simp only [Option.some.injEq, Prod.mk.injEq] at he <;>
    obtain ⟨rfl, rfl⟩ := he
  all_goals
    simp only [pieces, Option.toList_some, Option.toList_none, List.append_nil, List.nil_append,
      List.cons_append, List.mem_cons, List.not_mem_nil, or_false, false_imp_iff, forall_true_iff,
      forall_eq, forall_eq_or_imp, cover_cons, cover_nil, Block.Has, zero_le, and_true]
  · refine ⟨by omega, fun x => ?_⟩
    split_ifs <;> omega
  · refine ⟨by omega, fun x => ?_⟩
    split_ifs <;> omega
  · refine ⟨by omega, fun x => ?_⟩
    split_ifs <;> omega
  · refine ⟨by omega, fun x => ?_⟩
    split_ifs <;> omega

/-- Where the condition holds, the pieces are what is left. -/
theorem splitAt_exact (hA : A.IsPhys) (hs : s.addr + s.size < 2 ^ 52)
    (hr : r.addr + r.size < 2 ^ 52) (h : SplitExact s r) :
    ∃ p q, splitAt A s r = some (p, q) ∧ Subtracted p q s r ∧
      (∀ t ∈ pieces p q, t.size = 0 ∨ t = leftOf s r ∨ t = rightOf s r) ∧
      (leftOf s r ∈ pieces p q ∨ (leftOf s r).size = 0) ∧
      (rightOf s r ∈ pieces p q ∨ (rightOf s r).size = 0) := by
  obtain ⟨a, n⟩ := s
  obtain ⟨c, m⟩ := r
  obtain ⟨h1, h2, h3, h4⟩ := h
  have hin : ∀ x, (⟨a, n⟩ : Block).Has x ↔ a ≤ x ∧ x < a + n := fun _ => Iff.rfl
  have hout : ∀ x, (⟨c, m⟩ : Block).Has x ↔ c ≤ x ∧ x < c + m := fun _ => Iff.rfl
  rw [splitAt_eq hA hs hr]
  simp only [Subtracted, leftOf, rightOf, pieces, hin, hout] at hs hr h1 h2 h3 h4 ⊢
  split_ifs with c1 c2 c3 c4 c5 c6
  · -- covered from its first address on
    refine ⟨_, _, rfl, ?_⟩
    simp only [Option.toList_none, List.append_nil, List.not_mem_nil, false_imp_iff, forall_true_iff,
      cover_nil, true_and, false_or]
    refine ⟨fun x => ?_, ?_, ?_⟩
    · split_ifs <;> omega
    all_goals omega
  · omega
  · -- the end is cut off
    refine ⟨_, _, rfl, ?_⟩
    simp only [Option.toList_some, Option.toList_none, List.append_nil, List.mem_singleton, forall_eq,
      cover_cons, cover_nil, Block.Has, Block.mk.injEq, true_and]
    refine ⟨fun x => ?_, ?_, ?_, ?_⟩
    · split_ifs <;> omega
    all_goals omega
  · -- the start is cut off
    refine ⟨_, _, rfl, ?_⟩
    simp only [Option.toList_some, Option.toList_none, List.append_nil, List.mem_singleton, forall_eq,
      cover_cons, cover_nil, Block.Has, Block.mk.injEq]
    refine ⟨fun x => ?_, ?_, ?_, ?_⟩
    · split_ifs <;> omega
    all_goals omega
  · omega
  · -- a hole in the middle
    refine ⟨_, _, rfl, ?_⟩
    simp only [Option.toList_some, List.singleton_append, List.mem_cons, List.not_mem_nil, or_false,
      forall_eq_or_imp, forall_eq, cover_cons, cover_nil, Block.Has, Block.mk.injEq, true_and]
    refine ⟨fun x => ?_, ⟨?_, ?_⟩, ?_, ?_⟩
    · split_ifs <;> omega
    all_goals omega
  · -- apart
    refine ⟨_, _, rfl, ?_⟩
    simp only [Option.toList_some, Option.toList_none, List.append_nil, List.mem_singleton, forall_eq,
      cover_cons, cover_nil, hin, Block.mk.injEq, true_and]
    refine ⟨fun x => ?_, ?_, ?_, ?_⟩
    · split_ifs <;> omega
    all_goals omega

theorem SplitExact.of_size (h : s.size = 0) : SplitExact s r := by
  unfold SplitExact
  omega

/-- Elsewhere `split_at` panics, or it gets some address of the range wrong. -/
theorem splitAt_wrong (hA : A.IsPhys) (hs : s.addr + s.size < 2 ^ 52) (hr : r.addr + r.size < 2 ^ 52)
    (h : ¬ SplitExact s r) (he : splitAt A s r = some (p, q)) :
    ∃ x, s.Has x ∧ ((r.Has x ∧ 0 < cover (pieces p q) x) ∨ (¬ r.Has x ∧ cover (pieces p q) x = 0)) := by
  obtain ⟨a, n⟩ := s
  obtain ⟨c, m⟩ := r
  rw [splitAt_eq hA hs hr] at he
  unfold SplitExact at h
  simp only at h hs hr
  by_cases h1 : c < a ∧ 0 < n ∧ a + n ≤ c + m
  · -- the covered range is returned whole
    rw [if_pos (by simp only [Block.Has]; omega), Option.some.injEq, Prod.mk.injEq] at he
    obtain ⟨rfl, rfl⟩ := he
    refine ⟨a, by simp only [Block.Has]; omega, Or.inl ⟨by simp only [Block.Has]; omega, ?_⟩⟩
    simp [pieces, cover_cons, Block.Has, h1.2.1]
  · have hin : (⟨a, n⟩ : Block).Has c ∨ (⟨a, n⟩ : Block).Has (c + m) := by
      simp only [Block.Has]
      omega
    rw [if_neg (not_not.2 hin), if_neg (by simp only; omega)] at he
    split_ifs at he with h3 h4 h5 h6
    · -- the last byte is dropped
      simp only [Option.some.injEq, Prod.mk.injEq] at he
      obtain ⟨rfl, rfl⟩ := he
      simp only at h3 h4
      refine ⟨c + m, by simp only [Block.Has]; omega, Or.inr ⟨by simp only [Block.Has]; omega, ?_⟩⟩
      simp only [pieces, Option.toList_some, Option.toList_none, List.append_nil, cover_cons,
        cover_nil, Block.Has]
      rw [if_neg (by omega)]
    all_goals simp only at *; omega

end AuroraOs
