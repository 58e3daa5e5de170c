import AuroraOs.Util
import AuroraOs.Lib.Blocks

/-!
# Ranges of addresses

The ranges that `impl_addr_range!` of `kernel/src/mem/mod.rs` defines over `PhysAddr` and `VirtAddr`.
The two address types belong to another crate: `AddrApi` is what the ranges use of them, and
`IsPhys` the documented behaviour of `PhysAddr`.  `none` is a panic.
-/

namespace AuroraOs

open Blocks

/-- What the ranges use of an address type: `new` checks an address; `add` and `sub` move an address
by a number of bytes, and `diff` is the distance of two. -/
structure AddrApi where
  new : ℕ → Option ℕ
  add : ℕ → ℕ → Option ℕ
  sub : ℕ → ℕ → Option ℕ
  diff : ℕ → ℕ → Option ℕ

/-- `PhysAddr`: 52 bits, checked by `new`; sums are sums of `u64`, differences are checked. -/
structure AddrApi.IsPhys (A : AddrApi) : Prop where
  new_eq : ∀ a, A.new a = if a < 2 ^ 52 then some a else none
  add_eq : ∀ a n, A.add a n = A.new ((a + n) % usizeMod)
  sub_eq : ∀ a n, A.sub a n = if n ≤ a then A.new (a - n) else none
  diff_eq : ∀ a b, A.diff a b = if b ≤ a then some (a - b) else none

/-- `PhysRange` and `VirtRange` as the code computes with them. -/
abbrev AddrRange := Block

namespace AddrRange

variable (A : AddrApi)

/-- `contains`. -/
def contains (self : AddrRange) (addr : ℕ) : Option Bool :=
  if addr ≥ self.addr then do
    let send ← A.add self.addr self.size
    some (addr < send)
  else some false

/-- `contains_range`. -/
def containsRange (self range : AddrRange) : Option Bool := do
  if ← contains A self range.addr then some true
  else
    let last ← A.add range.addr range.size
    contains A self last

/-- `full_contains_range`. -/
def fullContainsRange (self range : AddrRange) : Option Bool := do
  if ← contains A self range.addr then
    let last ← A.add range.addr range.size
    contains A self last
  else some false

/-- `merge`. -/
def merge (self other : AddrRange) : Option (Option AddrRange) := do
  if (← A.add self.addr self.size) = other.addr then
    some (some ⟨self.addr, (self.size + other.size) % usizeMod⟩)
  else if (← A.add other.addr other.size) = self.addr then
    some (some ⟨other.addr, (self.size + other.size) % usizeMod⟩)
  else some none

/-- `contains` of an address that is still to be computed. -/
def inside (self : AddrRange) (addr : Option ℕ) : Option Bool := addr.bind (contains A self)

/-- `split_at`.  The operator `&&` evaluates its second operand only if the first is true. -/
def splitAt (self range : AddrRange) : Option (Option AddrRange × Option AddrRange) := do
  let sbegin := self.addr
  let send ← A.add self.addr self.size
  let begin_ := range.addr
  let end_ ← A.add begin_ range.size
  if !(← containsRange A self range) then some (some self, none)
  else if begin_ ≤ sbegin ∧ end_ ≥ send then some (none, none)
  else
    let before ← inside A self (A.sub begin_ 1)
    let cutEnd ← if before then (inside A self (A.add end_ 1)).map not else some false
    if cutEnd then some (some ⟨sbegin, ← A.diff begin_ sbegin⟩, none)
    else
      let after ← inside A self (A.add end_ 1)
      let cutStart ← if after then (inside A self (A.sub begin_ 1)).map not else some false
      if cutStart then some (some ⟨end_, ← A.diff send end_⟩, none)
      else some (some ⟨sbegin, ← A.diff begin_ sbegin⟩, some ⟨end_, ← A.diff send end_⟩)

variable {A} {self range : AddrRange} {x : ℕ}

/-! ### Ranges of physical addresses -/

theorem add_of_lt (hA : A.IsPhys) {a n : ℕ} (h : a + n < 2 ^ 52) : A.add a n = some (a + n) := by
  rw [hA.add_eq, hA.new_eq, Nat.mod_eq_of_lt (by simp only [usizeMod]; omega), if_pos h]

theorem contains_of_lt (hA : A.IsPhys) (h : self.addr + self.size < 2 ^ 52) :
    contains A self x = some (decide (self.Has x)) := by
  unfold contains
  rw [add_of_lt hA h]
  by_cases hx : x ≥ self.addr
  · simp [hx]
  · simp [hx]

theorem containsRange_of_lt (hA : A.IsPhys) (h : self.addr + self.size < 2 ^ 52)
    (hr : range.addr + range.size < 2 ^ 52) :
    containsRange A self range
      = some (decide (self.Has range.addr ∨ self.Has (range.addr + range.size))) := by
  unfold containsRange
  rw [contains_of_lt hA h, add_of_lt hA hr]
  by_cases hx : self.Has range.addr
  · simp [hx]
  · simp [hx, contains_of_lt hA h]

theorem inside_sub (hA : A.IsPhys) (h : self.addr + self.size < 2 ^ 52) (hx : x < 2 ^ 52) :
    inside A self (A.sub x 1) = if x = 0 then none else some (decide (self.Has (x - 1))) := by
  unfold inside
  rw [hA.sub_eq, hA.new_eq]
  by_cases h0 : x = 0
  · rw [if_neg (by omega), if_pos h0]
    rfl
  · rw [if_pos (by omega), if_pos (by omega), if_neg h0]
    exact contains_of_lt hA h

theorem inside_add (hA : A.IsPhys) (h : self.addr + self.size < 2 ^ 52) (hx : x < 2 ^ 52) :
    inside A self (A.add x 1) = if x + 1 = 2 ^ 52 then none else some (decide (self.Has (x + 1))) := by
  unfold inside
  rw [hA.add_eq, hA.new_eq, Nat.mod_eq_of_lt (by simp only [usizeMod]; omega)]
  by_cases h0 : x + 1 = 2 ^ 52
  · rw [if_neg (by omega), if_pos h0]
    rfl
  · rw [if_pos (by omega), if_neg h0]
    exact contains_of_lt hA h

/-- What `split_at` computes, when both ranges end at physical addresses. -/
theorem splitAt_eq (hA : A.IsPhys) (h : self.addr + self.size < 2 ^ 52)
    (hr : range.addr + range.size < 2 ^ 52) :
    splitAt A self range =
      if ¬ (self.Has range.addr ∨ self.Has (range.addr + range.size)) then some (some self, none)
      else if range.addr ≤ self.addr ∧ self.addr + self.size ≤ range.addr + range.size then
        some (none, none)
      else if range.addr = 0 ∨ range.addr + range.size + 1 = 2 ^ 52 then none
      else if self.addr < range.addr ∧ self.addr + self.size ≤ range.addr + range.size + 1 then
        some (some ⟨self.addr, range.addr - self.addr⟩, none)
      else if range.addr ≤ self.addr ∧ range.addr + range.size + 1 < self.addr + self.size then
        some (some ⟨range.addr + range.size,
          self.addr + self.size - (range.addr + range.size)⟩, none)
      else if range.addr < self.addr then none
      else some (some ⟨self.addr, range.addr - self.addr⟩, some ⟨range.addr + range.size,
          self.addr + self.size - (range.addr + range.size)⟩) := by
  obtain ⟨a, n⟩ := self
  obtain ⟨c, m⟩ := range
  simp only at h hr
  have hcr := @containsRange_of_lt A ⟨a, n⟩ ⟨c, m⟩ hA h hr
  have hsub := @inside_sub A ⟨a, n⟩ c hA h (by omega)
  have hadd := @inside_add A ⟨a, n⟩ (c + m) hA h hr
  simp only [splitAt, add_of_lt hA h, add_of_lt hA hr, hcr, hsub, hadd, hA.diff_eq,
    Option.bind_eq_bind, Option.bind_some, Block.Has]
  by_cases h1 : a ≤ c ∧ c < a + n ∨ a ≤ c + m ∧ c + m < a + n
  swap
  · simp [h1]
  simp only [h1, decide_true, Bool.not_true, Bool.false_eq_true, if_false, not_true_eq_false]
  by_cases h2 : c ≤ a ∧ a + n ≤ c + m
  · simp [h2]
  rw [if_neg h2, if_neg h2]
  by_cases h3 : c = 0
  · simp [h3]
  by_cases h4 : c + m + 1 = 2 ^ 52
  · rw [if_pos h4, if_pos (Or.inr h4), if_neg h3]
    by_cases h5 : a ≤ c - 1 ∧ c - 1 < a + n <;> simp [h5]
  have h34 : ¬ (c = 0 ∨ c + m + 1 = 2 ^ 52) := by omega
  simp only [if_neg h3, if_neg h4, if_neg h34, Option.bind_some, Option.map_some]
  -- both neighbours of the subtracted range are addresses
  by_cases h5 : a ≤ c - 1 ∧ c - 1 < a + n
  · by_cases h6 : a ≤ c + m + 1 ∧ c + m + 1 < a + n
    · rw [if_neg (by omega : ¬ (a < c ∧ a + n ≤ c + m + 1)),
        if_neg (by omega : ¬ (c ≤ a ∧ c + m + 1 < a + n)), if_neg (by omega : ¬ c < a)]
      simp [h5, h6, (by omega : a ≤ c), (by omega : c + m ≤ a + n)]
    · have e1 : a < c ∧ a + n ≤ c + m + 1 := by omega
      simp [h5, h6, e1, e1.1.le]
  · by_cases h6 : a ≤ c + m + 1 ∧ c + m + 1 < a + n
    · rw [if_neg (by omega : ¬ (a < c ∧ a + n ≤ c + m + 1)),
        if_pos (by omega : c ≤ a ∧ c + m + 1 < a + n)]
      simp [h5, h6, (by omega : c + m ≤ a + n)]
    · rw [if_neg (by omega : ¬ (a < c ∧ a + n ≤ c + m + 1)),
        if_neg (by omega : ¬ (c ≤ a ∧ c + m + 1 < a + n))]
      by_cases h7 : c < a
      · simp [h5, h6, h7]
      · simp [h5, h6, h7, (by omega : a ≤ c), (by omega : c + m ≤ a + n)]

/-- A range that wraps around the address space contains no address, so nothing is subtracted. -/
theorem splitAt_of_wrap (hA : A.IsPhys) (ha : self.addr < 2 ^ 52) (hn : self.size < usizeMod)
    (h : usizeMod ≤ self.addr + self.size) (hr : range.addr + range.size < 2 ^ 52) :
    splitAt A self range = some (some self, none) := by
  have hmod : (self.addr + self.size) % usizeMod = self.addr + self.size - usizeMod := by
    rw [Nat.mod_eq_sub_mod h, Nat.mod_eq_of_lt (by simp only [usizeMod] at *; omega)]
  have hadd : A.add self.addr self.size = some (self.addr + self.size - usizeMod) := by
    rw [hA.add_eq, hmod, hA.new_eq, if_pos (by omega)]
  have hcontains : ∀ x, contains A self x = some false := by
    intro x
    unfold contains
    rw [hadd]
    by_cases hx : x ≥ self.addr
    · simp only [if_pos hx, Option.bind_eq_bind, Option.bind_some, Option.some.injEq,
        decide_eq_false_iff_not]
      omega
    · rw [if_neg hx]
  simp [splitAt, containsRange, hadd, add_of_lt hA hr, hcontains]

/-- A range whose end is no physical address panics. -/
theorem splitAt_of_invalid (hA : A.IsPhys) (h : 2 ^ 52 ≤ self.addr + self.size)
    (h' : self.addr + self.size < usizeMod) : splitAt A self range = none := by
  have hadd : A.add self.addr self.size = none := by
    rw [hA.add_eq, Nat.mod_eq_of_lt h', hA.new_eq, if_neg (by omega)]
  simp [splitAt, hadd]

end AddrRange
end AuroraOs
