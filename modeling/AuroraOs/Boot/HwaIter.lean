import AuroraOs.Sched.Elf
import AuroraOs.Syscall.UserArray

/-!
# Hardware tables

`HwaIter` of `kernel/src/util/hwa_iter.rs`, the iterator over the multiboot tags of `mb2.rs` and the entries
of the MADT of `acpi/madt.rs`.  A tag is a header with the length of the tag, and its data behind the header.

`next` reads the header without a look at how much of the table is left, and adds any length to its address.
A tag of length zero is returned over and over.
-/

namespace AuroraOs

open Blocks

/-! ### Tags -/

/-- `HwaTag`; the methods are given the bytes of the header, and `elem` its address too.  An element refers to
bytes of its tag. -/
structure HwaTag where
  Elem : Type
  sizeOf : ℕ
  sizeOf_pos : 0 < sizeOf
  size : List UInt8 → ℕ
  elem : List UInt8 → Ptr → Option Elem
  data : Elem → Option Block
  data_within : ∀ {header} {tag : ℕ} {e}, elem header tag = some e → tag + max sizeOf (size header) ≤ usizeMod →
    ∀ b ∈ data e, b.Within ⟨tag, max sizeOf (size header)⟩

/-- `HwaTag::raw_data`, for data of `n` bytes. -/
def rawData (sizeOf size n : ℕ) (tag : Ptr) : Option Ptr :=
  if sizeOf + n ≤ size then asRef ((tag + sizeOf) % usizeMod) else none

/-- The data lie behind the header, and end where the tag does or before. -/
theorem rawData_within {sizeOf size n tag p : ℕ} (h : rawData sizeOf size n tag = some p)
    (hfits : tag + max sizeOf size ≤ usizeMod) : Block.Within ⟨p, n⟩ ⟨tag, max sizeOf size⟩ := by
  unfold rawData asRef at h
  split_ifs at h with hle h0
  cases h
  intro x hx
  simp only [Block.Has] at hx ⊢
  have hlt : (tag + sizeOf) % usizeMod = tag + sizeOf := by
    apply Nat.mod_eq_of_lt
    by_contra hge
    have : tag + sizeOf = usizeMod := by omega
    exact h0 (by rw [this, Nat.mod_self])
  omega

/-- `Mb2Elem`. -/
inductive Mb2Elem
  | end_
  | module_ (data : Ptr)
  | memoryMap (tag : Ptr)
  | rsdpOld (data : Ptr)
  | other (tag : Ptr)
  deriving DecidableEq

/-- The bytes that an element refers to: `Mb2Module` has 8 and `Mb2RsdpOld` has 20. -/
def Mb2Elem.data : Mb2Elem → Option Block
  | end_ => none
  | module_ p => some ⟨p, 8⟩
  | memoryMap p | other p => some ⟨p, 8⟩
  | rsdpOld p => some ⟨p, 20⟩

/-- The multiboot tag type ids. -/
def END : ℕ := 0
def MODULE : ℕ := 3
def MEMORY_MAP : ℕ := 6
def RSDP_OLD : ℕ := 14
def RSDP_NEW : ℕ := 15

/-- `TagHeader`. -/
def TagHeader : HwaTag where
  Elem := Mb2Elem
  sizeOf := 8
  sizeOf_pos := by decide
  size header := field header 4 4
  elem header tag :=
    let typ := field header 0 4
    let size := field header 4 4
    if typ = END then some .end_
    else if typ = MODULE then (rawData 8 size 8 tag).map .module_
    else if typ = MEMORY_MAP then some (.memoryMap tag)
    else if typ = RSDP_OLD then (rawData 8 size 20 tag).map .rsdpOld
    else if typ = RSDP_NEW then none
    else some (.other tag)
  data := Mb2Elem.data
  data_within := by
    intro header tag e he hfits b hb
    simp only at he
    split_ifs at he
    · cases he
      cases hb
    · obtain ⟨p, hp, rfl⟩ := Option.map_eq_some_iff.1 he
      cases hb
      exact rawData_within hp hfits
    · cases he
      cases hb
      exact (Block.within_iff (Nat.succ_pos 7)).2 ⟨le_rfl, by simp⟩
    · obtain ⟨p, hp, rfl⟩ := Option.map_eq_some_iff.1 he
      cases hb
      exact rawData_within hp hfits
    · cases he
      cases hb
      exact (Block.within_iff (Nat.succ_pos 7)).2 ⟨le_rfl, by simp⟩

/-- `MadtElem`. -/
inductive MadtElem
  | procLocalApic (data : Ptr)
  | ioApic (data : Ptr)
  | ioApicSrcOverride (data : Ptr)
  | ioApicNmi (data : Ptr)
  | localApicNmi (data : Ptr)
  | localApicOverride (data : Ptr)
  | procLocalX2Apic (data : Ptr)
  deriving DecidableEq

/-- The bytes that an element refers to, a packed structure each. -/
def MadtElem.data : MadtElem → Option Block
  | procLocalApic p => some ⟨p, 6⟩
  | ioApic p | localApicOverride p => some ⟨p, 10⟩
  | ioApicSrcOverride p | ioApicNmi p => some ⟨p, 8⟩
  | localApicNmi p => some ⟨p, 4⟩
  | procLocalX2Apic p => some ⟨p, 14⟩

/-- `MadtTag`. -/
def MadtTag : HwaTag where
  Elem := MadtElem
  sizeOf := 2
  sizeOf_pos := by decide
  size header := field header 1 1
  elem header tag :=
    let size := field header 1 1
    match field header 0 1 with
    | 0 => (rawData 2 size 6 tag).map .procLocalApic
    | 1 => (rawData 2 size 10 tag).map .ioApic
    | 2 => (rawData 2 size 8 tag).map .ioApicSrcOverride
    | 3 => (rawData 2 size 8 tag).map .ioApicNmi
    | 4 => (rawData 2 size 4 tag).map .localApicNmi
    | 5 => (rawData 2 size 10 tag).map .localApicOverride
    | 9 => (rawData 2 size 14 tag).map .procLocalX2Apic
    | _ => none
  data := MadtElem.data
  data_within := by
    intro header tag e he hfits b hb
    simp only at he
    split at he <;> try cases he
    all_goals
      obtain ⟨p, hp, rfl⟩ := Option.map_eq_some_iff.1 he
      cases hb
      exact rawData_within hp hfits

/-! ### The iterator -/

/-- `HwaIter`. -/
structure HwaIter where
  addr : ℕ
  end_ : ℕ
  align : ℕ

/-- `align_up`, where there is an alignment. -/
def roundUp (addr align : ℕ) : ℕ := if align ≠ 0 then alignUp addr align else addr

section Model

variable (T : HwaTag) (memory : ℕ → UInt8)

/-- The header of the tag at an address. -/
def HwaTag.header (tag : Ptr) : List UInt8 := bytesAt memory tag T.sizeOf

/-- `tag.size()` of the tag at an address. -/
def HwaTag.sizeAt (tag : Ptr) : ℕ := T.size (T.header memory tag)

/-- `tag.elem()` of the tag at an address. -/
def HwaTag.elemAt (tag : Ptr) : Option T.Elem := T.elem (T.header memory tag) tag

namespace HwaIter

/-- `HwaIter::from_align`. -/
def fromAlign (addr size align : ℕ) : HwaIter := ⟨addr, (addr + size) % usizeMod, align⟩

/-- `HwaIter::next`. -/
def next (self : HwaIter) : Option (Option T.Elem × HwaIter) :=
  if self.end_ ≤ self.addr then some (none, self)
  else do
    let tag ← asRef self.addr
    let addr := (self.addr + T.sizeAt memory tag) % usizeMod
    if self.end_ < addr then some (none, { self with addr := addr })
    else
      let elem ← T.elemAt memory tag
      some (some elem, { self with addr := roundUp addr self.align })

/-- The iterator after `n` calls; `none` after a panic. -/
def after : HwaIter → ℕ → Option HwaIter
  | it, 0 => some it
  | it, n + 1 => (it.next T memory).bind fun r => after r.2 n

/-- The next call reads a header. -/
def Reads (it : HwaIter) : Prop := it.addr < it.end_ ∧ it.addr ≠ null

/-- The next call returns an element, and leaves the other iterator. -/
def Yields (it it' : HwaIter) : Prop := ∃ e, it.next T memory = some (some e, it')

/-- The next call returns nothing. -/
def Done (it : HwaIter) : Prop := ∃ it', it.next T memory = some (none, it')

end HwaIter

/-- The bytes of a tag: its header, and as many as its length says. -/
def HwaTag.extent (tag : Ptr) : Block := ⟨tag, max T.sizeOf (T.sizeAt memory tag)⟩

/-- The iteration of a table: it ends, by a panic or when there is nothing left; headers and elements lie in
the table; an element does not overlap the one before it; and there is nothing after nothing. -/
structure Iterates (table : Block) (it : HwaIter) : Prop where
  ends : ∃ n, ∀ it' ∈ it.after T memory n, it'.Done T memory
  headers : ∀ n, ∀ it' ∈ it.after T memory n, it'.Reads → (⟨it'.addr, T.sizeOf⟩ : Block).Within table
  elements : ∀ n, ∀ it₁ ∈ it.after T memory n, ∀ it₂, it₁.Yields T memory it₂ →
    (T.extent memory it₁.addr).Within table
  successive : ∀ n, ∀ it₁ ∈ it.after T memory n, ∀ it₂ it₃, it₁.Yields T memory it₂ →
    it₂.Yields T memory it₃ → (T.extent memory it₁.addr).Disjoint (T.extent memory it₂.addr)
  fused : ∀ n, ∀ it₁ ∈ it.after T memory n, it₁.Done T memory →
    ∀ k, ∃ it₂ ∈ it₁.after T memory k, it₂.Done T memory

end Model

variable {T : HwaTag} {memory : ℕ → UInt8} {it it' it'' : HwaIter} {table : Block} {a n : ℕ}

/-! ### One call -/

/-- A call returns an element for the tag at the address. -/
def Accepts (T : HwaTag) (memory : ℕ → UInt8) (stop a : ℕ) : Prop :=
  a < stop ∧ a ≠ null ∧ (a + T.sizeAt memory a) % usizeMod ≤ stop ∧ (T.elemAt memory a).isSome

instance (T : HwaTag) (memory : ℕ → UInt8) (stop a : ℕ) : Decidable (Accepts T memory stop a) :=
  inferInstanceAs (Decidable (_ ∧ _ ∧ _ ∧ _))

/-- The address of the tag after the tag at the address. -/
def behind (T : HwaTag) (memory : ℕ → UInt8) (align a : ℕ) : ℕ :=
  roundUp ((a + T.sizeAt memory a) % usizeMod) align

namespace HwaIter

theorem next_of_end (h : it.end_ ≤ it.addr) : it.next T memory = some (none, it) := if_pos h

/-- What a call does: it panics, or returns nothing and is at the end, or returns an element. -/
theorem next_cases (T : HwaTag) (memory : ℕ → UInt8) (it : HwaIter) :
    it.next T memory = none ∧ ¬ Accepts T memory it.end_ it.addr ∨
    (∃ it', it.next T memory = some (none, it') ∧ it'.end_ ≤ it'.addr) ∧
      ¬ Accepts T memory it.end_ it.addr ∨
    (∃ e, it.next T memory = some (some e, { it with addr := behind T memory it.align it.addr })) ∧
      Accepts T memory it.end_ it.addr := by
  unfold next Accepts
  by_cases hend : it.end_ ≤ it.addr
  · exact .inr (.inl ⟨⟨it, if_pos hend, hend⟩, fun h => absurd h.1 (by omega)⟩)
  rw [if_neg hend]
  by_cases hnull : it.addr = null
  · exact .inl ⟨by rw [hnull, asRef_null]; rfl, fun h => h.2.1 hnull⟩
  simp only [asRef_of_ne hnull, Option.bind_eq_bind, Option.bind_some]
  by_cases hover : it.end_ < (it.addr + T.sizeAt memory it.addr) % usizeMod
  · exact .inr (.inl ⟨⟨_, if_pos hover, hover.le⟩, fun h => absurd h.2.2.1 (by omega)⟩)
  rw [if_neg hover]
  cases helem : T.elemAt memory it.addr with
  | none => exact .inl ⟨rfl, fun h => by simp at h⟩
  | some e => exact .inr (.inr ⟨⟨e, rfl⟩, by omega, hnull, by omega, rfl⟩)

theorem yields_iff : it.Yields T memory it' ↔
    Accepts T memory it.end_ it.addr ∧ it' = { it with addr := behind T memory it.align it.addr } := by
  unfold Yields
  rcases next_cases T memory it with ⟨hnext, hno⟩ | ⟨⟨it₁, hnext, -⟩, hno⟩ | ⟨⟨e, hnext⟩, hyes⟩
  · simp [hnext, hno]
  · simp [hnext, hno]
  · simp only [hnext, hyes, true_and, Option.some.injEq, Prod.mk.injEq]
    exact ⟨fun ⟨_, _, h⟩ => h.symm, fun h => ⟨e, rfl, h.symm⟩⟩

/-- Nothing changes at the end. -/
theorem after_of_end (h : it.end_ ≤ it.addr) (n : ℕ) : it.after T memory n = some it := by
  induction n with
  | zero => rfl
  | succ n ih => rw [after, next_of_end h, Option.bind_some, ih]

theorem after_succ (h : it.Yields T memory it') (n : ℕ) :
    it.after T memory (n + 1) = it'.after T memory n := by
  obtain ⟨e, he⟩ := h
  rw [after, he, Option.bind_some]

/-- After a call that returns no element the iterator is at the end. -/
theorem end_of_not_accepts (h : ¬ Accepts T memory it.end_ it.addr) (n : ℕ) :
    ∀ it' ∈ it.after T memory (n + 1), it'.end_ ≤ it'.addr := by
  intro it' hit'
  rcases next_cases T memory it with ⟨hnext, -⟩ | ⟨⟨it₁, hnext, hend⟩, -⟩ | ⟨-, hyes⟩
  · rw [after, hnext] at hit'
    cases hit'
  · rw [after, hnext, Option.bind_some, after_of_end hend] at hit'
    cases hit'
    exact hend
  · exact absurd hyes h

theorem Done.not_accepts (h : it.Done T memory) : ¬ Accepts T memory it.end_ it.addr := by
  intro hacc
  obtain ⟨it', h⟩ := h
  obtain ⟨e, he⟩ := yields_iff.2 ⟨hacc, rfl⟩
  rw [h] at he
  cases he

/-- Nothing comes after nothing. -/
theorem Done.after (h : it.Done T memory) (k : ℕ) : ∃ it' ∈ it.after T memory k, it'.Done T memory := by
  cases k with
  | zero => exact ⟨it, rfl, h⟩
  | succ k =>
    obtain ⟨it', h⟩ := h
    rcases next_cases T memory it with ⟨hnext, -⟩ | ⟨⟨it₁, hnext, hend⟩, -⟩ | ⟨⟨e, hnext⟩, -⟩
    · rw [h] at hnext
      cases hnext
    · refine ⟨it₁, ?_, it₁, next_of_end hend⟩
      rw [HwaIter.after, hnext, Option.bind_some, after_of_end hend]
      rfl
    · rw [h] at hnext
      cases hnext

end HwaIter

open HwaIter

/-- What comes after an element. -/
theorem Iterates.tail (h : Iterates T memory table it) (hy : it.Yields T memory it') :
    Iterates T memory table it' := by
  have hsucc := fun n => after_succ hy n
  constructor
  case ends =>
    obtain ⟨n, hn⟩ := h.ends
    cases n with
    | zero => exact absurd (yields_iff.1 hy).1 (hn it rfl).not_accepts
    | succ n => exact ⟨n, hsucc n ▸ hn⟩
  case headers => exact fun n => hsucc n ▸ h.headers (n + 1)
  case elements => exact fun n => hsucc n ▸ h.elements (n + 1)
  case successive => exact fun n => hsucc n ▸ h.successive (n + 1)
  case fused => exact fun n => hsucc n ▸ h.fused (n + 1)

/-- An element, and what comes after it. -/
theorem Iterates.cons (h : Iterates T memory table it') (hy : it.Yields T memory it')
    (hread : (⟨it.addr, T.sizeOf⟩ : Block).Within table) (hin : (T.extent memory it.addr).Within table)
    (hdisj : ∀ it'', it'.Yields T memory it'' →
      (T.extent memory it.addr).Disjoint (T.extent memory it'.addr)) : Iterates T memory table it := by
  have hsucc := fun n => after_succ hy n
  constructor
  case ends =>
    obtain ⟨n, hn⟩ := h.ends
    exact ⟨n + 1, (hsucc n).symm ▸ hn⟩
  case headers =>
    intro n
    cases n with
    | zero => rintro _ ⟨⟩ -; exact hread
    | succ n => exact (hsucc n).symm ▸ h.headers n
  case elements =>
    intro n
    cases n with
    | zero => rintro _ ⟨⟩ it' -; exact hin
    | succ n => exact (hsucc n).symm ▸ h.elements n
  case successive =>
    intro n
    cases n with
    | zero =>
      rintro _ ⟨⟩ it₂ it₃ h₂ h₃
      obtain ⟨-, rfl⟩ := yields_iff.1 hy
      obtain ⟨-, rfl⟩ := yields_iff.1 h₂
      exact hdisj it₃ h₃
    | succ n => exact (hsucc n).symm ▸ h.successive n
  case fused => exact fun _ it₁ _ hdone => hdone.after

/-- An iteration that returns no element. -/
theorem iterates_of_not_accepts (hno : ¬ Accepts T memory it.end_ it.addr)
    (hread : it.Reads → (⟨it.addr, T.sizeOf⟩ : Block).Within table) : Iterates T memory table it := by
  have hlater : ∀ n, ∀ it' ∈ it.after T memory n, it' = it ∨ it'.end_ ≤ it'.addr := by
    intro n it' hit'
    cases n with
    | zero => exact .inl (Option.some.inj hit').symm
    | succ n => exact .inr (end_of_not_accepts hno n it' hit')
  have hnone : ∀ n, ∀ it' ∈ it.after T memory n, ¬ Accepts T memory it'.end_ it'.addr := by
    intro n it' hit' hacc
    rcases hlater n it' hit' with rfl | hend
    · exact hno hacc
    · exact absurd hacc.1 (by omega)
  constructor
  case ends => exact ⟨1, fun it' hit' => ⟨it', next_of_end (end_of_not_accepts hno 0 it' hit')⟩⟩
  case headers =>
    intro n it' hit' hreads
    rcases hlater n it' hit' with rfl | hend
    · exact hread hreads
    · exact absurd hreads.1 (by omega)
  case elements => exact fun n it₁ h₁ it₂ hy => absurd (yields_iff.1 hy).1 (hnone n it₁ h₁)
  case successive => exact fun n it₁ h₁ it₂ it₃ hy => absurd (yields_iff.1 hy).1 (hnone n it₁ h₁)
  case fused => exact fun _ it₁ _ hdone => hdone.after

/-- In a right iteration the bytes that an element refers to lie in the table. -/
theorem Iterates.data_within (h : Iterates T memory table it) (hfits : table.addr + table.size ≤ usizeMod)
    {it₁ it₂ : HwaIter} (h₁ : it₁ ∈ it.after T memory n) {e : T.Elem}
    (he : it₁.next T memory = some (some e, it₂)) : ∀ b ∈ T.data e, b.Within table := by
  have hin := h.elements n it₁ h₁ it₂ ⟨e, he⟩
  have hpos : 0 < (T.extent memory it₁.addr).size := lt_max_of_lt_left T.sizeOf_pos
  obtain ⟨-, hle⟩ := (Block.within_iff hpos).1 hin
  obtain ⟨hacc, -⟩ := yields_iff.1 ⟨e, he⟩
  have helem : T.elemAt memory it₁.addr = some e := by
    obtain ⟨hlt, hnull, hover, -⟩ := hacc
    simp only [next, if_neg (not_le.2 hlt), asRef_of_ne hnull, Option.bind_eq_bind, Option.bind_some,
      if_neg (not_lt.2 hover), Option.bind_eq_some_iff] at he
    obtain ⟨e', he', heq⟩ := he
    cases heq
    exact he'
  exact fun b hb x hx => hin x (T.data_within helem (hle.trans hfits) b hb x hx)

/-! ### The layout of a table -/

/-- The next tag begins behind the header; where the machine wraps as it rounds up, the next tag ends before
this one begins. -/
def Clear (T : HwaTag) (memory : ℕ → UInt8) (align a : ℕ) : Prop :=
  if a + T.sizeAt memory a + align ≤ usizeMod then a + T.sizeOf ≤ behind T memory align a
  else behind T memory align a + max T.sizeOf (T.sizeAt memory (behind T memory align a)) ≤ a

/-- The tags from an address on, up to one that no element is returned for: there is room for each header
that is read, no length wraps, and each element is clear of the next. -/
inductive Laid (T : HwaTag) (memory : ℕ → UInt8) (start stop align : ℕ) : ℕ → Prop
  | last {a : ℕ} (room : a < stop → a ≠ null → start ≤ a ∧ a + T.sizeOf ≤ stop)
      (hno : ¬ Accepts T memory stop a) : Laid T memory start stop align a
  | next {a : ℕ} (room : start ≤ a ∧ a + T.sizeOf ≤ stop) (hacc : Accepts T memory stop a)
      (fits : a + T.sizeAt memory a < usizeMod)
      (clear : Accepts T memory stop (behind T memory align a) → Clear T memory align a)
      (rest : Laid T memory start stop align (behind T memory align a)) : Laid T memory start stop align a

variable {start size stop align : ℕ}

/-- To be clear of the next tag is not to overlap it. -/
theorem clear_iff (halign : align < usizeMod) (hfits : a + T.sizeAt memory a < usizeMod) :
    Clear T memory align a ↔
      (T.extent memory a).Disjoint (T.extent memory (behind T memory align a)) := by
  have hpos := T.sizeOf_pos
  rw [Block.disjoint_iff (lt_max_of_lt_left hpos) (lt_max_of_lt_left hpos)]
  unfold Clear HwaTag.extent
  simp only
  have hbehind : behind T memory align a = roundUp (a + T.sizeAt memory a) align := by
    rw [behind, Nat.mod_eq_of_lt hfits]
  split_ifs with hwrap
  · have hge : a + T.sizeAt memory a ≤ behind T memory align a := by
      rw [hbehind]
      unfold roundUp
      split_ifs with h0
      · exact le_alignUp_of_le (Nat.pos_of_ne_zero h0) hwrap
      · exact le_rfl
    omega
  · have hlt : behind T memory align a < a + T.sizeAt memory a := by
      rw [hbehind, roundUp, if_pos (by omega)]
      exact alignUp_lt_of_lt hfits halign (by omega)
    omega

/-- The iteration of a table is right if and only if its tags are laid out right. -/
theorem iterates_iff_laid (halign : align < usizeMod) (hstop : stop = table.addr + table.size)
    (hlt : stop < usizeMod) :
    Iterates T memory table ⟨a, stop, align⟩ ↔ Laid T memory table.addr stop align a := by
  have hhead : ∀ {b}, (⟨b, T.sizeOf⟩ : Block).Within table ↔ table.addr ≤ b ∧ b + T.sizeOf ≤ stop := by
    intro b
    rw [Block.within_iff T.sizeOf_pos, hstop]
  have hext : ∀ {b}, (T.extent memory b).Within table ↔
      table.addr ≤ b ∧ b + max T.sizeOf (T.sizeAt memory b) ≤ stop := by
    intro b
    rw [Block.within_iff (lt_max_of_lt_left T.sizeOf_pos), hstop]
    rfl
  constructor
  · intro h
    obtain ⟨n, hn⟩ := h.ends
    induction n generalizing a with
    | zero => exact .last (fun hlt hne => hhead.1 (h.headers 0 _ rfl ⟨hlt, hne⟩)) (hn _ rfl).not_accepts
    | succ n ih =>
      have hread := fun hlt hne => hhead.1 (h.headers 0 _ rfl ⟨hlt, hne⟩)
      by_cases hacc : Accepts T memory stop a
      · have hy : (⟨a, stop, align⟩ : HwaIter).Yields T memory ⟨behind T memory align a, stop, align⟩ :=
          yields_iff.2 ⟨hacc, rfl⟩
        obtain ⟨-, hin⟩ : _ ∧ a + max T.sizeOf (T.sizeAt memory a) ≤ stop :=
          hext.1 (h.elements 0 _ rfl _ hy)
        have hfits : a + T.sizeAt memory a < usizeMod := by omega
        refine .next (hread hacc.1 hacc.2.1) hacc hfits (fun hnext => ?_)
          (ih (h.tail hy) (after_succ hy n ▸ hn))
        exact (clear_iff halign hfits).2 (h.successive 0 _ rfl _ _ hy (yields_iff.2 ⟨hnext, rfl⟩))
      · exact .last hread hacc
  · intro h
    induction h with
    | last room hno =>
      exact iterates_of_not_accepts hno fun hreads => hhead.2 (room hreads.1 hreads.2)
    | @next a room hacc fits clear rest ih =>
      have hend : a + max T.sizeOf (T.sizeAt memory a) ≤ stop := by
        have := hacc.2.2.1
        rw [Nat.mod_eq_of_lt fits] at this
        omega
      exact ih.cons (yields_iff.2 ⟨hacc, rfl⟩) (hhead.2 room) (hext.2 ⟨room.1, hend⟩)
        fun it'' hy => (clear_iff halign fits).1 (clear (yields_iff.1 hy).1)

/-- **The iteration of a table is right if and only if its tags are laid out right.** -/
theorem HwaIter.iterates_iff (T : HwaTag) (memory : ℕ → UInt8) (start : ℕ) (hsize : size < usizeMod)
    (halign : align < usizeMod) :
    Iterates T memory ⟨start, size⟩ (fromAlign start size align) ↔
      Laid T memory start ((start + size) % usizeMod) align start := by
  by_cases hfits : start + size < usizeMod
  · exact iterates_iff_laid halign (Nat.mod_eq_of_lt hfits) (Nat.mod_lt _ (by decide))
  · -- the end wraps, and lies before the start
    have hend : (start + size) % usizeMod ≤ start := by
      rcases lt_or_ge start usizeMod with hs | hs
      · rw [Nat.mod_eq_sub_mod (by omega), Nat.mod_eq_of_lt (by omega)]
        omega
      · exact (Nat.mod_lt _ (by decide)).le.trans hs
    have hno : ¬ Accepts T memory ((start + size) % usizeMod) start := fun h => absurd h.1 (by omega)
    exact iff_of_true (iterates_of_not_accepts hno fun h => absurd h.1 (not_lt.2 hend))
      (.last (fun h => absurd h (not_lt.2 hend)) hno)

/-- A MADT entry for one processor, at address 100. -/
def madtEntry (a : ℕ) : UInt8 := if a = 101 then 8 else 0

theorem HwaIter.madtEntry_iterates :
    0 < usizeMod ∧ Iterates MadtTag madtEntry ⟨100, 8⟩ (fromAlign 100 8 0) := by
  refine ⟨by decide, (iterates_iff MadtTag madtEntry 100 (by decide) (by decide)).2 ?_⟩
  apply Laid.next ⟨le_rfl, by decide⟩ (by decide) (by decide)
  · exact fun h => absurd h (by decide)
  · exact .last (fun h => absurd h (by decide)) (by decide)

/-- Multiboot tags of type 1 and of length zero. -/
def zeroTag (a : ℕ) : UInt8 := if a % 8 = 0 then 1 else 0

/-- A tag of length zero is returned again by every call. -/
theorem HwaIter.zeroTag_not_iterates :
    ¬ Iterates TagHeader zeroTag ⟨8, 8⟩ (fromAlign 8 8 8) := by
  intro h
  have hy : (fromAlign 8 8 8).Yields TagHeader zeroTag (fromAlign 8 8 8) := ⟨Mb2Elem.other 8, rfl⟩
  have hafter : ∀ n, (fromAlign 8 8 8).after TagHeader zeroTag n = some (fromAlign 8 8 8) := by
    intro n
    induction n with
    | zero => rfl
    | succ n ih => rw [after_succ hy, ih]
  obtain ⟨n, hn⟩ := h.ends
  exact (hn _ (hafter n)).not_accepts (yields_iff.1 hy).1

end AuroraOs
