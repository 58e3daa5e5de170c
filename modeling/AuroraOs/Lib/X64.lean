import AuroraOs.Lib.Bytes

/-!
# A processor

The part of the 64-bit processor that entry code uses: the general registers, memory, the two bases of `gs`, and
what an interrupt puts aside.  A program is a list of instructions that jumps forward to
labels.  A called function does to the state whatever `callee` says that the function at this address does.

Status flags are known after a comparison only; instructions that change them otherwise leave them unknown.
-/

namespace X64

open Bytes

abbrev Word := BitVec 64

inductive Reg
  | rax | rbx | rcx | rdx | rsp | rbp | rsi | rdi
  | r8 | r9 | r10 | r11 | r12 | r13 | r14 | r15
  deriving DecidableEq

structure State where
  reg : Reg → Word
  mem : Memory 64
  rip : Word
  rflags : Word
  cs : BitVec 16
  ss : BitVec 16
  gsBase : Word
  kernelGsBase : Word
  compared : Option (Word × Word)

/-! ### Memory -/

def load (m : Memory 64) (a : Word) : Word := BitVec.ofNat 64 (read m a 8)

def store (m : Memory 64) (a v : Word) : Memory 64 := write m a 8 v.toNat

def load16 (m : Memory 64) (a : Word) : BitVec 16 := BitVec.ofNat 16 (read m a 2)

def store16 (m : Memory 64) (a : Word) (v : BitVec 16) : Memory 64 := write m a 2 v.toNat

/-! ### Instructions -/

/-- `[base + offset]` is a place in memory; `L` are the labels. -/
inductive Instr (L : Type)
  | mov (dst src : Reg)
  | movImm (dst : Reg) (value : ℕ)
  | load (dst base : Reg) (offset : ℕ)
  | store (base : Reg) (offset : ℕ) (src : Reg)
  | load16 (dst base : Reg) (offset : ℕ)
  | store16 (base : Reg) (offset : ℕ) (src : Reg)
  | add (dst : Reg) (value : ℕ)
  | sub (dst : Reg) (value : ℕ)
  | cmp (left : Reg) (value : ℕ)
  | je (label : L)
  | label (label : L)
  | call (target : Reg)
  | iretq

namespace State

/-- A register gets a value. -/
def set (s : State) (r : Reg) (v : Word) : State := { s with reg := Function.update s.reg r v }

/-- The flags that an instruction leaves are not known. -/
def blur (s : State) : State := { s with compared := none }

/-- The address of an operand. -/
def at_ (s : State) (base : Reg) (offset : ℕ) : Word := s.reg base + BitVec.ofNat 64 offset

def push (s : State) (v : Word) : State :=
  let a := s.reg .rsp - 8
  { s.set .rsp a with mem := X64.store s.mem a v }

/-- The interrupt flag. -/
def IF : Word := 0x200

/-- What `iretq` takes from the stack. -/
def iretq (s : State) : State :=
  { s.set .rsp (X64.load s.mem (s.at_ .rsp 24)) with
    rip := X64.load s.mem (s.at_ .rsp 0)
    cs := X64.load16 s.mem (s.at_ .rsp 8)
    rflags := X64.load s.mem (s.at_ .rsp 16)
    ss := X64.load16 s.mem (s.at_ .rsp 32) }

/-- An interrupt in the given state, handled on the given stack: what `iretq` takes later is put there, with an
error code below it for some interrupts. -/
def interrupt (s : State) (stack : Word) (cs ss : BitVec 16) (errorCode : Option Word) : State :=
  let frame := s.set .rsp stack
  let frame := ((((frame.push (s.ss.setWidth 64)).push (s.reg .rsp)).push s.rflags).push (s.cs.setWidth 64)).push s.rip
  let frame := match errorCode with
    | none => frame
    | some code => frame.push code
  { frame with cs := cs, ss := ss, rflags := s.rflags &&& ~~~IF }

end State

/-! ### Programs -/

/-- The program goes on with the next instruction, or behind a label, or it ends. -/
inductive Outcome (L : Type)
  | next (s : State)
  | jump (label : L) (s : State)
  | done (s : State)

/-- Code that is not in the program. -/
structure Setup where
  /-- what the function at an address does, from its call to its return -/
  callee : Word → State → Option State

variable {L : Type}

/-- One instruction. -/
def Instr.exec (K : Setup) (s : State) : Instr L → Option (Outcome L)
  | .mov dst src => some (.next (s.set dst (s.reg src)))
  | .movImm dst value => some (.next (s.set dst (BitVec.ofNat 64 value)))
  | .load dst base offset => some (.next (s.set dst (X64.load s.mem (s.at_ base offset))))
  | .store base offset src => some (.next { s with mem := X64.store s.mem (s.at_ base offset) (s.reg src) })
  | .load16 dst base offset =>
      let low := (X64.load16 s.mem (s.at_ base offset)).setWidth 64
      some (.next (s.set dst (s.reg dst &&& ~~~0xffff ||| low)))
  | .store16 base offset src =>
      some (.next { s with mem := X64.store16 s.mem (s.at_ base offset) ((s.reg src).setWidth 16) })
  | .add dst value => some (.next (s.set dst (s.reg dst + BitVec.ofNat 64 value)).blur)
  | .sub dst value => some (.next (s.set dst (s.reg dst - BitVec.ofNat 64 value)).blur)
  | .cmp left value => some (.next { s with compared := some (s.reg left, BitVec.ofNat 64 value) })
  | .je l => s.compared.map fun c => if c.1 = c.2 then .jump l s else .next s
  | .label _ => some (.next s)
  | .call target => (K.callee (s.reg target) s).map .next
  | .iretq => some (.done s.iretq)

/-- This instruction is the label. -/
def Instr.isLabel [DecidableEq L] (l : L) : Instr L → Bool
  | .label l' => decide (l = l')
  | _ => false

/-- A program, from its first instruction on or from behind a label. -/
def run [DecidableEq L] (K : Setup) : Option L → List (Instr L) → State → Option State
  | none, [], s => some s
  | some _, [], _ => none
  | none, i :: is, s =>
      match i.exec K s with
      | none => none
      | some (.next s) => run K none is s
      | some (.jump l s) => run K (some l) is s
      | some (.done s) => some s
  | some l, i :: is, s => if i.isLabel l then run K none is s else run K (some l) is s

/-- Instructions that are carried out one after the other. -/
def block (K : Setup) : List (Instr L) → State → Option State
  | [], s => some s
  | i :: is, s =>
      match i.exec K s with
      | some (.next s) => block K is s
      | _ => none

variable [DecidableEq L] {K : Setup} {is js : List (Instr L)} {s t : State} {l : L}

/-- **A block, and what comes after it.** -/
theorem run_block (h : block K is s = some t) : run K none (is ++ js) s = run K none js t := by
  induction is generalizing s with
  | nil =>
    obtain rfl := Option.some.inj h
    rfl
  | cons i is ih =>
    rw [block] at h
    rw [List.cons_append, run]
    cases hi : i.exec K s with
    | none => simp [hi] at h
    | some o =>
      cases o with
      | next s' =>
        rw [hi] at h
        exact ih h
      | jump l s' => simp [hi] at h
      | done s' => simp [hi] at h

omit [DecidableEq L] in
theorem block_cons {i : Instr L} (h : i.exec K s = some (.next t)) : block K (i :: is) s = block K is t := by
  rw [block, h]

omit [DecidableEq L] in
theorem block_append (h : block K is s = some t) : block K (is ++ js) s = block K js t := by
  induction is generalizing s with
  | nil =>
    obtain rfl := Option.some.inj h
    rfl
  | cons i is ih =>
    rw [block] at h
    rw [List.cons_append, block]
    cases hi : i.exec K s with
    | none => simp [hi] at h
    | some o =>
      cases o with
      | next s' =>
        rw [hi] at h
        exact ih h
      | jump l s' => simp [hi] at h
      | done s' => simp [hi] at h

/-- A comparison that decides where to go on. -/
theorem run_cmp_je {r : Reg} {n : ℕ} : run K none (.cmp r n :: .je l :: js) s =
    if s.reg r = BitVec.ofNat 64 n then run K (some l) js { s with compared := some (s.reg r, BitVec.ofNat 64 n) }
    else run K none js { s with compared := some (s.reg r, BitVec.ofNat 64 n) } := by
  rw [run, Instr.exec]
  show run K none (.je l :: js) _ = _
  rw [run, Instr.exec, Option.map_some]
  by_cases h : s.reg r = BitVec.ofNat 64 n
  · rw [if_pos h, if_pos h]
  · rw [if_neg h, if_neg h]

/-- What is skipped on the way to a label. -/
theorem run_skip (h : ∀ i ∈ is, i.isLabel l = false) : run K (some l) (is ++ js) s = run K (some l) js s := by
  induction is with
  | nil => rfl
  | cons i is ih =>
    rw [List.forall_mem_cons] at h
    rw [List.cons_append, run, h.1]
    exact ih h.2

/-! ### Registers -/

namespace State

variable {r r' : Reg} {v w : Word}

@[simp] theorem reg_set_self : (s.set r v).reg r = v := by
  unfold set
  exact Function.update_self r v s.reg

theorem reg_set_of_ne (h : r' ≠ r) : (s.set r v).reg r' = s.reg r' := by
  unfold set
  exact Function.update_of_ne h v s.reg

theorem reg_set : (s.set r v).reg r' = if r' = r then v else s.reg r' := by
  split_ifs with h
  · rw [h, reg_set_self]
  · exact reg_set_of_ne h

@[simp] theorem mem_set : (s.set r v).mem = s.mem := rfl

@[simp] theorem reg_blur : s.blur.reg = s.reg := rfl

@[simp] theorem mem_blur : s.blur.mem = s.mem := rfl

end State

omit [DecidableEq L] in
/-- Registers are stored in a structure. -/
theorem block_stores {base : Reg} {offset : Reg → ℕ} {rs : List Reg} :
    block K (rs.map fun r => (.store base (offset r) r : Instr L)) s =
      some { s with mem := storeAll (s.reg base) (rs.map fun r => ⟨offset r, 8, (s.reg r).toNat⟩) s.mem } := by
  induction rs generalizing s with
  | nil => rfl
  | cons r rs ih => exact ih

/-- Some registers get the words of a structure. -/
def State.loads (s : State) (base : Reg) (offset : Reg → ℕ) (rs : List Reg) : State :=
  { s with reg := fun r => if r ∈ rs then X64.load s.mem (s.at_ base (offset r)) else s.reg r }

section Loads

variable {base r : Reg} {offset : Reg → ℕ} {rs : List Reg}

theorem State.reg_loads_of_mem (h : r ∈ rs) : (s.loads base offset rs).reg r = X64.load s.mem (s.at_ base (offset r)) :=
  if_pos h

theorem State.reg_loads_of_not_mem (h : r ∉ rs) : (s.loads base offset rs).reg r = s.reg r := if_neg h

omit [DecidableEq L] in
/-- Registers are loaded from a structure. -/
theorem block_loads (hbase : base ∉ rs) :
    block K (rs.map fun r => (.load r base (offset r) : Instr L)) s = some (s.loads base offset rs) := by
  induction rs generalizing s with
  | nil => simp [block, State.loads]
  | cons r rs ih =>
    rw [List.mem_cons, not_or] at hbase
    obtain ⟨hne, hrs⟩ := hbase
    rw [List.map_cons, block, Instr.exec]
    refine (ih hrs).trans (congrArg some ?_)
    have hat : ∀ k, (s.set r (load s.mem (s.at_ base (offset r)))).at_ base k = s.at_ base k := fun k =>
      congrArg (· + BitVec.ofNat 64 k) (State.reg_set_of_ne hne)
    simp only [State.loads, hat, State.mem_set]
    refine congrArg (fun reg => ({ s with reg := reg } : State)) (funext fun r' => ?_)
    by_cases hmem : r' ∈ rs
    · rw [if_pos hmem, if_pos (List.mem_cons_of_mem _ hmem)]
    · rw [if_neg hmem]
      by_cases heq : r' = r
      · rw [heq, State.reg_set_self, if_pos List.mem_cons_self]
      · rw [State.reg_set_of_ne heq, if_neg fun h => (List.mem_cons.1 h).elim heq hmem]

end Loads

/-! ### Words at distances from a base -/

/-- A word of a structure. -/
def word (offset : ℕ) (v : Word) : Field := ⟨offset, 8, v.toNat⟩

/-- A short word of a structure. -/
def half (offset : ℕ) (v : BitVec 16) : Field := ⟨offset, 2, v.toNat⟩

section Base

variable {b v : Word} {v16 : BitVec 16} {m : Memory 64} {fs : List Field} {o k : ℕ} {r : Reg}

theorem load_word (h : Disjoint 64 (fs.map Field.place)) (hf : word o v ∈ fs) :
    load (storeAll b fs m) (b + BitVec.ofNat 64 o) = v := by
  have hread : read (storeAll b fs m) (b + BitVec.ofNat 64 o) 8 = v.toNat % 256 ^ 8 :=
    @read_storeAll 64 m b 8 fs (word o v) h hf (by decide : 8 ≤ 2 ^ 64) le_rfl
  rw [load, hread, show 256 ^ 8 = 2 ^ 64 by norm_num, Nat.mod_eq_of_lt v.isLt, BitVec.ofNat_toNat, BitVec.setWidth_eq]

theorem load16_half (h : Disjoint 64 (fs.map Field.place)) (hf : half o v16 ∈ fs) :
    load16 (storeAll b fs m) (b + BitVec.ofNat 64 o) = v16 := by
  have hread : read (storeAll b fs m) (b + BitVec.ofNat 64 o) 2 = v16.toNat % 256 ^ 2 :=
    @read_storeAll 64 m b 2 fs (half o v16) h hf (by decide : 2 ≤ 2 ^ 64) le_rfl
  rw [load16, hread, show 256 ^ 2 = 2 ^ 16 by norm_num, Nat.mod_eq_of_lt v16.isLt, BitVec.ofNat_toNat, BitVec.setWidth_eq]

/-- The low half of a word. -/
theorem load16_word (h : Disjoint 64 (fs.map Field.place)) (hf : word o v ∈ fs) :
    load16 (storeAll b fs m) (b + BitVec.ofNat 64 o) = v.setWidth 16 := by
  have hread : read (storeAll b fs m) (b + BitVec.ofNat 64 o) 2 = v.toNat % 256 ^ 2 :=
    @read_storeAll 64 m b 2 fs (word o v) h hf (by decide : 8 ≤ 2 ^ 64) (by decide : 2 ≤ 8)
  rw [load16, hread]
  exact BitVec.eq_of_toNat_eq (by simp)

theorem load_apart (h : ∀ p ∈ fs.map Field.place, Apart 64 o 8 p.1 p.2) :
    load (storeAll b fs m) (b + BitVec.ofNat 64 o) = load m (b + BitVec.ofNat 64 o) :=
  congrArg (BitVec.ofNat 64) (read_storeAll_of_apart h)

theorem load16_apart (h : ∀ p ∈ fs.map Field.place, Apart 64 o 2 p.1 p.2) :
    load16 (storeAll b fs m) (b + BitVec.ofNat 64 o) = load16 m (b + BitVec.ofNat 64 o) :=
  congrArg (BitVec.ofNat 16) (read_storeAll_of_apart h)

theorem State.at_eq {s : State} (h : s.reg r = b + BitVec.ofNat 64 o) : s.at_ r k = b + BitVec.ofNat 64 (o + k) := by
  rw [State.at_, h, BitVec.add_assoc, BitVec.ofNat_add]

theorem sub_offset (h : k ≤ o) : b + BitVec.ofNat 64 o - BitVec.ofNat 64 k = b + BitVec.ofNat 64 (o - k) := by
  rw [← Nat.sub_add_cancel h, BitVec.ofNat_add, ← BitVec.add_assoc, BitVec.add_sub_cancel, Nat.add_sub_cancel]

end Base

end X64
