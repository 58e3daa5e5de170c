import AuroraOs.Int.Idt
import AuroraOs.Lib.X64

/-!
# Interrupt entry

The handlers of `kernel/src/arch/x64/int/int.asm`, which save the registers of what was interrupted in a
`Registers` structure on the stack, call `rust_int_handler` with it, and go on with the registers that were saved
or with those that are in the structure then.
-/

namespace AuroraOs.IntEntry

open X64 Bytes

/-! ### The code -/

inductive Label
  | restore
  deriving DecidableEq

/-- `struc registers`: where a general register is. -/
def offset : Reg → ℕ
  | .rax => 0
  | .rbx => 8
  | .rcx => 16
  | .rdx => 24
  | .rbp => 32
  | .rsp => 40
  | .rdi => 64
  | .rsi => 72
  | .r8 => 80
  | .r9 => 88
  | .r10 => 96
  | .r11 => 104
  | .r12 => 112
  | .r13 => 120
  | .r14 => 128
  | .r15 => 136

/-- `registers.rflags`. -/
abbrev rflagsOffset : ℕ := 144

/-- `registers.rip`. -/
abbrev ripOffset : ℕ := 152

/-- `registers.cs`. -/
abbrev csOffset : ℕ := 160

/-- `registers.ss`. -/
abbrev ssOffset : ℕ := 162

/-- `registers_size`. -/
abbrev registersSize : ℕ := 164

/-- The registers that are saved, in order. -/
def savedRegs : List Reg := [.rax, .rbx, .rcx, .rdx, .rbp, .rdi, .rsi, .r8, .r9, .r10, .r11, .r12, .r13, .r14, .r15]

/-- `save_regs`. -/
def saveRegs : List (Instr Label) := .sub .rsp registersSize :: savedRegs.map fun r => .store .rsp (offset r) r

/-- `save_int_data_regs`. -/
def saveIntDataRegs (p : Reg) : List (Instr Label) :=
  [.load .rax p 0, .store .rsp ripOffset .rax,
    .load .rax p 8, .store16 .rsp csOffset .rax,
    .load .rax p 16, .store .rsp rflagsOffset .rax,
    .load .rax p 24, .store .rsp (offset .rsp) .rax,
    .load .rax p 32, .store16 .rsp ssOffset .rax]

/-- The registers that are loaded when they have changed, in order. -/
def newRegs : List Reg := [.rax, .rbx, .rcx, .rdx, .rbp, .rdi, .rsi, .r8, .r9, .r10, .r11, .r12, .r13, .r15, .r14]

/-- The frame of the interrupt is set from the structure. -/
def setFrame (p : Reg) : List (Instr Label) :=
  [.load .rax .rsp (offset .rsp), .store p 24 .rax,
    .load .rax .rsp ripOffset, .store p 0 .rax,
    .load .rax .rsp rflagsOffset, .store p 16 .rax,
    .movImm .rax 0, .load16 .rax .rsp ssOffset, .store p 32 .rax,
    .load16 .rax .rsp csOffset, .store p 8 .rax]

/-- `load_new_regs`. -/
def loadNewRegs (p : Reg) : List (Instr Label) := setFrame p ++ newRegs.map fun r => .load r .rsp (offset r)

/-- The registers that are loaded otherwise, in order; functions keep the others. -/
def oldRegs : List Reg := [.rax, .rcx, .rdx, .rdi, .rsi, .r8, .r9, .r10, .r11, .r14, .r15]

/-- `load_old_regs`. -/
def loadOldRegs : List (Instr Label) := oldRegs.map fun r => .load r .rsp (offset r)

/-- The frame of the interrupt is found, behind the error code if there is one. -/
def findFrame (hasError : Bool) : List (Instr Label) :=
  .mov .r15 .rsp :: .add .r15 registersSize :: if hasError then [.load .rdx .r15 0, .add .r15 8] else []

/-- The arguments of `rust_int_handler`. -/
def arguments (hasError : Bool) (vec rustIntHandler : ℕ) : List (Instr Label) :=
  .movImm .rdi vec :: .mov .rsi .rsp ::
    if hasError then [.movImm .rax rustIntHandler] else [.movImm .rdx 0, .movImm .rax rustIntHandler]

/-- An interrupt of a device is acknowledged. -/
def acknowledge (irq : Bool) (vec eoi : ℕ) : List (Instr Label) :=
  if irq then [.movImm .rdi vec, .movImm .rcx eoi, .call .rcx] else []

/-- The stack is left, with the error code. -/
def leave (hasError : Bool) : List (Instr Label) :=
  .add .rsp registersSize :: if hasError then [.add .rsp 8, .iretq] else [.iretq]

/-- A handler; some interrupts come with an error code, and some are acknowledged. -/
def asmHandler (hasError irq : Bool) (vec rustIntHandler eoi : ℕ) : List (Instr Label) :=
  List.flatten [saveRegs, findFrame hasError, saveIntDataRegs .r15, arguments hasError vec rustIntHandler,
    [.call .rax, .mov .r14 .rax], acknowledge irq vec eoi, [.cmp .r14 0, .je .restore], loadNewRegs .r15,
    leave hasError, [.label .restore], loadOldRegs, leave hasError]

/-- `make_asm_int_handler`. -/
def makeAsmIntHandler : ℕ → ℕ → ℕ → List (Instr Label) := asmHandler false false

/-- `make_asm_int_handler_e`. -/
def makeAsmIntHandlerE : ℕ → ℕ → ℕ → List (Instr Label) := asmHandler true false

/-- `make_asm_irq_handler`. -/
def makeAsmIrqHandler : ℕ → ℕ → ℕ → List (Instr Label) := asmHandler false true

/-! ### What is saved -/

/-- What the processor goes on with. -/
@[ext] structure Context where
  reg : Reg → Word
  rip : Word
  rflags : Word
  cs : BitVec 16
  ss : BitVec 16

def contextOf (s : State) : Context := ⟨s.reg, s.rip, s.rflags, s.cs, s.ss⟩

/-- The `Registers` structure in memory, without `call_rsp` and `call_save_rsp`. -/
def readContext (m : Memory 64) (b : Word) : Context where
  reg r := load m (b + BitVec.ofNat 64 (offset r))
  rip := load m (b + BitVec.ofNat 64 ripOffset)
  rflags := load m (b + BitVec.ofNat 64 rflagsOffset)
  cs := load16 m (b + BitVec.ofNat 64 csOffset)
  ss := load16 m (b + BitVec.ofNat 64 ssOffset)

/-! ### Up to the call -/

section Enter

variable {K : Setup} {s : State} {b : Word} {o : ℕ} {hasError : Bool} {code : Option Word}

/-- Where the frame of the interrupt is, above the structure. -/
def frameOffset (code : Option Word) : ℕ := if code.isSome then registersSize + 8 else registersSize

/-- What the processor puts on the stack. -/
def frameFields (s : State) (code : Option Word) : List Field :=
  let o := frameOffset code
  [word (o + 32) (s.ss.setWidth 64), word (o + 24) (s.reg .rsp), word (o + 16) s.rflags,
    word (o + 8) (s.cs.setWidth 64), word o s.rip] ++ (code.map (word registersSize)).toList

/-- Some fields are in memory, and `rsp` is at a distance from the base; apart from that, and from the other
registers that have changed, it is the first state. -/
structure OnStack (s t : State) (b : Word) (k : ℕ) (fs : List Field) (changed : List Reg) : Prop where
  rsp : t.reg .rsp = b + BitVec.ofNat 64 k
  kept : ∀ r, r ≠ .rsp → r ∉ changed → t.reg r = s.reg r
  mem : t.mem = storeAll b fs s.mem
  gsBase : t.gsBase = s.gsBase
  kernelGsBase : t.kernelGsBase = s.kernelGsBase

variable {t : State} {fs : List Field} {k : ℕ} {changed : List Reg}

theorem OnStack.push (h : OnStack s t b (k + 8) fs changed) (v : Word) :
    OnStack s (t.push v) b k (fs ++ [word k v]) changed := by
  have haddr : t.reg .rsp - 8 = b + BitVec.ofNat 64 k := by
    rw [h.rsp]
    exact (sub_offset (Nat.le_add_left 8 k)).trans (by rw [Nat.add_sub_cancel])
  have hrsp : (t.set .rsp (b + BitVec.ofNat 64 k)).reg .rsp = b + BitVec.ofNat 64 k := State.reg_set_self
  rw [State.push, haddr]
  exact ⟨hrsp, fun r hr hmem => (State.reg_set_of_ne hr).trans (h.kept r hr hmem),
    by rw [storeAll_append, ← h.mem]; rfl, h.gsBase, h.kernelGsBase⟩

/-- **The state that a handler starts in.** -/
theorem onStack_interrupt (s : State) (b : Word) (cs ss : BitVec 16) (code : Option Word) :
    OnStack s (s.interrupt (b + BitVec.ofNat 64 (frameOffset code + 40)) cs ss code) b registersSize
      (frameFields s code) [] := by
  have hstart : OnStack s (s.set .rsp (b + BitVec.ofNat 64 (frameOffset code + 40))) b (frameOffset code + 40) [] [] :=
    ⟨State.reg_set_self, fun r hr _ => State.reg_set_of_ne hr, rfl, rfl, rfl⟩
  have hframe := ((((hstart.push (s.ss.setWidth 64)).push (s.reg .rsp)).push s.rflags).push (s.cs.setWidth 64)).push s.rip
  cases code with
  | none => exact ⟨hframe.rsp, hframe.kept, hframe.mem, hframe.gsBase, hframe.kernelGsBase⟩
  | some code =>
    have hcode := @OnStack.push s b _ _ registersSize _ hframe code
    exact ⟨hcode.rsp, hcode.kept, hcode.mem, hcode.gsBase, hcode.kernelGsBase⟩

/-- The fields that `save_regs` stores. -/
def savedFields (s : State) : List Field := savedRegs.map fun r => word (offset r) (s.reg r)

theorem onStack_saveRegs (h : OnStack s t b registersSize fs []) :
    ∃ t', block K saveRegs t = some t' ∧ OnStack s t' b 0 (fs ++ savedFields s) [] := by
  have hrsp : t.reg .rsp - BitVec.ofNat 64 registersSize = b := by rw [h.rsp, BitVec.add_sub_cancel]
  have hfields : (savedRegs.map fun r => (⟨offset r, 8, ((t.set .rsp b).reg r).toNat⟩ : Field)) = savedFields s := by
    refine List.map_congr_left fun r hr => ?_
    have hne : r ≠ .rsp := by
      rintro rfl
      exact absurd hr (by decide)
    rw [State.reg_set_of_ne hne, h.kept r hne List.not_mem_nil]
    rfl
  refine ⟨{ t.set .rsp b with mem := storeAll b (savedFields s) t.mem, compared := none }, ?_, ?_⟩
  · rw [saveRegs, block, Instr.exec, hrsp]
    refine block_stores.trans ?_
    simp only [State.reg_blur, State.reg_set_self, State.mem_blur, State.mem_set, hfields]
    rfl
  · have hb : (t.set .rsp b).reg .rsp = b + BitVec.ofNat 64 0 := by rw [State.reg_set_self]; simp
    exact ⟨hb, fun r hr hmem => (State.reg_set_of_ne hr).trans (h.kept r hr hmem),
      by rw [storeAll_append, ← h.mem], h.gsBase, h.kernelGsBase⟩

theorem onStack_findFrame (h : OnStack s t b 0 fs []) (hcode : code.isSome = hasError)
    (herror : ∀ v ∈ code, load t.mem (b + BitVec.ofNat 64 registersSize) = v) :
    ∃ t', block K (findFrame hasError) t = some t' ∧ OnStack s t' b 0 fs [.r15, .rdx] ∧
      t'.reg .r15 = b + BitVec.ofNat 64 (frameOffset code) ∧ ∀ v ∈ code, t'.reg .rdx = v := by
  have hrsp : t.reg .rsp = b := by rw [h.rsp]; simp
  cases code with
  | none =>
    obtain rfl := hcode
    refine ⟨_, rfl, ⟨?_, fun r hr hmem => ?_, h.mem, h.gsBase, h.kernelGsBase⟩, ?_, fun v hv => nomatch hv⟩
    · simp [State.reg_set, hrsp]
    · simp only [List.mem_cons, not_or] at hmem
      simp [State.reg_set, hmem.1, h.kept r hr]
    · simp [hrsp, frameOffset]
  | some v =>
    obtain rfl := hcode
    refine ⟨_, rfl, ⟨?_, fun r hr hmem => ?_, h.mem, h.gsBase, h.kernelGsBase⟩, ?_, fun v' hv => ?_⟩
    · simp [State.reg_set, hrsp]
    · simp only [List.mem_cons, not_or] at hmem
      simp [State.reg_set, hmem.1, hmem.2.1, h.kept r hr]
    · simp [State.reg_set, hrsp, frameOffset, BitVec.ofNat_add, BitVec.add_assoc]
    · have hload : load t.mem (b + BitVec.ofNat 64 registersSize) = v' := herror v' hv
      simp [State.reg_set, State.at_, hrsp, hload]

/-- The fields that `save_int_data_regs` stores. -/
def intFields (s : State) : List Field :=
  [word ripOffset s.rip, half csOffset s.cs, word rflagsOffset s.rflags, word (offset .rsp) (s.reg .rsp),
    half ssOffset s.ss]

/-- A word is copied from one place to another. -/
theorem OnStack.copyWord {v : Word} {p q : Reg} {x y d : ℕ} (h : OnStack s t b 0 fs changed) (hrax : .rax ∈ changed)
    (hp : t.reg p = b + BitVec.ofNat 64 x) (hq : t.reg q = b + BitVec.ofNat 64 y) (hne : q ≠ .rax)
    (hload : load t.mem (b + BitVec.ofNat 64 (x + k)) = v) :
    ∃ t', block K [.load .rax p k, (.store q d .rax : Instr Label)] t = some t' ∧
      OnStack s t' b 0 (fs ++ [word (y + d) v]) changed ∧ ∀ r, r ≠ .rax → t'.reg r = t.reg r := by
  have hrsp : (t.set .rax v).reg .rsp = b + BitVec.ofNat 64 0 := (State.reg_set_of_ne (by decide)).trans h.rsp
  have hq' : (t.set .rax v).reg q = b + BitVec.ofNat 64 y := (State.reg_set_of_ne hne).trans hq
  have hfirst : Instr.exec K t (.load .rax p k : Instr Label) = some (.next (t.set .rax v)) := by
    rw [Instr.exec, State.at_eq hp, hload]
  have hsecond : Instr.exec K (t.set .rax v) (.store q d .rax : Instr Label) =
      some (.next { t.set .rax v with mem := storeAll b [word (y + d) v] t.mem }) := by
    rw [Instr.exec, State.at_eq hq', State.reg_set_self]
    rfl
  refine ⟨_, (block_cons hfirst).trans (block_cons hsecond), ⟨hrsp, fun r hr hmem => ?_, ?_, h.gsBase,
    h.kernelGsBase⟩, fun r hr => State.reg_set_of_ne hr⟩
  · have hne : r ≠ .rax := fun heq => hmem (by rw [heq]; exact hrax)
    exact (State.reg_set_of_ne hne).trans (h.kept r hr hmem)
  · rw [storeAll_append, ← h.mem]

/-- So is the low half of one. -/
theorem OnStack.copyHalf {v : BitVec 16} {d : ℕ} (h : OnStack s t b 0 fs changed) (hrax : .rax ∈ changed)
    (h15 : t.reg .r15 = b + BitVec.ofNat 64 o)
    (hload : load t.mem (b + BitVec.ofNat 64 (o + k)) = v.setWidth 64) :
    ∃ t', block K [.load .rax .r15 k, (.store16 .rsp d .rax : Instr Label)] t = some t' ∧
      OnStack s t' b 0 (fs ++ [half d v]) changed ∧ ∀ r, r ≠ .rax → t'.reg r = t.reg r := by
  have hrsp : (t.set .rax (v.setWidth 64)).reg .rsp = b := by
    rw [State.reg_set_of_ne (by decide), h.rsp]
    simp
  have hlow : (v.setWidth 64).setWidth 16 = v := by simp
  have hfirst : Instr.exec K t (.load .rax .r15 k : Instr Label) = some (.next (t.set .rax (v.setWidth 64))) := by
    rw [Instr.exec, State.at_eq h15, hload]
  have hsecond : Instr.exec K (t.set .rax (v.setWidth 64)) (.store16 .rsp d .rax : Instr Label) =
      some (.next { t.set .rax (v.setWidth 64) with mem := storeAll b [half d v] t.mem }) := by
    rw [Instr.exec, State.at_, hrsp, State.reg_set_self, hlow]
    rfl
  refine ⟨_, (block_cons hfirst).trans (block_cons hsecond), ⟨?_, fun r hr hmem => ?_, ?_, h.gsBase,
    h.kernelGsBase⟩, fun r hr => State.reg_set_of_ne hr⟩
  · exact hrsp.trans (by simp)
  · have hne : r ≠ .rax := fun heq => hmem (by rw [heq]; exact hrax)
    exact (State.reg_set_of_ne hne).trans (h.kept r hr hmem)
  · rw [storeAll_append, ← h.mem]

/-- All that is on the stack at the call. -/
def fields (s : State) (code : Option Word) : List Field := frameFields s code ++ savedFields s ++ intFields s

theorem disjoint_fields (s : State) (code : Option Word) : Disjoint 64 ((fields s code).map Field.place) := by
  cases code with
  | none =>
    show Disjoint 64 [(196, 8), (188, 8), (180, 8), (172, 8), (164, 8), (0, 8), (8, 8), (16, 8), (24, 8), (32, 8), (64, 8),
      (72, 8), (80, 8), (88, 8), (96, 8), (104, 8), (112, 8), (120, 8), (128, 8), (136, 8), (152, 8), (160, 2), (144, 8),
      (40, 8), (162, 2)]
    decide +kernel
  | some v =>
    show Disjoint 64 [(204, 8), (196, 8), (188, 8), (180, 8), (172, 8), (164, 8), (0, 8), (8, 8), (16, 8), (24, 8), (32, 8),
      (64, 8), (72, 8), (80, 8), (88, 8), (96, 8), (104, 8), (112, 8), (120, 8), (128, 8), (136, 8), (152, 8), (160, 2),
      (144, 8), (40, 8), (162, 2)]
    decide +kernel

/-- A word that is stored before is there while the structure is filled. -/
theorem OnStack.load_eq {done rest : List Field} {v : Word} (h : OnStack s t b k done changed)
    (hfields : done ++ rest = fields s code) (hv : word o v ∈ done) : load t.mem (b + BitVec.ofNat 64 o) = v := by
  have hall := disjoint_fields s code
  rw [← hfields, List.map_append] at hall
  rw [h.mem]
  exact load_word (List.pairwise_append.1 hall).1 hv

/-- The frame is there while the structure is filled. -/
theorem OnStack.load_frame {done rest : List Field} {v : Word}
    (h : OnStack s t b 0 (frameFields s code ++ savedFields s ++ done) changed) (hdone : done ++ rest = intFields s)
    (hv : word (frameOffset code + k) v ∈ frameFields s code) :
    load t.mem (b + BitVec.ofNat 64 (frameOffset code + k)) = v :=
  h.load_eq (by rw [List.append_assoc, hdone]; rfl) (List.mem_append_left _ (List.mem_append_left _ hv))

theorem onStack_saveIntDataRegs (h : OnStack s t b 0 (frameFields s code ++ savedFields s) changed)
    (hrax : .rax ∈ changed) (h15 : t.reg .r15 = b + BitVec.ofNat 64 (frameOffset code)) :
    ∃ t', block K (saveIntDataRegs .r15) t = some t' ∧ OnStack s t' b 0 (fields s code) changed ∧
      ∀ r, r ≠ .rax → t'.reg r = t.reg r := by
  have hrip : word (frameOffset code + 0) s.rip ∈ frameFields s code := by simp [frameFields]
  have hcs : word (frameOffset code + 8) (s.cs.setWidth 64) ∈ frameFields s code := by simp [frameFields]
  have hrflags : word (frameOffset code + 16) s.rflags ∈ frameFields s code := by simp [frameFields]
  have hrsp : word (frameOffset code + 24) (s.reg .rsp) ∈ frameFields s code := by simp [frameFields]
  have hss : word (frameOffset code + 32) (s.ss.setWidth 64) ∈ frameFields s code := by simp [frameFields]
  have h₀ : OnStack s t b 0 (frameFields s code ++ savedFields s ++ []) changed := by rwa [List.append_nil]
  obtain ⟨t₁, he₁, h₁, hkept₁⟩ := @OnStack.copyWord K s b t _ 0 changed _ .r15 .rsp _ 0 ripOffset h₀ hrax h15
    h₀.rsp (by decide) (h₀.load_frame rfl hrip)
  rw [List.append_assoc] at h₁
  have h15₁ : t₁.reg .r15 = b + BitVec.ofNat 64 (frameOffset code) := (hkept₁ _ (by decide)).trans h15
  obtain ⟨t₂, he₂, h₂, hkept₂⟩ := @OnStack.copyHalf K s b _ t₁ _ 8 changed _ csOffset h₁ hrax h15₁
    (h₁.load_frame rfl hcs)
  rw [List.append_assoc] at h₂
  have h15₂ : t₂.reg .r15 = b + BitVec.ofNat 64 (frameOffset code) := (hkept₂ _ (by decide)).trans h15₁
  obtain ⟨t₃, he₃, h₃, hkept₃⟩ := @OnStack.copyWord K s b t₂ _ 16 changed _ .r15 .rsp _ 0 rflagsOffset h₂ hrax
    h15₂ h₂.rsp (by decide) (h₂.load_frame rfl hrflags)
  rw [List.append_assoc] at h₃
  have h15₃ : t₃.reg .r15 = b + BitVec.ofNat 64 (frameOffset code) := (hkept₃ _ (by decide)).trans h15₂
  obtain ⟨t₄, he₄, h₄, hkept₄⟩ := @OnStack.copyWord K s b t₃ _ 24 changed _ .r15 .rsp _ 0 (offset .rsp) h₃ hrax
    h15₃ h₃.rsp (by decide) (h₃.load_frame rfl hrsp)
  rw [List.append_assoc] at h₄
  have h15₄ : t₄.reg .r15 = b + BitVec.ofNat 64 (frameOffset code) := (hkept₄ _ (by decide)).trans h15₃
  obtain ⟨t₅, he₅, h₅, hkept₅⟩ := @OnStack.copyHalf K s b _ t₄ _ 32 changed _ ssOffset h₄ hrax h15₄
    (h₄.load_frame rfl hss)
  rw [List.append_assoc] at h₅
  refine ⟨t₅, ?_, h₅, fun r hr => ?_⟩
  · exact (block_append he₁).trans ((block_append he₂).trans ((block_append he₃).trans ((block_append he₄).trans he₅)))
  · rw [hkept₅ r hr, hkept₄ r hr, hkept₃ r hr, hkept₂ r hr, hkept₁ r hr]

theorem OnStack.mono {changed' : List Reg} (h : OnStack s t b k fs changed) (hsub : changed ⊆ changed') :
    OnStack s t b k fs changed' :=
  ⟨h.rsp, fun r hr hmem => h.kept r hr fun hin => hmem (hsub hin), h.mem, h.gsBase, h.kernelGsBase⟩

/-- The registers that the handler has used up to the call. -/
def usedRegs : List Reg := [.rax, .rdx, .rsi, .rdi, .r15]

/-- The call of `rust_int_handler`, for what was interrupted in a state. -/
structure AtCall (s t : State) (b : Word) (code : Option Word) (vec : ℕ) : Prop where
  onStack : OnStack s t b 0 (fields s code) usedRegs
  rdi : t.reg .rdi = BitVec.ofNat 64 vec
  rsi : t.reg .rsi = b
  rdx : t.reg .rdx = code.getD 0
  r15 : t.reg .r15 = b + BitVec.ofNat 64 (frameOffset code)

theorem atCall_arguments {vec handler : ℕ} (h : OnStack s t b 0 (fields s code) [.rax, .rdx, .r15])
    (hcode : code.isSome = hasError) (h15 : t.reg .r15 = b + BitVec.ofNat 64 (frameOffset code))
    (hrdx : ∀ v ∈ code, t.reg .rdx = v) :
    ∃ t', block K (arguments hasError vec handler) t = some t' ∧ AtCall s t' b code vec ∧
      t'.reg .rax = BitVec.ofNat 64 handler := by
  have hrsp : t.reg .rsp = b := by rw [h.rsp]; simp
  have hkept : ∀ r, r ≠ .rsp → r ∉ usedRegs → t.reg r = s.reg r := fun r hr hmem =>
    h.kept r hr fun hin => hmem ((by decide : [Reg.rax, .rdx, .r15] ⊆ usedRegs) hin)
  cases code with
  | none =>
    obtain rfl := hcode
    refine ⟨_, rfl, ⟨⟨?_, fun r hr hmem => ?_, h.mem, h.gsBase, h.kernelGsBase⟩, ?_, ?_, ?_, ?_⟩, ?_⟩
    · simp [State.reg_set, hrsp]
    · rw [← hkept r hr hmem]
      simp only [usedRegs, List.mem_cons, not_or] at hmem
      simp [State.reg_set, hmem]
    all_goals simp [State.reg_set, hrsp, h15]
  | some v =>
    obtain rfl := hcode
    refine ⟨_, rfl, ⟨⟨?_, fun r hr hmem => ?_, h.mem, h.gsBase, h.kernelGsBase⟩, ?_, ?_, ?_, ?_⟩, ?_⟩
    · simp [State.reg_set, hrsp]
    · rw [← hkept r hr hmem]
      simp only [usedRegs, List.mem_cons, not_or] at hmem
      simp [State.reg_set, hmem]
    all_goals simp [State.reg_set, hrsp, h15, hrdx v rfl]

/-- The handler up to the call. -/
def enter (hasError : Bool) (vec handler : ℕ) : List (Instr Label) :=
  saveRegs ++ (findFrame hasError ++ (saveIntDataRegs .r15 ++ arguments hasError vec handler))

/-- **What a handler does up to the call.** -/
theorem atCall_enter (K : Setup) (s : State) (b : Word) (cs ss : BitVec 16) (hcode : code.isSome = hasError)
    (vec handler : ℕ) :
    ∃ t, block K (enter hasError vec handler)
        (s.interrupt (b + BitVec.ofNat 64 (frameOffset code + 40)) cs ss code) = some t ∧
      AtCall s t b code vec ∧ t.reg .rax = BitVec.ofNat 64 handler := by
  obtain ⟨t₁, he₁, h₁⟩ := @onStack_saveRegs K s b _ _ (onStack_interrupt s b cs ss code)
  have herror : ∀ v ∈ code, load t₁.mem (b + BitVec.ofNat 64 registersSize) = v := by
    rintro v rfl
    exact h₁.load_eq rfl (List.mem_append_left _ (by simp [frameFields]))
  obtain ⟨t₂, he₂, h₂, h15₂, hrdx₂⟩ := @onStack_findFrame K s b hasError code t₁ _ h₁ hcode herror
  obtain ⟨t₃, he₃, h₃, hkept₃⟩ := @onStack_saveIntDataRegs K s b code t₂ [.rax, .rdx, .r15]
    (h₂.mono (by decide)) (by decide) h15₂
  obtain ⟨t, he, h⟩ := @atCall_arguments K s b hasError code t₃ vec handler h₃ hcode
    ((hkept₃ _ (by decide)).trans h15₂) fun v hv => (hkept₃ _ (by decide)).trans (hrdx₂ v hv)
  exact ⟨t, (block_append he₁).trans ((block_append he₂).trans ((block_append he₃).trans he)), h⟩

/-- **The structure is what was interrupted.** -/
theorem AtCall.readContext_eq {vec : ℕ} (h : AtCall s t b code vec) : readContext t.mem b = contextOf s := by
  have hmem := h.onStack.mem
  have hword : ∀ {o : ℕ} {v : Word}, word o v ∈ fields s code → load t.mem (b + BitVec.ofNat 64 o) = v := fun hv => by
    rw [hmem]
    exact load_word (disjoint_fields s code) hv
  have hhalf : ∀ {o : ℕ} {v : BitVec 16}, half o v ∈ fields s code → load16 t.mem (b + BitVec.ofNat 64 o) = v :=
    fun hv => by
      rw [hmem]
      exact load16_half (disjoint_fields s code) hv
  have hint : ∀ f ∈ intFields s, f ∈ fields s code := fun f hf => List.mem_append_right _ hf
  refine Context.ext (funext fun r => ?_) (hword (hint _ ?_)) (hword (hint _ ?_)) (hhalf (hint _ ?_)) (hhalf (hint _ ?_))
  · by_cases hr : r = .rsp
    · rw [hr]
      exact hword (hint _ (by simp [intFields, contextOf]))
    · have hsaved : r ∈ savedRegs := by
        cases r <;> first | exact absurd rfl hr | decide
      exact hword (List.mem_append_left _ (List.mem_append_right _ (List.mem_map_of_mem hsaved)))
  all_goals simp [intFields, contextOf]

end Enter

/-! ### From the call on -/

section Leave

variable {K : Setup} {u w : State} {b : Word} {o : ℕ} {hasError : Bool} {code : Option Word} {fs : List Field}

/-- What `iretq` goes on with, with a frame at a distance from the base. -/
def resumed (u : State) (b : Word) (o : ℕ) : Context where
  reg r := if r = .rsp then load u.mem (b + BitVec.ofNat 64 (o + 24)) else u.reg r
  rip := load u.mem (b + BitVec.ofNat 64 (o + 0))
  rflags := load u.mem (b + BitVec.ofNat 64 (o + 16))
  cs := load16 u.mem (b + BitVec.ofNat 64 (o + 8))
  ss := load16 u.mem (b + BitVec.ofNat 64 (o + 32))

theorem contextOf_iretq (h : u.reg .rsp = b + BitVec.ofNat 64 o) : contextOf u.iretq = resumed u b o := by
  refine Context.ext (funext fun r => ?_) ?_ ?_ ?_ ?_
  · show (u.set .rsp (load u.mem (u.at_ .rsp 24))).reg r = _
    rw [State.reg_set, State.at_eq h]
    rfl
  all_goals
    show _ = _
    simp only [contextOf, State.iretq, State.at_eq h]
    rfl

theorem resumed_congr (hreg : ∀ r, r ≠ .rsp → w.reg r = u.reg r) (hmem : w.mem = u.mem) :
    resumed w b o = resumed u b o := by
  unfold resumed
  rw [hmem]
  congr 1
  funext r
  by_cases hr : r = .rsp
  · rw [if_pos hr, if_pos hr]
  · rw [if_neg hr, if_neg hr, hreg r hr]

theorem run_leave (h : u.reg .rsp = b) (hcode : code.isSome = hasError) (rest : List (Instr Label)) :
    ∃ u', run K none (leave hasError ++ rest) u = some u' ∧ contextOf u' = resumed u b (frameOffset code) ∧
      u'.gsBase = u.gsBase ∧ u'.kernelGsBase = u.kernelGsBase := by
  cases code with
  | none =>
    obtain rfl := hcode
    refine ⟨_, rfl, (contextOf_iretq (b := b) (o := registersSize) ?_).trans (resumed_congr (fun r hr => ?_) rfl), rfl, rfl⟩
    · simp [h]
    · simp [State.reg_set, hr]
  | some v =>
    obtain rfl := hcode
    refine ⟨_, rfl, (contextOf_iretq (b := b) (o := registersSize + 8) ?_).trans (resumed_congr (fun r hr => ?_) rfl),
      rfl, rfl⟩
    · simp [h, BitVec.ofNat_add, BitVec.add_assoc]
    · simp [State.reg_set, hr]

/-- A short word is copied to a word, with other bits above it. -/
theorem OnStack.copyLow {s t : State} {k d : ℕ} {v : BitVec 16} (h : OnStack s t b 0 fs [.rax])
    (h15 : t.reg .r15 = b + BitVec.ofNat 64 o) (hload : load16 t.mem (b + BitVec.ofNat 64 (0 + k)) = v) :
    ∃ t' x, block K [.load16 .rax .rsp k, (.store .r15 d .rax : Instr Label)] t = some t' ∧
      OnStack s t' b 0 (fs ++ [word (o + d) x]) [.rax] ∧ x.setWidth 16 = v ∧ t'.reg .r15 = t.reg .r15 := by
  let x : Word := t.reg .rax &&& ~~~0xffff ||| v.setWidth 64
  have hrsp : (t.set .rax x).reg .rsp = b + BitVec.ofNat 64 0 := (State.reg_set_of_ne (by decide)).trans h.rsp
  have h15' : (t.set .rax x).reg .r15 = b + BitVec.ofNat 64 o := (State.reg_set_of_ne (by decide)).trans h15
  have hfirst : Instr.exec K t (.load16 .rax .rsp k : Instr Label) = some (.next (t.set .rax x)) := by
    rw [Instr.exec, State.at_eq h.rsp, hload]
  have hsecond : Instr.exec K (t.set .rax x) (.store .r15 d .rax : Instr Label) =
      some (.next { t.set .rax x with mem := storeAll b [word (o + d) x] t.mem }) := by
    rw [Instr.exec, State.at_eq h15', State.reg_set_self]
    rfl
  have hlow : x.setWidth 16 = v := by
    refine BitVec.eq_of_getLsbD_eq fun i hi => ?_
    simp [x, hi]
  refine ⟨_, x, (block_cons hfirst).trans (block_cons hsecond), ⟨hrsp, fun r hr hmem => ?_, ?_, h.gsBase,
    h.kernelGsBase⟩, hlow, h15'.trans h15.symm⟩
  · have hne : r ≠ .rax := fun heq => hmem (by simp [heq])
    exact (State.reg_set_of_ne hne).trans (h.kept r hr hmem)
  · rw [storeAll_append, ← h.mem]

/-- The stored words are above the structure. -/
def Above (fs : List Field) : Prop := ∀ p ∈ fs.map Field.place, registersSize ≤ p.1 ∧ p.1 + p.2 ≤ registersSize + 48

/-- The structure stays while the frame is set. -/
theorem OnStack.readContext_eq {s t : State} {k : ℕ} {changed : List Reg} (h : OnStack s t b k fs changed)
    (hfs : Above fs) : readContext t.mem b = readContext s.mem b := by
  have hapart : ∀ {i n : ℕ}, i + n ≤ registersSize → ∀ p ∈ fs.map Field.place, Apart 64 i n p.1 p.2 := by
    intro i n hi p hp
    obtain ⟨hlow, hhigh⟩ := hfs p hp
    unfold Apart
    simp only [registersSize] at hi hlow hhigh
    omega
  have hoffset : ∀ r, offset r + 8 ≤ registersSize := by
    intro r
    cases r <;> decide
  rw [h.mem]
  exact Context.ext (funext fun r => load_apart (hapart (hoffset r))) (load_apart (hapart (by decide)))
    (load_apart (hapart (by decide))) (load16_apart (hapart (by decide))) (load16_apart (hapart (by decide)))

/-- The frame as it is set from a context; `x` and `y` have more bits. -/
def newFrame (c : Context) (o : ℕ) (x y : Word) : List Field :=
  [word (o + 24) (c.reg .rsp), word (o + 0) c.rip, word (o + 16) c.rflags, word (o + 32) x, word (o + 8) y]

theorem above_newFrame (c : Context) (x y : Word) (code : Option Word) : Above (newFrame c (frameOffset code) x y) := by
  cases code <;> simp [Above, newFrame, word, Field.place, frameOffset, registersSize]

theorem Above.of_append {rest : List Field} (h : Above (fs ++ rest)) : Above fs := fun p hp =>
  h p (by rw [List.map_append]; exact List.mem_append_left _ hp)

theorem onStack_setFrame (hrsp : u.reg .rsp = b) (h15 : u.reg .r15 = b + BitVec.ofNat 64 (frameOffset code)) :
    ∃ w x y, block K (setFrame .r15) u = some w ∧
      OnStack u w b 0 (newFrame (readContext u.mem b) (frameOffset code) x y) [.rax] ∧
      x.setWidth 16 = (readContext u.mem b).ss ∧ y.setWidth 16 = (readContext u.mem b).cs := by
  let c := readContext u.mem b
  have habove : ∀ {x y : Word} (fs rest : List Field), fs ++ rest = newFrame c (frameOffset code) x y → Above fs := by
    intro x y fs rest heq
    have hall := above_newFrame c x y code
    rw [← heq] at hall
    exact hall.of_append
  have h₀ : OnStack u u b 0 [] [.rax] := ⟨by simpa using hrsp, fun _ _ _ => rfl, rfl, rfl, rfl⟩
  obtain ⟨t₁, he₁, h₁, hkept₁⟩ := @OnStack.copyWord K u b u _ (offset .rsp) _ (c.reg .rsp) .rsp .r15 0 _ 24 h₀ (by decide)
    h₀.rsp h15 (by decide) (by simp [c, readContext])
  have hc₁ : readContext t₁.mem b = c := h₁.readContext_eq (habove (x := 0) (y := 0) _ _ rfl)
  have h15₁ : t₁.reg .r15 = b + BitVec.ofNat 64 (frameOffset code) := (hkept₁ _ (by decide)).trans h15
  obtain ⟨t₂, he₂, h₂, hkept₂⟩ := @OnStack.copyWord K u b t₁ _ ripOffset _ c.rip .rsp .r15 0 _ 0 h₁ (by decide)
    h₁.rsp h15₁ (by decide) (by rw [← hc₁]; simp [readContext])
  have hc₂ : readContext t₂.mem b = c := h₂.readContext_eq (habove (x := 0) (y := 0) _ _ rfl)
  have h15₂ : t₂.reg .r15 = b + BitVec.ofNat 64 (frameOffset code) := (hkept₂ _ (by decide)).trans h15₁
  obtain ⟨t₃, he₃, h₃, hkept₃⟩ := @OnStack.copyWord K u b t₂ _ rflagsOffset _ c.rflags .rsp .r15 0 _ 16 h₂ (by decide)
    h₂.rsp h15₂ (by decide) (by rw [← hc₂]; simp [readContext])
  have hc₃ : readContext t₃.mem b = c := h₃.readContext_eq (habove (x := 0) (y := 0) _ _ rfl)
  have h15₃ : t₃.reg .r15 = b + BitVec.ofNat 64 (frameOffset code) := (hkept₃ _ (by decide)).trans h15₂
  have h₄ : OnStack u (t₃.set .rax 0) b 0 _ [.rax] :=
    ⟨(State.reg_set_of_ne (by decide)).trans h₃.rsp, fun r hr hmem =>
      (State.reg_set_of_ne (by simpa using hmem)).trans (h₃.kept r hr hmem), h₃.mem, h₃.gsBase, h₃.kernelGsBase⟩
  have h15₄ : (t₃.set .rax 0).reg .r15 = b + BitVec.ofNat 64 (frameOffset code) :=
    (State.reg_set_of_ne (by decide)).trans h15₃
  obtain ⟨t₅, x, he₅, h₅, hx, h15₅⟩ := @OnStack.copyLow K b _ _ u (t₃.set .rax 0) ssOffset 32 c.ss h₄ h15₄
    (by rw [State.mem_set, ← hc₃]; simp [readContext])
  have hc₅ : readContext t₅.mem b = c := h₅.readContext_eq (habove (x := x) (y := 0) _ _ rfl)
  obtain ⟨t₆, y, he₆, h₆, hy, -⟩ := @OnStack.copyLow K b _ _ u t₅ csOffset 8 c.cs h₅ (h15₅.trans h15₄)
    (by rw [← hc₅]; simp [readContext])
  refine ⟨t₆, x, y, ?_, h₆, hx, hy⟩
  have hzero : block K (.movImm .rax 0 :: [.load16 .rax .rsp ssOffset, .store .r15 32 .rax,
      .load16 .rax .rsp csOffset, .store .r15 8 .rax]) t₃ = some t₆ :=
    (block_cons (t := t₃.set .rax 0) rfl).trans ((block_append he₅).trans he₆)
  exact (block_append he₁).trans ((block_append he₂).trans ((block_append he₃).trans hzero))

/-- **The registers of the structure**, when they have changed. -/
theorem run_loadNewRegs (hrsp : u.reg .rsp = b) (h15 : u.reg .r15 = b + BitVec.ofNat 64 (frameOffset code))
    (hcode : code.isSome = hasError) (rest : List (Instr Label)) :
    ∃ u', run K none (loadNewRegs .r15 ++ (leave hasError ++ rest)) u = some u' ∧
      contextOf u' = readContext u.mem b ∧ u'.gsBase = u.gsBase ∧ u'.kernelGsBase = u.kernelGsBase := by
  obtain ⟨w, x, y, he, hw, hx, hy⟩ := onStack_setFrame (K := K) hrsp h15
  have hdisjoint : Disjoint 64 ((newFrame (readContext u.mem b) (frameOffset code) x y).map Field.place) := by
    cases code with
    | none =>
      show Disjoint 64 [(188, 8), (164, 8), (180, 8), (196, 8), (172, 8)]
      decide
    | some v =>
      show Disjoint 64 [(196, 8), (172, 8), (188, 8), (204, 8), (180, 8)]
      decide
  have hbase : Reg.rsp ∉ newRegs := by decide
  have hall : ∀ r, r ≠ .rsp → r ∈ newRegs := by
    intro r hr
    cases r <;> first | exact absurd rfl hr | decide
  have hcontext : readContext w.mem b = readContext u.mem b := hw.readContext_eq (above_newFrame _ x y code)
  have hw0 : w.reg .rsp = b := by rw [hw.rsp]; simp
  let z : State := w.loads .rsp offset newRegs
  have hloads : block K (newRegs.map fun r => (.load r .rsp (offset r) : Instr Label)) w = some z := block_loads hbase
  have hz : z.reg .rsp = b := (State.reg_loads_of_not_mem hbase).trans hw0
  obtain ⟨u', hrun, hu', hgs, hkgs⟩ := @run_leave K z b hasError code hz hcode rest
  refine ⟨u', ?_, hu'.trans ?_, hgs.trans hw.gsBase, hkgs.trans hw.kernelGsBase⟩
  · rw [loadNewRegs, List.append_assoc, run_block he, run_block hloads, hrun]
  · have hzmem : z.mem = storeAll b (newFrame (readContext u.mem b) (frameOffset code) x y) u.mem := hw.mem
    refine Context.ext (funext fun r => ?_) ?_ ?_ ?_ ?_
    · by_cases hr : r = .rsp
      · rw [hr]
        show load z.mem _ = _
        rw [hzmem]
        exact load_word hdisjoint (by simp [newFrame])
      · have hload : z.reg r = (readContext w.mem b).reg r := by
          rw [State.reg_loads_of_mem (hall r hr), State.at_, hw0]
          rfl
        rw [← hcontext, ← hload]
        exact if_neg hr
    · show load z.mem _ = _
      rw [hzmem]
      exact load_word hdisjoint (by simp [newFrame])
    · show load z.mem _ = _
      rw [hzmem]
      exact load_word hdisjoint (by simp [newFrame])
    · show load16 z.mem _ = _
      rw [hzmem, ← hy]
      exact load16_word hdisjoint (by simp [newFrame])
    · show load16 z.mem _ = _
      rw [hzmem, ← hx]
      exact load16_word hdisjoint (by simp [newFrame])

/-- **The frame as it is**, and some of the registers of the structure. -/
theorem run_loadOldRegs (hrsp : u.reg .rsp = b) (hcode : code.isSome = hasError) (rest : List (Instr Label)) :
    ∃ u', run K none (loadOldRegs ++ (leave hasError ++ rest)) u = some u' ∧
      contextOf u' = resumed (u.loads .rsp offset oldRegs) b (frameOffset code) ∧
      u'.gsBase = u.gsBase ∧ u'.kernelGsBase = u.kernelGsBase := by
  have hbase : Reg.rsp ∉ oldRegs := by decide
  have hloads : block K loadOldRegs u = some (u.loads .rsp offset oldRegs) := block_loads hbase
  have hz : (u.loads .rsp offset oldRegs).reg .rsp = b := (State.reg_loads_of_not_mem hbase).trans hrsp
  obtain ⟨u', hrun, hu', hgs, hkgs⟩ := @run_leave K _ b hasError code hz hcode rest
  exact ⟨u', by rw [run_block hloads, hrun], hu', hgs, hkgs⟩

end Leave

/-! ### The whole handler -/

section Handler

variable {K : Setup} {s t u v : State} {b : Word} {o i n : ℕ} {hasError irq : Bool} {code : Option Word}
  {vec handler eoi : ℕ}

/-- The registers that a function keeps. -/
def calleeSaved : List Reg := [.rbx, .rbp, .rsp, .r12, .r13, .r14, .r15]

/-- A function has returned. -/
structure Returned (s t : State) : Prop where
  regs : ∀ r ∈ calleeSaved, t.reg r = s.reg r
  gsBase : t.gsBase = s.gsBase
  kernelGsBase : t.kernelGsBase = s.kernelGsBase

/-- Bytes at some distances from a base stay. -/
def Keeps (s t : State) (b : Word) (i n : ℕ) : Prop :=
  ∀ d, i ≤ d → d < n → t.mem (b + BitVec.ofNat 64 d) = s.mem (b + BitVec.ofNat 64 d)

theorem Keeps.read_eq (h : Keeps s t b i n) {k : ℕ} (hi : i ≤ o) (hn : o + k ≤ n) :
    read t.mem (b + BitVec.ofNat 64 o) k = read s.mem (b + BitVec.ofNat 64 o) k := by
  refine read_congr fun d hd => ?_
  rw [BitVec.add_assoc, ← BitVec.ofNat_add]
  exact h (o + d) (by omega) (by omega)

theorem Keeps.load_eq (h : Keeps s t b i n) (hi : i ≤ o) (hn : o + 8 ≤ n) :
    load t.mem (b + BitVec.ofNat 64 o) = load s.mem (b + BitVec.ofNat 64 o) :=
  congrArg (BitVec.ofNat 64) (h.read_eq hi hn)

theorem Keeps.load16_eq (h : Keeps s t b i n) (hi : i ≤ o) (hn : o + 2 ≤ n) :
    load16 t.mem (b + BitVec.ofNat 64 o) = load16 s.mem (b + BitVec.ofNat 64 o) :=
  congrArg (BitVec.ofNat 16) (h.read_eq hi hn)

/-- The end of what a handler has on the stack. -/
abbrev stackSize : ℕ := registersSize + 48

/-- The frame of an interrupt is in memory. -/
structure FrameHolds (s : State) (m : Memory 64) (b : Word) (o : ℕ) : Prop where
  rsp : load m (b + BitVec.ofNat 64 (o + 24)) = s.reg .rsp
  rip : load m (b + BitVec.ofNat 64 (o + 0)) = s.rip
  rflags : load m (b + BitVec.ofNat 64 (o + 16)) = s.rflags
  cs : load16 m (b + BitVec.ofNat 64 (o + 8)) = s.cs
  ss : load16 m (b + BitVec.ofNat 64 (o + 32)) = s.ss

theorem AtCall.frameHolds (h : AtCall s t b code vec) : FrameHolds s t.mem b (frameOffset code) := by
  have hall := disjoint_fields s code
  have hframe : ∀ f ∈ frameFields s code, f ∈ fields s code := fun f hf =>
    List.mem_append_left _ (List.mem_append_left _ hf)
  have hlow : ∀ v : BitVec 16, (v.setWidth 64).setWidth 16 = v := fun v => by simp
  constructor <;> rw [h.onStack.mem]
  · exact load_word hall (hframe _ (by simp [frameFields]))
  · exact load_word hall (hframe _ (by simp [frameFields]))
  · exact load_word hall (hframe _ (by simp [frameFields]))
  · exact (load16_word (v := s.cs.setWidth 64) hall (hframe _ (by simp [frameFields]))).trans (hlow s.cs)
  · exact (load16_word (v := s.ss.setWidth 64) hall (hframe _ (by simp [frameFields]))).trans (hlow s.ss)

theorem frameOffset_bounds (code : Option Word) :
    registersSize ≤ frameOffset code ∧ frameOffset code + 40 ≤ stackSize := by
  cases code <;> simp [frameOffset]

theorem FrameHolds.keep (h : FrameHolds s t.mem b (frameOffset code)) (hkeep : Keeps t u b i stackSize)
    (hi : i ≤ registersSize) : FrameHolds s u.mem b (frameOffset code) := by
  obtain ⟨hlow, hhigh⟩ := frameOffset_bounds code
  exact ⟨(hkeep.load_eq (by omega) (by omega)).trans h.rsp, (hkeep.load_eq (by omega) (by omega)).trans h.rip,
    (hkeep.load_eq (by omega) (by omega)).trans h.rflags, (hkeep.load16_eq (by omega) (by omega)).trans h.cs,
    (hkeep.load16_eq (by omega) (by omega)).trans h.ss⟩

theorem Keeps.readContext_eq (h : Keeps s t b 0 stackSize) : readContext t.mem b = readContext s.mem b := by
  have hoffset : ∀ r, offset r + 8 ≤ stackSize := by
    intro r
    cases r <;> decide
  exact Context.ext (funext fun r => h.load_eq (Nat.zero_le _) (hoffset r)) (h.load_eq (Nat.zero_le _) (by decide))
    (h.load_eq (Nat.zero_le _) (by decide)) (h.load16_eq (Nat.zero_le _) (by decide))
    (h.load16_eq (Nat.zero_le _) (by decide))

/-- The calls that a handler makes: `rust_int_handler` leaves the frame of the interrupt when it answers that nothing
has changed, and `eoi` leaves the stack. -/
structure Calls (K : Setup) (irq : Bool) (eoi : ℕ) (b : Word) (t t' : State) : Prop where
  returned : Returned t t'
  frame : t'.reg .rax = 0 → Keeps t t' b registersSize stackSize
  acknowledged : irq = true → ∀ u, u.reg .rsp = b →
    ∃ u', K.callee (BitVec.ofNat 64 eoi) u = some u' ∧ Returned u u' ∧ Keeps u u' b 0 stackSize

/-- The state in which a handler decides what to go on with. -/
structure Decides (s t' v : State) (b : Word) (code : Option Word) : Prop where
  rsp : v.reg .rsp = b
  r14 : v.reg .r14 = t'.reg .rax
  r15 : v.reg .r15 = b + BitVec.ofNat 64 (frameOffset code)
  kept : ∀ r ∈ [Reg.rbx, .rbp, .r12, .r13], v.reg r = s.reg r
  context : readContext v.mem b = readContext t'.mem b
  frame : t'.reg .rax = 0 → FrameHolds s v.mem b (frameOffset code)
  gsBase : v.gsBase = s.gsBase
  kernelGsBase : v.kernelGsBase = s.kernelGsBase

/-- The handler between the call and the decision. -/
def answered (irq : Bool) (vec eoi : ℕ) : List (Instr Label) := [.call .rax, .mov .r14 .rax] ++ acknowledge irq vec eoi

theorem decides_answered {t' : State} (h : AtCall s t b code vec) (hcall : K.callee (t.reg .rax) t = some t')
    (hcalls : Calls K irq eoi b t t') :
    ∃ v, block K (answered irq vec eoi) t = some v ∧ Decides s t' v b code := by
  have hrsp : t'.reg .rsp = b := by
    rw [hcalls.returned.regs _ (by decide), h.onStack.rsp]
    simp
  have hfirst : Instr.exec K t (.call .rax : Instr Label) = some (.next t') := by rw [Instr.exec, hcall]; rfl
  have hsecond : Instr.exec K t' (.mov .r14 .rax : Instr Label) = some (.next (t'.set .r14 (t'.reg .rax))) := rfl
  have hblock : block K [.call .rax, (.mov .r14 .rax : Instr Label)] t = some (t'.set .r14 (t'.reg .rax)) :=
    (block_cons hfirst).trans (block_cons hsecond)
  have hdecides : Decides s t' (t'.set .r14 (t'.reg .rax)) b code := by
    refine ⟨(State.reg_set_of_ne (by decide)).trans hrsp, State.reg_set_self, ?_, fun r hr => ?_, rfl, fun hzero => ?_,
      hcalls.returned.gsBase.trans h.onStack.gsBase, hcalls.returned.kernelGsBase.trans h.onStack.kernelGsBase⟩
    · rw [State.reg_set_of_ne (by decide), hcalls.returned.regs _ (by decide), h.r15]
    · have hsub : r ≠ .r14 ∧ r ∈ calleeSaved ∧ r ≠ .rsp ∧ r ∉ usedRegs := by
        revert r
        decide
      rw [State.reg_set_of_ne hsub.1, hcalls.returned.regs r hsub.2.1, h.onStack.kept r hsub.2.2.1 hsub.2.2.2]
    · exact h.frameHolds.keep (hcalls.frame hzero) le_rfl
  cases irq with
  | false => exact ⟨_, hblock, hdecides⟩
  | true =>
    let u : State := ((t'.set .r14 (t'.reg .rax)).set .rdi (BitVec.ofNat 64 vec)).set .rcx (BitVec.ofNat 64 eoi)
    have hreg : ∀ r ∈ calleeSaved, u.reg r = (t'.set .r14 (t'.reg .rax)).reg r := by
      intro r hr
      have hne : r ≠ .rcx ∧ r ≠ .rdi := by
        revert r
        decide
      exact (State.reg_set_of_ne hne.1).trans (State.reg_set_of_ne hne.2)
    obtain ⟨v, hv, hret, hkeep⟩ := hcalls.acknowledged rfl u ((hreg _ (by decide)).trans hdecides.rsp)
    have hv' : ∀ r ∈ calleeSaved, v.reg r = (t'.set .r14 (t'.reg .rax)).reg r := fun r hr =>
      (hret.regs r hr).trans (hreg r hr)
    have hack : block K (acknowledge true vec eoi) (t'.set .r14 (t'.reg .rax)) = some v := by
      have hthird : Instr.exec K u (.call .rcx : Instr Label) = some (.next v) := by
        rw [Instr.exec, show u.reg .rcx = BitVec.ofNat 64 eoi from State.reg_set_self, hv]
        rfl
      exact (block_cons (t := (t'.set .r14 (t'.reg .rax)).set .rdi (BitVec.ofNat 64 vec)) rfl).trans
        ((block_cons (t := u) rfl).trans (block_cons hthird))
    refine ⟨v, (block_append hblock).trans hack, ⟨(hv' _ (by decide)).trans hdecides.rsp,
      (hv' _ (by decide)).trans hdecides.r14, (hv' _ (by decide)).trans hdecides.r15, fun r hr => ?_,
      hkeep.readContext_eq.trans hdecides.context, fun hzero => (hdecides.frame hzero).keep hkeep (Nat.zero_le _),
      hret.gsBase.trans hdecides.gsBase, hret.kernelGsBase.trans hdecides.kernelGsBase⟩⟩
    have hmem : r ∈ calleeSaved := by
      revert r
      decide
    exact (hv' r hmem).trans (hdecides.kept r hr)

/-- Some of the registers are those of another context. -/
def Context.partly (c new : Context) : Context := { c with reg := fun r => if r ∈ oldRegs then new.reg r else c.reg r }

theorem Context.partly_self (c : Context) : c.partly c = c :=
  Context.ext (funext fun r => ite_self (c.reg r)) rfl rfl rfl rfl

/-- What a handler goes on with, with the structure as it is after the call. -/
def goOn (c new : Context) (answer : Word) : Context := if answer = 0 then c.partly new else new

theorem resumed_loads (h : FrameHolds s v.mem b o) (hrsp : v.reg .rsp = b)
    (hkept : ∀ r ∈ [Reg.rbx, .rbp, .r12, .r13], v.reg r = s.reg r) :
    resumed (v.loads .rsp offset oldRegs) b o = (contextOf s).partly (readContext v.mem b) := by
  refine Context.ext (funext fun r => ?_) h.rip h.rflags h.cs h.ss
  by_cases hr : r = .rsp
  · rw [hr]
    exact h.rsp
  refine (if_neg hr).trans ?_
  by_cases hold : r ∈ oldRegs
  · rw [State.reg_loads_of_mem hold, State.at_, hrsp]
    exact (if_pos hold).symm
  · have hmem : r ∈ [Reg.rbx, .rbp, .r12, .r13] := by
      cases r <;> first | decide | exact absurd rfl hr | exact absurd (by decide) hold
    rw [State.reg_loads_of_not_mem hold, hkept r hmem]
    exact (if_neg hold).symm

/-- What comes after the decision. -/
def decided (hasError : Bool) : List (Instr Label) :=
  [.cmp .r14 0, .je .restore] ++ (loadNewRegs .r15 ++ (leave hasError ++
    ([.label .restore] ++ (loadOldRegs ++ (leave hasError ++ [])))))

theorem run_decided {t' : State} (h : Decides s t' v b code) (hcode : code.isSome = hasError) :
    ∃ u, run K none (decided hasError) v = some u ∧
      contextOf u = goOn (contextOf s) (readContext t'.mem b) (t'.reg .rax) ∧
      u.gsBase = s.gsBase ∧ u.kernelGsBase = s.kernelGsBase := by
  let w : State := { v with compared := some (v.reg .r14, 0) }
  have hwmem : readContext w.mem b = readContext t'.mem b := h.context
  by_cases hzero : t'.reg .rax = 0
  · have hjump : run K none (decided hasError) v = run K (some .restore) (loadNewRegs .r15 ++ (leave hasError ++
        ([.label .restore] ++ (loadOldRegs ++ (leave hasError ++ []))))) w :=
      run_cmp_je.trans (if_pos (h.r14.trans hzero))
    have hskip : ∀ i ∈ loadNewRegs .r15 ++ leave hasError, i.isLabel .restore = false := by
      cases hasError <;> decide
    obtain ⟨u, hrun, hu, hgs, hkgs⟩ := @run_loadOldRegs K w b hasError code h.rsp hcode []
    refine ⟨u, ?_, hu.trans ?_, hgs.trans h.gsBase, hkgs.trans h.kernelGsBase⟩
    · rw [hjump, ← List.append_assoc, run_skip hskip]
      exact hrun
    · rw [goOn, if_pos hzero, ← hwmem]
      exact resumed_loads (h.frame hzero) h.rsp h.kept
  · have hnext : run K none (decided hasError) v = run K none (loadNewRegs .r15 ++ (leave hasError ++
        ([.label .restore] ++ (loadOldRegs ++ (leave hasError ++ []))))) w :=
      run_cmp_je.trans (if_neg fun heq => hzero (h.r14.symm.trans heq))
    obtain ⟨u, hrun, hu, hgs, hkgs⟩ := @run_loadNewRegs K w b hasError code h.rsp h.r15 hcode
      ([.label .restore] ++ (loadOldRegs ++ (leave hasError ++ [])))
    refine ⟨u, hnext.trans hrun, hu.trans ?_, hgs.trans h.gsBase, hkgs.trans h.kernelGsBase⟩
    rw [goOn, if_neg hzero, ← hwmem]

/-- **An interrupt**: `rust_int_handler` gets the registers of what was interrupted, with the vector and the error
code, and the handler goes on with the registers of the structure if they have changed. -/
theorem asmHandler_resumes (K : Setup) (irq : Bool) (vec handler eoi : ℕ) (code : Option Word) (s : State) (b : Word)
    (cs ss : BitVec 16) :
    ∃ t, t.reg .rdi = BitVec.ofNat 64 vec ∧ t.reg .rsi = b ∧ t.reg .rdx = code.getD 0 ∧ t.reg .rsp = b ∧
      readContext t.mem b = contextOf s ∧
      ∀ t', K.callee (BitVec.ofNat 64 handler) t = some t' → Calls K irq eoi b t t' →
        ∃ u, run K none (asmHandler code.isSome irq vec handler eoi)
            (s.interrupt (b + BitVec.ofNat 64 (frameOffset code + 40)) cs ss code) = some u ∧
          contextOf u = goOn (contextOf s) (readContext t'.mem b) (t'.reg .rax) ∧
          u.gsBase = s.gsBase ∧ u.kernelGsBase = s.kernelGsBase := by
  obtain ⟨t, he, h, hrax⟩ := @atCall_enter code.isSome code K s b cs ss rfl vec handler
  have hrsp : t.reg .rsp = b := by rw [h.onStack.rsp]; simp
  refine ⟨t, h.rdi, h.rsi, h.rdx, hrsp, h.readContext_eq, fun t' hcall hcalls => ?_⟩
  rw [← hrax] at hcall
  obtain ⟨v, hv, hdecides⟩ := @decides_answered K s t b irq code vec eoi t' h hcall hcalls
  obtain ⟨u, hu, hcontext⟩ := run_decided (K := K) hdecides rfl
  have hprogram : asmHandler code.isSome irq vec handler eoi =
      enter code.isSome vec handler ++ (answered irq vec eoi ++ decided code.isSome) := by
    simp only [asmHandler, enter, answered, decided, List.flatten_cons, List.flatten_nil, List.append_assoc]
  exact ⟨u, by rw [hprogram, run_block he, run_block hv, hu], hcontext⟩

/-- `rust_int_handler` answers that nothing has changed, and other functions do nothing. -/
def unchanged : Setup := ⟨fun a s => some (if a = 0x1000 then s.set .rax 0 else s)⟩

def interrupted : State := ⟨fun _ => 7, fun _ => 0, 5, 0x202, 8, 16, 0, 0, none⟩

theorem asmHandler_resumes_irq : ∃ u, run unchanged none (makeAsmIrqHandler 32 0x1000 0x2000)
      (interrupted.interrupt (0x8000 + BitVec.ofNat 64 (frameOffset none + 40)) 8 16 none) = some u ∧
    contextOf u = contextOf interrupted := by
  obtain ⟨t, -, -, -, -, hread, h⟩ := asmHandler_resumes unchanged true 32 0x1000 0x2000 none interrupted 0x8000 8 16
  have hreturned : Returned t (t.set .rax 0) := by
    refine ⟨fun r hr => State.reg_set_of_ne ?_, rfl, rfl⟩
    rintro rfl
    exact absurd hr (by decide)
  have hcalls : Calls unchanged true 0x2000 0x8000 t (t.set .rax 0) :=
    ⟨hreturned, fun _ _ _ _ => rfl, fun _ u _ => ⟨u, rfl, ⟨fun _ _ => rfl, rfl, rfl⟩, fun _ _ _ => rfl⟩⟩
  obtain ⟨u, hu, hcontext, -⟩ := h (t.set .rax 0) rfl hcalls
  refine ⟨u, hu, ?_⟩
  rw [hcontext, State.reg_set_self, State.mem_set, hread, goOn, if_pos rfl, Context.partly_self]

end Handler

end AuroraOs.IntEntry
