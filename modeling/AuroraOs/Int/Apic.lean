import AuroraOs.Util

/-!
# The I/O APIC: `apic::init`

`init` reads the entries of the MADT: it remembers the interrupt source overrides and masks every pin
of the I/O APIC, and then programs one redirection entry for each IRQ of `irq_arr`.  An override is
kept under the vector of its IRQ, `IRQ_BASE` plus the number of the IRQ.

A device is known by its physical address, and `Devices` gives the registers of each.  The select and
data registers of an I/O APIC are one access here.  The timer of the local APIC, which `init` starts
at the end, is left out.
-/

namespace AuroraOs.Apic

abbrev MAX_CPUS : ℕ := 16

/-! ### `idt.rs` -/

abbrev PICM_OFFSET : UInt8 := 32

abbrev PICS_OFFSET : UInt8 := 40

abbrev IRQ_BASE : UInt8 := PICM_OFFSET

abbrev IRQ_TIMER : UInt8 := PICM_OFFSET

def irqArr : List UInt8 :=
  [IRQ_TIMER, PICM_OFFSET + 1, PICM_OFFSET + 3, PICM_OFFSET + 4, PICM_OFFSET + 5, PICM_OFFSET + 6,
    PICM_OFFSET + 7, PICS_OFFSET, PICS_OFFSET + 1, PICS_OFFSET + 2, PICS_OFFSET + 3, PICS_OFFSET + 4,
    PICS_OFFSET + 5, PICS_OFFSET + 6, PICS_OFFSET + 7]

/-! ### `ioapic.rs` -/

inductive DelivMode
  | fixed | lowPrio | smi | nmi | init | sipi | extInt

def DelivMode.bits : DelivMode → ℕ
  | .fixed => 0
  | .lowPrio => 1
  | .smi => 2
  | .nmi => 4
  | .init => 5
  | .sipi => 6
  | .extInt => 7

inductive DestMode
  | physical | logical

def DestMode.bit : DestMode → Bool
  | .physical => false
  | .logical => true

inductive TriggerMode
  | edge | level
  deriving DecidableEq

def TriggerMode.bit : TriggerMode → Bool
  | .edge => false
  | .level => true

def TriggerMode.default : TriggerMode := .edge

inductive PinPolarity
  | activeHigh | activeLow
  deriving DecidableEq

def PinPolarity.bit : PinPolarity → Bool
  | .activeHigh => false
  | .activeLow => true

def PinPolarity.default : PinPolarity := .activeHigh

inductive IoApicDest
  | to (dest : UInt8)
  | toAll

/-- A redirection entry.  `delivStatus` and `remoteIrr` are read only and stay clear. -/
structure IrqEntry where
  vec : UInt8
  delivMode : DelivMode
  destMode : DestMode
  delivStatus : Bool
  polarity : PinPolarity
  remoteIrr : Bool
  triggerMode : TriggerMode
  masked : Bool
  dest : UInt8

namespace IrqEntry

/-- The bitfield of zeros. -/
def new : IrqEntry :=
  ⟨0, .fixed, .physical, false, .activeHigh, false, .edge, false, 0⟩

/-- `from`. -/
def ofIrq (vec : UInt8) (dest : IoApicDest) (polarity : PinPolarity) (triggerMode : TriggerMode) :
    IrqEntry :=
  let out := { new with delivMode := .fixed, vec, polarity, triggerMode }
  match dest with
  | .to dest => { out with destMode := .physical, dest }
  | .toAll => { out with destMode := .logical, dest := 1 }

def newMasked : IrqEntry := { new with masked := true }

/-- The entry as a `u64`, its fields from the lowest bit up; 39 bits before `dest` are unused. -/
def toU64 (e : IrqEntry) : ℕ :=
  e.vec.toNat + 2 ^ 8 * e.delivMode.bits + 2 ^ 11 * e.destMode.bit.toNat
    + 2 ^ 12 * e.delivStatus.toNat + 2 ^ 13 * e.polarity.bit.toNat + 2 ^ 14 * e.remoteIrr.toNat
    + 2 ^ 15 * e.triggerMode.bit.toNat + 2 ^ 16 * e.masked.toNat + 2 ^ 56 * e.dest.toNat

end IrqEntry

/-- The registers of the device at each address. -/
abbrev Devices := ℕ → ℕ → ℕ

/-- An I/O APIC; `base` is where its registers are mapped, nothing before `init`. -/
structure IoApic where
  base : Option ℕ
  maxIrqIndex : UInt8

namespace IoApic

abbrev IO_APIC_VER : ℕ := 1

def new : IoApic := ⟨none, 0⟩

def irqIndex (self : IoApic) (irq : UInt8) : Option ℕ :=
  if irq > self.maxIrqIndex then none else some (0x10 + irq.toNat * 2)

/-- `write_reg`; nothing is an access through the null pointer. -/
def writeReg (self : IoApic) (reg data : ℕ) (d : Devices) : Option Devices :=
  self.base.map fun base => Function.update d base (Function.update (d base) reg data)

/-- `set_irq_entry`: true if the pin exists. -/
def setIrqEntry (self : IoApic) (irq : UInt8) (entry : IrqEntry) (d : Devices) :
    Option (Bool × Devices) :=
  match self.irqIndex irq with
  | some index => do
      let d₁ ← self.writeReg index (getBits entry.toU64 0 32) d
      let d₂ ← self.writeReg (index + 1) (getBits entry.toU64 32 64) d₁
      return (true, d₂)
  | none => some (false, d)

/-- The number of pins less one, from the version register of a device. -/
def maxIrq (regs : ℕ → ℕ) : UInt8 := UInt8.ofNat (getBits (regs IO_APIC_VER) 16 24)

/-- `init`: every pin is masked. -/
def init (addr : ℕ) (d : Devices) : Option (IoApic × Devices) := do
  let self : IoApic := ⟨some addr, maxIrq (d addr)⟩
  let d' ← (List.range (self.maxIrqIndex.toNat + 1)).foldlM
    (fun d irq => (self.setIrqEntry (UInt8.ofNat irq) .newMasked d).map Prod.snd) d
  return (self, d')

end IoApic

/-! ### `apic::init` -/

structure IrqOverride where
  sysint : UInt32
  polarity : PinPolarity
  triggerMode : TriggerMode
  deriving DecidableEq

/-- The overrides by vector. -/
structure IrqOverrides where
  map : UInt8 → Option IrqOverride

namespace IrqOverrides

def new : IrqOverrides := ⟨fun _ => none⟩

def getIrq (self : IrqOverrides) (irq : UInt8) : IrqOverride :=
  match self.map irq with
  | some found => found
  | none => ⟨irq.toUInt32, .default, .default⟩

def overrideIrq (self : IrqOverrides) (irq : UInt8) (ov : IrqOverride) : IrqOverrides :=
  ⟨Function.update self.map irq (some ov)⟩

end IrqOverrides

/-- An entry of the MADT, with the fields that `init` reads; `other` is the NMI and x2APIC entries. -/
inductive MadtElem
  | procLocalApic (apicId : UInt8)
  | ioApic (ioapicAddr globalSysintBase : UInt32)
  | ioApicSrcOverride (irqSrc : UInt8) (globalSysint : UInt32) (flags : UInt16)
  | localApicOverride (addr : UInt64)
  | other

structure Madt where
  lapicAddr : UInt32
  lapicFlags : UInt32
  entries : List MadtElem

/-- The polarity of an override; a reserved value panics. -/
def readPolarity (flags : UInt16) : Option PinPolarity :=
  match getBits flags.toNat 0 2 with
  | 0 => some .default
  | 1 => some .activeHigh
  | 3 => some .activeLow
  | _ => none

/-- The trigger mode of an override; a reserved value panics. -/
def readTriggerMode (flags : UInt16) : Option TriggerMode :=
  match getBits flags.toNat 0 2 with
  | 0 => some .default
  | 1 => some .edge
  | 3 => some .level
  | _ => none

/-- What `init` has read so far, with `BSP_ID`, `IO_APIC` and the devices. -/
structure Scan where
  lapicAddr : ℕ
  overrides : IrqOverrides
  apIds : List UInt8
  /-- The processor `init` runs on has not been met yet. -/
  flag : Bool
  bspId : UInt8
  ioApic : IoApic
  devices : Devices

/-- One entry; nothing is a panic. -/
def scanEntry (s : Scan) : MadtElem → Option Scan
  | .procLocalApic apicId =>
      if s.flag then some { s with bspId := apicId, flag := false }
      else some { s with apIds := s.apIds ++ [apicId] }
  | .ioApic ioapicAddr globalSysintBase =>
      if globalSysintBase = 0 then do
        let (ioApic, devices) ← IoApic.init ioapicAddr.toNat s.devices
        return { s with ioApic, devices }
      else none
  | .ioApicSrcOverride irqSrc globalSysint flags => do
      let polarity ← readPolarity flags
      let triggerMode ← readTriggerMode flags
      return { s with
        overrides := s.overrides.overrideIrq (irqSrc + IRQ_BASE) ⟨globalSysint, polarity, triggerMode⟩ }
  | .localApicOverride addr => some { s with lapicAddr := addr.toNat }
  | .other => some s

/-- The redirection entry of an IRQ. -/
def irqEntry (overrides : IrqOverrides) (bspId irq : UInt8) : IrqEntry :=
  let ov := overrides.getIrq irq
  if irq = IRQ_TIMER then .ofIrq irq (.to 0) ov.polarity ov.triggerMode
  else .ofIrq irq (.to bspId) ov.polarity ov.triggerMode

/-- One turn of the loop over `irq_arr`. -/
def programIrq (s : Scan) (d : Devices) (irq : UInt8) : Option Devices :=
  (s.ioApic.setIrqEntry (s.overrides.getIrq irq).sysint.toUInt8
    (irqEntry s.overrides s.bspId irq) d).map Prod.snd

/-- What `init` leaves: the local APIC's address, the ids of the other processors, whether the 8259
was disabled, the I/O APIC and the devices. -/
structure Initialized where
  lapicAddr : ℕ
  apIds : List UInt8
  picDisabled : Bool
  ioApic : IoApic
  devices : Devices

def init (madt : Madt) (d : Devices) : Option Initialized := do
  let s ← madt.entries.foldlM scanEntry ⟨madt.lapicAddr.toNat, .new, [], true, 0, .new, d⟩
  if s.apIds.length < MAX_CPUS then
    let devices ← irqArr.foldlM (programIrq s) s.devices
    return ⟨s.lapicAddr, s.apIds, decide (madt.lapicFlags &&& 1 > 0), s.ioApic, devices⟩
  else none

/-! ### Redirection entries -/

/-- The redirection entry of a pin, from its two registers. -/
def entryAt (regs : ℕ → ℕ) (pin : ℕ) : ℕ :=
  regs (0x10 + pin * 2) + 2 ^ 32 * regs (0x10 + pin * 2 + 1)

theorem IrqEntry.toU64_lt (e : IrqEntry) : e.toU64 < 2 ^ 64 := by
  have hvec := e.vec.toNat_lt
  have hdest := e.dest.toNat_lt
  have hdeliv : e.delivMode.bits < 8 := by cases e.delivMode <;> decide
  have h1 := e.destMode.bit.toNat_lt
  have h2 := e.delivStatus.toNat_lt
  have h3 := e.polarity.bit.toNat_lt
  have h4 := e.remoteIrr.toNat_lt
  have h5 := e.triggerMode.bit.toNat_lt
  have h6 := e.masked.toNat_lt
  unfold IrqEntry.toU64
  omega

/-- What the hardware reads in an entry. -/
theorem IrqEntry.toU64_fields (e : IrqEntry) :
    e.toU64 % 2 ^ 8 = e.vec.toNat ∧ e.toU64 / 2 ^ 13 % 2 = e.polarity.bit.toNat ∧
      e.toU64 / 2 ^ 15 % 2 = e.triggerMode.bit.toNat ∧ e.toU64 / 2 ^ 16 % 2 = e.masked.toNat := by
  have hvec := e.vec.toNat_lt
  have hdeliv : e.delivMode.bits < 8 := by cases e.delivMode <;> decide
  have h1 := e.destMode.bit.toNat_lt
  have h2 := e.delivStatus.toNat_lt
  have h3 := e.polarity.bit.toNat_lt
  have h4 := e.remoteIrr.toNat_lt
  have h5 := e.triggerMode.bit.toNat_lt
  have h6 := e.masked.toNat_lt
  unfold IrqEntry.toU64
  omega

/-- The two halves of an entry are the entry. -/
theorem IrqEntry.halves (e : IrqEntry) :
    getBits e.toU64 0 32 + 2 ^ 32 * getBits e.toU64 32 64 = e.toU64 := by
  rw [getBits_eq (by decide) (by decide), getBits_top (by decide) e.toU64_lt]
  have := Nat.mod_add_div e.toU64 (2 ^ 32)
  simpa using this

/-- The devices after both registers of a pin were written. -/
def setPin (d : Devices) (addr pin : ℕ) (e : IrqEntry) : Devices :=
  Function.update d addr (Function.update
    (Function.update (d addr) (0x10 + pin * 2) (getBits e.toU64 0 32))
    (0x10 + pin * 2 + 1) (getBits e.toU64 32 64))

theorem entryAt_setPin (d : Devices) (addr pin : ℕ) (e : IrqEntry) (p : ℕ) :
    entryAt (setPin d addr pin e addr) p = if p = pin then e.toU64 else entryAt (d addr) p := by
  unfold entryAt setPin
  rw [Function.update_self]
  split_ifs with h
  · subst h
    rw [Function.update_self, Function.update_of_ne (by omega), Function.update_self, e.halves]
  · rw [Function.update_of_ne (show 0x10 + p * 2 + 1 ≠ 0x10 + pin * 2 + 1 by omega),
      Function.update_of_ne (show 0x10 + p * 2 + 1 ≠ 0x10 + pin * 2 by omega),
      Function.update_of_ne (show 0x10 + p * 2 ≠ 0x10 + pin * 2 + 1 by omega),
      Function.update_of_ne (show 0x10 + p * 2 ≠ 0x10 + pin * 2 by omega)]

theorem IoApic.setIrqEntry_eq {self : IoApic} {addr : ℕ} (hbase : self.base = some addr)
    (irq : UInt8) (e : IrqEntry) (d : Devices) :
    self.setIrqEntry irq e d = some (decide (irq ≤ self.maxIrqIndex),
      if irq ≤ self.maxIrqIndex then setPin d addr irq.toNat e else d) := by
  by_cases hle : irq ≤ self.maxIrqIndex
  · have hindex : self.irqIndex irq = some (0x10 + irq.toNat * 2) := if_neg (UInt8.not_lt.2 hle)
    simp [IoApic.setIrqEntry, hindex, IoApic.writeReg, hbase, hle, setPin]
  · have hindex : self.irqIndex irq = none := if_pos (UInt8.not_le.1 hle)
    simp [IoApic.setIrqEntry, hindex, hle]

/-- The pins of an I/O APIC are all masked. -/
def Masked (regs : ℕ → ℕ) (max : UInt8) : Prop :=
  ∀ pin ≤ max.toNat, entryAt regs pin = IrqEntry.newMasked.toU64

/-- The loop of `IoApic::init` after its first turns. -/
theorem IoApic.mask_first {self : IoApic} {addr : ℕ} (hbase : self.base = some addr) (d : Devices)
    {n : ℕ} (hn : n ≤ self.maxIrqIndex.toNat + 1) :
    ∃ d', (List.range n).foldlM
          (fun d irq => (self.setIrqEntry (UInt8.ofNat irq) .newMasked d).map Prod.snd) d = some d' ∧
        ∀ pin < n, entryAt (d' addr) pin = IrqEntry.newMasked.toU64 := by
  have hmax : self.maxIrqIndex.toNat < 256 := self.maxIrqIndex.toNat_lt
  induction n with
  | zero => exact ⟨d, rfl, fun _ h => absurd h (Nat.not_lt_zero _)⟩
  | succ n ih =>
    obtain ⟨d', hd', hpins⟩ := ih (by omega)
    have hnat : n % 256 = n := Nat.mod_eq_of_lt (by omega)
    have hle : UInt8.ofNat n ≤ self.maxIrqIndex := by
      rw [UInt8.le_iff_toNat_le, UInt8.toNat_ofNat', hnat]
      omega
    refine ⟨setPin d' addr n .newMasked, ?_, fun pin hpin => ?_⟩
    · rw [List.range_succ, List.foldlM_append, hd']
      simp [IoApic.setIrqEntry_eq hbase, hle, hnat]
    · rw [entryAt_setPin]
      split_ifs with h
      · rfl
      · exact hpins pin (by omega)

/-- `IoApic::init` masks every pin. -/
theorem IoApic.init_spec (addr : ℕ) (d : Devices) :
    ∃ d', IoApic.init addr d = some (⟨some addr, maxIrq (d addr)⟩, d') ∧
      Masked (d' addr) (maxIrq (d addr)) := by
  have hbase : (⟨some addr, maxIrq (d addr)⟩ : IoApic).base = some addr := rfl
  obtain ⟨d', hd', hpins⟩ := IoApic.mask_first hbase d le_rfl
  refine ⟨d', ?_, fun pin hpin => hpins pin (Nat.lt_succ_of_le hpin)⟩
  simp only [IoApic.init]
  rw [hd']
  rfl

/-! ### Reading the MADT -/

/-- The I/O APICs of the MADT, with their interrupt bases. -/
def ioApics (entries : List MadtElem) : List (UInt32 × UInt32) :=
  entries.filterMap fun
    | .ioApic addr base => some (addr, base)
    | _ => none

/-- The number of processors of the MADT. -/
def processors (entries : List MadtElem) : ℕ :=
  entries.countP fun
    | .procLocalApic _ => true
    | _ => false

/-- The override of an IRQ that an entry is. -/
def MadtElem.overrides (irq : UInt8) : MadtElem → Option (UInt32 × UInt16)
  | .ioApicSrcOverride irqSrc globalSysint flags =>
      if irqSrc = irq then some (globalSysint, flags) else none
  | _ => none

/-- The last override of an IRQ: its pin and its flags. -/
def lastOverride (entries : List MadtElem) (irq : UInt8) : Option (UInt32 × UInt16) :=
  entries.reverse.findSome? (MadtElem.overrides irq)

theorem lastOverride_append (es : List MadtElem) (e : MadtElem) (irq : UInt8) :
    lastOverride (es ++ [e]) irq = (e.overrides irq).or (lastOverride es irq) := by
  rw [lastOverride, List.reverse_append, List.reverse_singleton, List.singleton_append,
    List.findSome?_cons, lastOverride]
  cases e.overrides irq <;> rfl

/-- The polarity that ACPI gives to the flags of an override, bits 0 and 1. -/
def acpiPolarity (flags : UInt16) : PinPolarity :=
  if flags.toNat % 4 = 3 then .activeLow else .activeHigh

/-- The trigger mode that ACPI gives to the flags of an override, bits 2 and 3. -/
def acpiTriggerMode (flags : UInt16) : TriggerMode :=
  if flags.toNat / 4 % 4 = 3 then .level else .edge

/-- The flags of an override have no reserved value. -/
def FlagsValid (flags : UInt16) : Prop := flags.toNat % 4 ≠ 2 ∧ flags.toNat / 4 % 4 ≠ 2

/-- The trigger mode that the code takes an override to have: that of the polarity bits. -/
def codeTriggerMode (flags : UInt16) : TriggerMode :=
  if flags.toNat % 4 = 3 then .level else .edge

theorem readPolarity_eq {flags : UInt16} (h : FlagsValid flags) :
    readPolarity flags = some (acpiPolarity flags) := by
  have hbits : getBits flags.toNat 0 2 = flags.toNat % 4 := by
    rw [getBits_eq (by decide) (by decide)]
    simp
  have hlt : flags.toNat % 4 < 4 := Nat.mod_lt _ (by decide)
  have h2 := h.1
  rw [readPolarity, hbits, acpiPolarity]
  generalize flags.toNat % 4 = n at hlt h2
  interval_cases n <;> first | rfl | exact absurd rfl h2

theorem readTriggerMode_eq {flags : UInt16} (h : FlagsValid flags) :
    readTriggerMode flags = some (codeTriggerMode flags) := by
  have hbits : getBits flags.toNat 0 2 = flags.toNat % 4 := by
    rw [getBits_eq (by decide) (by decide)]
    simp
  have hlt : flags.toNat % 4 < 4 := Nat.mod_lt _ (by decide)
  have h2 := h.1
  rw [readTriggerMode, hbits, codeTriggerMode]
  generalize flags.toNat % 4 = n at hlt h2
  interval_cases n <;> first | rfl | exact absurd rfl h2

/-- What `init` has after some entries, the devices being `d` before: the last override of each IRQ
under its vector, the other processors, and the I/O APIC with its pins masked if it was met. -/
structure Scanned (d : Devices) (addr : UInt32) (es : List MadtElem) (s : Scan) : Prop where
  overrides : ∀ irq, s.overrides.map (irq + IRQ_BASE) =
    (lastOverride es irq).map fun o => ⟨o.1, acpiPolarity o.2, codeTriggerMode o.2⟩
  flag : s.flag = decide (processors es = 0)
  apIds : s.apIds.length = processors es - 1
  before : ioApics es = [] → s.devices = d
  after : ioApics es ≠ [] → s.ioApic = ⟨some addr.toNat, IoApic.maxIrq (d addr.toNat)⟩ ∧
    Masked (s.devices addr.toNat) (IoApic.maxIrq (d addr.toNat))

theorem ioApics_append (es : List MadtElem) (e : MadtElem) :
    ioApics (es ++ [e]) = ioApics es ++ ioApics [e] := List.filterMap_append

theorem processors_append (es : List MadtElem) (e : MadtElem) :
    processors (es ++ [e]) = processors es + processors [e] := List.countP_append

section Scanned

variable {d : Devices} {addr : UInt32} {es : List MadtElem} {s : Scan}

/-- An entry that is neither a processor, an I/O APIC nor an override keeps what was read. -/
theorem Scanned.skip (h : Scanned d addr es s) {e : MadtElem} (hover : ∀ irq, e.overrides irq = none)
    (hproc : processors [e] = 0) (hio : ioApics [e] = []) (lapicAddr : ℕ) :
    Scanned d addr (es ++ [e]) { s with lapicAddr } where
  overrides irq := by rw [lastOverride_append, hover irq, Option.none_or]; exact h.overrides irq
  flag := by rw [processors_append, hproc, add_zero]; exact h.flag
  apIds := by rw [processors_append, hproc, add_zero]; exact h.apIds
  before := by rw [ioApics_append, hio, List.append_nil]; exact h.before
  after := by rw [ioApics_append, hio, List.append_nil]; exact h.after

/-- The first processor is the one that runs, the others are kept. -/
theorem Scanned.procLocalApic (h : Scanned d addr es s) (apicId : UInt8) :
    ∃ s', scanEntry s (.procLocalApic apicId) = some s' ∧
      Scanned d addr (es ++ [.procLocalApic apicId]) s' := by
  have hproc : processors (es ++ [.procLocalApic apicId]) = processors es + 1 :=
    processors_append es _
  have hio : ioApics (es ++ [.procLocalApic apicId]) = ioApics es := by
    rw [ioApics_append]
    exact List.append_nil _
  have hover : ∀ irq, s.overrides.map (irq + IRQ_BASE) =
      (lastOverride (es ++ [.procLocalApic apicId]) irq).map
        fun o => ⟨o.1, acpiPolarity o.2, codeTriggerMode o.2⟩ := by
    intro irq
    rw [lastOverride_append]
    exact h.overrides irq
  by_cases hflag : s.flag
  · have hzero : processors es = 0 := by simpa [h.flag] using hflag
    refine ⟨_, if_pos hflag, hover, ?_, ?_, ?_, ?_⟩
    · simp [hproc]
    · rw [hproc, Nat.add_sub_cancel, hzero]
      simpa [hzero] using h.apIds
    · rw [hio]; exact h.before
    · rw [hio]; exact h.after
  · have hpos : processors es ≠ 0 := by simpa [h.flag] using hflag
    refine ⟨_, if_neg hflag, hover, ?_, ?_, ?_, ?_⟩
    · simpa [hproc] using hflag
    · rw [hproc, List.length_append, h.apIds, List.length_singleton]
      omega
    · rw [hio]; exact h.before
    · rw [hio]; exact h.after

/-- The I/O APIC, when only one is allowed, has its pins masked. -/
theorem Scanned.ioApic (h : Scanned d addr es s) {ioapicAddr base : UInt32}
    (hone : ioApics (es ++ [.ioApic ioapicAddr base]) <+: [(addr, 0)]) :
    ∃ s', scanEntry s (.ioApic ioapicAddr base) = some s' ∧
      Scanned d addr (es ++ [.ioApic ioapicAddr base]) s' := by
  have hio : ioApics (es ++ [.ioApic ioapicAddr base]) = ioApics es ++ [(ioapicAddr, base)] :=
    ioApics_append es _
  have hproc : processors (es ++ [.ioApic ioapicAddr base]) = processors es := processors_append es _
  -- it is the first one
  have hfirst : ioApics es = [] ∧ ioapicAddr = addr ∧ base = 0 := by
    rw [hio] at hone
    have hlen := hone.length_le
    rw [List.length_append, List.length_singleton, List.length_singleton] at hlen
    have hnil : ioApics es = [] := List.length_eq_zero_iff.1 (by omega)
    rw [hnil, List.nil_append] at hone
    have heq := hone.eq_of_length rfl
    simpa [hnil] using heq
  obtain ⟨hnil, rfl, rfl⟩ := hfirst
  obtain ⟨d', hinit, hmasked⟩ := IoApic.init_spec ioapicAddr.toNat s.devices
  rw [h.before hnil] at hinit hmasked
  refine ⟨{ s with
      ioApic := ⟨some ioapicAddr.toNat, IoApic.maxIrq (d ioapicAddr.toNat)⟩
      devices := d' }, ?_, ?_, ?_, ?_, ?_, fun _ => ⟨rfl, hmasked⟩⟩
  · simp [scanEntry, h.before hnil, hinit]
  · intro irq
    rw [lastOverride_append]
    exact h.overrides irq
  · rw [hproc]; exact h.flag
  · rw [hproc]; exact h.apIds
  · intro hempty
    simp [hio] at hempty

/-- An override takes the place of an earlier one for its IRQ. -/
theorem Scanned.ioApicSrcOverride (h : Scanned d addr es s) (irqSrc : UInt8) (sysint : UInt32)
    {flags : UInt16} (hvalid : FlagsValid flags) :
    ∃ s', scanEntry s (.ioApicSrcOverride irqSrc sysint flags) = some s' ∧
      Scanned d addr (es ++ [.ioApicSrcOverride irqSrc sysint flags]) s' := by
  have hio : ioApics (es ++ [.ioApicSrcOverride irqSrc sysint flags]) = ioApics es := by
    rw [ioApics_append]
    exact List.append_nil _
  have hproc : processors (es ++ [.ioApicSrcOverride irqSrc sysint flags]) = processors es :=
    processors_append es _
  refine ⟨_, by rw [scanEntry, readPolarity_eq hvalid, readTriggerMode_eq hvalid]; rfl, ?_, ?_, ?_,
    ?_, ?_⟩
  · intro irq
    rw [lastOverride_append]
    by_cases heq : irqSrc = irq
    · subst heq
      simp [IrqOverrides.overrideIrq, MadtElem.overrides]
    · have hkey : irq + IRQ_BASE ≠ irqSrc + IRQ_BASE := fun hk =>
        heq (UInt8.add_left_inj IRQ_BASE |>.1 hk).symm
      simp only [IrqOverrides.overrideIrq, MadtElem.overrides, if_neg heq, Option.none_or]
      rw [Function.update_of_ne hkey]
      exact h.overrides irq
  · rw [hproc]; exact h.flag
  · rw [hproc]; exact h.apIds
  · rw [hio]; exact h.before
  · rw [hio]; exact h.after

/-- **One entry** of the MADT. -/
theorem Scanned.next (h : Scanned d addr es s) {e : MadtElem}
    (hflags : ∀ irq sysint flags, e = .ioApicSrcOverride irq sysint flags → FlagsValid flags)
    (hone : ioApics (es ++ [e]) <+: [(addr, 0)]) :
    ∃ s', scanEntry s e = some s' ∧ Scanned d addr (es ++ [e]) s' := by
  cases e with
  | procLocalApic apicId => exact h.procLocalApic apicId
  | ioApic ioapicAddr base => exact h.ioApic hone
  | ioApicSrcOverride irqSrc sysint flags =>
    exact h.ioApicSrcOverride irqSrc sysint (hflags irqSrc sysint flags rfl)
  | localApicOverride a => exact ⟨_, rfl, h.skip (fun _ => rfl) rfl rfl a.toNat⟩
  | other => exact ⟨_, rfl, h.skip (fun _ => rfl) rfl rfl s.lapicAddr⟩

end Scanned

/-- What `init` has read at the end of the MADT. -/
theorem scanned (d : Devices) (addr : UInt32) (lapicAddr : ℕ) (es : List MadtElem)
    (hflags : ∀ irq sysint flags, .ioApicSrcOverride irq sysint flags ∈ es → FlagsValid flags)
    (hone : ioApics es <+: [(addr, 0)]) :
    ∃ s, es.foldlM scanEntry ⟨lapicAddr, .new, [], true, 0, .new, d⟩ = some s ∧
      Scanned d addr es s := by
  induction es using List.reverseRecOn with
  | nil =>
    exact ⟨_, rfl, fun _ => rfl, rfl, rfl, fun _ => rfl, fun hne => absurd rfl hne⟩
  | append_singleton es e ih =>
    have hprefix : ioApics es <+: [(addr, 0)] :=
      (ioApics_append es e ▸ List.prefix_append _ _).trans hone
    obtain ⟨s, hs, hscanned⟩ := ih (fun irq sysint flags hmem =>
      hflags irq sysint flags (List.mem_append_left _ hmem)) hprefix
    obtain ⟨s', hs', hnext⟩ := hscanned.next (e := e) (fun irq sysint flags heq =>
      hflags irq sysint flags (List.mem_append_right _ (heq ▸ List.mem_singleton_self _))) hone
    refine ⟨s', ?_, hnext⟩
    rw [List.foldlM_append, hs]
    simp [hs']

/-! ### Programming the IRQs -/

/-- The pin that the entry of a vector is written to. -/
def target (overrides : IrqOverrides) (irq : UInt8) : UInt8 := (overrides.getIrq irq).sysint.toUInt8

/-- The last vector written to a pin. -/
def writtenBy (overrides : IrqOverrides) (irqs : List UInt8) (pin : ℕ) : Option UInt8 :=
  irqs.reverse.find? fun irq => (target overrides irq).toNat = pin

/-- The loop over `irq_arr`: each pin holds the entry that was written to it last, and stays masked if
none was. -/
theorem program_spec {s : Scan} {addr : ℕ} {max : UInt8} (hio : s.ioApic = ⟨some addr, max⟩)
    (hmasked : Masked (s.devices addr) max) (irqs : List UInt8) :
    ∃ d', irqs.foldlM (programIrq s) s.devices = some d' ∧ ∀ pin ≤ max.toNat,
      entryAt (d' addr) pin = ((writtenBy s.overrides irqs pin).elim IrqEntry.newMasked
        (irqEntry s.overrides s.bspId)).toU64 := by
  induction irqs using List.reverseRecOn with
  | nil => exact ⟨s.devices, rfl, hmasked⟩
  | append_singleton irqs irq ih =>
    obtain ⟨d', hd', hpins⟩ := ih
    have hset : programIrq s d' irq = some (if target s.overrides irq ≤ s.ioApic.maxIrqIndex then
        setPin d' addr (target s.overrides irq).toNat (irqEntry s.overrides s.bspId irq) else d') :=
      congrArg (Option.map Prod.snd) (IoApic.setIrqEntry_eq (by rw [hio]) (target s.overrides irq)
        (irqEntry s.overrides s.bspId irq) d')
    refine ⟨_, by rw [List.foldlM_append, hd']; simpa using hset, ?_⟩
    intro pin hpin
    have hwritten : writtenBy s.overrides (irqs ++ [irq]) pin =
        if (target s.overrides irq).toNat = pin then some irq
        else writtenBy s.overrides irqs pin := by
      rw [writtenBy, List.reverse_append, List.reverse_singleton, List.singleton_append,
        List.find?_cons]
      split_ifs with h <;> simp [h, writtenBy]
    rw [hwritten]
    by_cases hle : target s.overrides irq ≤ s.ioApic.maxIrqIndex
    · rw [if_pos hle, entryAt_setPin]
      by_cases heq : (target s.overrides irq).toNat = pin
      · rw [if_pos heq, if_pos heq.symm]
        rfl
      · rw [if_neg heq, if_neg (Ne.symm heq)]
        exact hpins pin hpin
    · have hne : (target s.overrides irq).toNat ≠ pin := by
        rintro rfl
        rw [hio] at hle
        exact hle (UInt8.le_iff_toNat_le.2 hpin)
      rw [if_neg hle, if_neg hne]
      exact hpins pin hpin

/-- The legacy IRQs, whose vectors are `irq_arr`. -/
def legacyIrqs : List UInt8 := irqArr.map (· - IRQ_BASE)

/-- The pin of an IRQ: that of its last override, and its own number without one. -/
def pinOf (entries : List MadtElem) (n : UInt8) : ℕ :=
  (lastOverride entries n).elim n.toNat fun o => o.1.toNat

def polarityOf (entries : List MadtElem) (n : UInt8) : PinPolarity :=
  (lastOverride entries n).elim .default fun o => acpiPolarity o.2

def triggerModeOf (entries : List MadtElem) (n : UInt8) : TriggerMode :=
  (lastOverride entries n).elim .default fun o => acpiTriggerMode o.2

/-- The redirection entry at the pin of an IRQ has its vector, polarity and trigger mode, and is not
masked. -/
def Programmed (regs : ℕ → ℕ) (entries : List MadtElem) (n : UInt8) : Prop :=
  let e := entryAt regs (pinOf entries n)
  e % 2 ^ 8 = (n + IRQ_BASE).toNat ∧ e / 2 ^ 13 % 2 = (polarityOf entries n).bit.toNat ∧
    e / 2 ^ 15 % 2 = (triggerModeOf entries n).bit.toNat ∧ e / 2 ^ 16 % 2 = 0

/-- A MADT with one I/O APIC, whose interrupts start at 0, and overrides that give each legacy IRQ a
pin of its own. -/
structure Supported (entries : List MadtElem) (addr : UInt32) (max : UInt8) : Prop where
  one : ioApics entries = [(addr, 0)]
  overrides : ∀ irq sysint flags, .ioApicSrcOverride irq sysint flags ∈ entries →
    irq < 16 ∧ FlagsValid flags
  distinct : ∀ n ∈ legacyIrqs, ∀ m ∈ legacyIrqs, pinOf entries n = pinOf entries m → n = m
  range : ∀ n ∈ legacyIrqs, pinOf entries n ≤ max.toNat

/-- An IRQ is overridden, and the last override has both polarity and trigger bits 3 or neither. -/
def Matched (entries : List MadtElem) (n : UInt8) : Prop :=
  ∃ sysint flags, lastOverride entries n = some (sysint, flags) ∧
    (flags.toNat % 4 = 3 ↔ flags.toNat / 4 % 4 = 3)

theorem mem_legacyIrqs {n : UInt8} : n ∈ legacyIrqs ↔ n + IRQ_BASE ∈ irqArr := by
  rw [legacyIrqs, List.mem_map]
  constructor
  · rintro ⟨irq, hmem, rfl⟩
    rwa [UInt8.sub_add_cancel]
  · intro hmem
    exact ⟨_, hmem, UInt8.add_sub_cancel _ _⟩

theorem trigger_bits_eq {flags : UInt16} :
    (codeTriggerMode flags).bit.toNat = (acpiTriggerMode flags).bit.toNat ↔
      (flags.toNat % 4 = 3 ↔ flags.toNat / 4 % 4 = 3) := by
  unfold codeTriggerMode acpiTriggerMode
  by_cases h1 : flags.toNat % 4 = 3 <;> by_cases h2 : flags.toNat / 4 % 4 = 3 <;>
    simp [h1, h2, TriggerMode.bit]

/-- What `init` leaves at a pin: the entry of the last vector written to it. -/
theorem init_spec {madt : Madt} {addr : UInt32} {d : Devices}
    (h : Supported madt.entries addr (IoApic.maxIrq (d addr.toNat))) :
    ∃ s, Scanned d addr madt.entries s ∧
      ((init madt d).isSome ↔ processors madt.entries ≤ MAX_CPUS) ∧
      ∀ out ∈ init madt d, ∀ pin ≤ (IoApic.maxIrq (d addr.toNat)).toNat,
        entryAt (out.devices addr.toNat) pin = ((writtenBy s.overrides irqArr pin).elim
          IrqEntry.newMasked (irqEntry s.overrides s.bspId)).toU64 := by
  obtain ⟨s, hscan, hs⟩ := scanned d addr madt.lapicAddr.toNat madt.entries
    (fun irq sysint flags hmem => (h.overrides irq sysint flags hmem).2) (by rw [h.one])
  obtain ⟨hio, hmasked⟩ := hs.after (by rw [h.one]; exact List.cons_ne_nil _ _)
  obtain ⟨d', hd', hpins⟩ := program_spec hio hmasked irqArr
  have hcount : s.apIds.length < MAX_CPUS ↔ processors madt.entries ≤ MAX_CPUS := by
    rw [hs.apIds]
    show processors madt.entries - 1 < 16 ↔ processors madt.entries ≤ 16
    omega
  have hinit : init madt d = if s.apIds.length < MAX_CPUS then
      some ⟨s.lapicAddr, s.apIds, decide (madt.lapicFlags &&& 1 > 0), s.ioApic, d'⟩ else none := by
    simp [init, hscan, hd']
  refine ⟨s, hs, ?_, ?_⟩
  · rw [hinit, ← hcount]
    split_ifs with hlt <;> simp [hlt]
  · intro out hout
    rw [hinit] at hout
    split_ifs at hout with hlt
    · cases hout
      exact hpins
    · cases hout

theorem target_of_override {d : Devices} {addr : UInt32} {es : List MadtElem} {s : Scan}
    (hs : Scanned d addr es s) {n : UInt8} {sysint : UInt32} {flags : UInt16}
    (h : lastOverride es n = some (sysint, flags)) :
    s.overrides.getIrq (n + IRQ_BASE) = ⟨sysint, acpiPolarity flags, codeTriggerMode flags⟩ := by
  rw [IrqOverrides.getIrq, hs.overrides n, h]
  rfl

theorem target_of_default {d : Devices} {addr : UInt32} {es : List MadtElem} {s : Scan}
    (hs : Scanned d addr es s) {n : UInt8} (h : lastOverride es n = none) :
    target s.overrides (n + IRQ_BASE) = n + IRQ_BASE := by
  rw [target, IrqOverrides.getIrq, hs.overrides n, h]
  exact UInt8.toUInt8_toUInt32 _

theorem irqEntry_fields (overrides : IrqOverrides) (bspId irq : UInt8) :
    (irqEntry overrides bspId irq).vec = irq ∧
      (irqEntry overrides bspId irq).polarity = (overrides.getIrq irq).polarity ∧
      (irqEntry overrides bspId irq).triggerMode = (overrides.getIrq irq).triggerMode ∧
      (irqEntry overrides bspId irq).masked = false := by
  unfold irqEntry
  dsimp only
  split_ifs <;> exact ⟨rfl, rfl, rfl, rfl⟩

/-- The entry of an overridden IRQ goes to its pin. -/
theorem target_eq_pinOf {d : Devices} {addr : UInt32} {es : List MadtElem} {s : Scan} {max : UInt8}
    (hs : Scanned d addr es s) (h : Supported es addr max) {n : UInt8} (hn : n ∈ legacyIrqs)
    (hmatch : Matched es n) : (target s.overrides (n + IRQ_BASE)).toNat = pinOf es n := by
  obtain ⟨sysint, flags, hover, -⟩ := hmatch
  have hpin : pinOf es n = sysint.toNat := by rw [pinOf, hover, Option.elim_some]
  have hrange := h.range n hn
  have hmax := max.toNat_lt
  rw [hpin] at hrange ⊢
  rw [target, target_of_override hs hover]
  exact Nat.mod_eq_of_lt (show sysint.toNat < 256 by omega)

/-- Where every IRQ is overridden, the pin of an IRQ holds the entry of its vector. -/
theorem writtenBy_pinOf {d : Devices} {addr : UInt32} {es : List MadtElem} {s : Scan} {max : UInt8}
    (hs : Scanned d addr es s) (h : Supported es addr max) (hmatch : ∀ n ∈ legacyIrqs, Matched es n)
    {n : UInt8} (hn : n ∈ legacyIrqs) :
    writtenBy s.overrides irqArr (pinOf es n) = some (n + IRQ_BASE) := by
  have hmem : n + IRQ_BASE ∈ irqArr.reverse := List.mem_reverse.2 (mem_legacyIrqs.1 hn)
  obtain ⟨irq, hirq⟩ := Option.isSome_iff_exists.1 <|
    (List.find?_isSome (p := fun irq => decide ((target s.overrides irq).toNat = pinOf es n))).2
      ⟨_, hmem, decide_eq_true (target_eq_pinOf hs h hn (hmatch n hn))⟩
  have htarget : (target s.overrides irq).toNat = pinOf es n := by simpa using List.find?_some hirq
  obtain ⟨m, rfl⟩ : ∃ m, m + IRQ_BASE = irq := ⟨irq - IRQ_BASE, UInt8.sub_add_cancel _ _⟩
  have hm : m ∈ legacyIrqs := mem_legacyIrqs.2 (List.mem_reverse.1 (List.mem_of_find?_eq_some hirq))
  rw [target_eq_pinOf hs h hm (hmatch m hm)] at htarget
  rw [writtenBy, hirq, h.distinct m hm n hn htarget]

theorem add_irqBase_ne (n : UInt8) : n + IRQ_BASE ≠ n := by
  intro h
  have h32 : IRQ_BASE = 0 := by
    have := congrArg (· - n) h
    simpa [UInt8.add_comm n] using this
  exact absurd h32 (by decide)

/-- **`apic::init` programs every legacy IRQ exactly where each one is overridden and no last override
has polarity bits 3 without trigger bits 3, or the other way round**; it returns for at most
`MAX_CPUS` processors. -/
theorem programmed_iff (madt : Madt) (addr : UInt32) (d : Devices)
    (h : Supported madt.entries addr (IoApic.maxIrq (d addr.toNat))) :
    ((init madt d).isSome ↔ processors madt.entries ≤ MAX_CPUS) ∧
      ∀ out ∈ init madt d,
        (∀ n ∈ legacyIrqs, Programmed (out.devices addr.toNat) madt.entries n) ↔
          ∀ n ∈ legacyIrqs, Matched madt.entries n := by
  obtain ⟨s, hs, hsome, hpins⟩ := init_spec h
  refine ⟨hsome, fun out hout => ⟨fun hprog n hn => ?_, fun hmatch n hn => ?_⟩⟩
  · -- the entry at the pin of `n` was written for the vector of `n`
    obtain ⟨hvec, -, htrigger, hmask⟩ := hprog n hn
    have hpin := hpins out hout (pinOf madt.entries n) (h.range n hn)
    cases hwritten : writtenBy s.overrides irqArr (pinOf madt.entries n) with
    | none =>
      rw [hwritten, Option.elim_none] at hpin
      rw [hpin, IrqEntry.newMasked.toU64_fields.2.2.2] at hmask
      cases hmask
    | some irq =>
      rw [hwritten, Option.elim_some] at hpin
      obtain ⟨hirq, -, hmode, -⟩ := irqEntry_fields s.overrides s.bspId irq
      rw [hpin, (IrqEntry.toU64_fields _).1, hirq, UInt8.toNat_inj] at hvec
      subst hvec
      have htarget : (target s.overrides (n + IRQ_BASE)).toNat = pinOf madt.entries n := by
        simpa using List.find?_some hwritten
      cases hover : lastOverride madt.entries n with
      | none =>
        rw [target_of_default hs hover, pinOf, hover, Option.elim_none, UInt8.toNat_inj] at htarget
        exact absurd htarget (add_irqBase_ne n)
      | some o =>
        obtain ⟨sysint, flags⟩ := o
        rw [hpin, (IrqEntry.toU64_fields _).2.2.1, hmode, target_of_override hs hover, triggerModeOf,
          hover, Option.elim_some, trigger_bits_eq] at htrigger
        exact ⟨sysint, flags, hover, htrigger⟩
  · have hpin := hpins out hout (pinOf madt.entries n) (h.range n hn)
    rw [writtenBy_pinOf hs h hmatch hn, Option.elim_some] at hpin
    obtain ⟨sysint, flags, hover, hbits⟩ := hmatch n hn
    obtain ⟨hvec, hpolarity, hmode, hmask⟩ := irqEntry_fields s.overrides s.bspId (n + IRQ_BASE)
    obtain ⟨h1, h2, h3, h4⟩ := (irqEntry s.overrides s.bspId (n + IRQ_BASE)).toU64_fields
    rw [target_of_override hs hover] at hpolarity hmode
    refine ⟨?_, ?_, ?_, ?_⟩
    · rw [hpin, h1, hvec]
    · rw [hpin, h2, hpolarity, polarityOf, hover, Option.elim_some]
    · rw [hpin, h3, hmode, triggerModeOf, hover, Option.elim_some]
      exact trigger_bits_eq.2 hbits
    · rw [hpin, h4, hmask, Bool.toNat_false]

/-- A MADT as a PC has it: the timer at pin 2, and the ACPI interrupt level triggered. -/
def pcMadt : Madt :=
  ⟨0xfee00000, 1, [.procLocalApic 0, .ioApic 0xfec00000 0, .ioApicSrcOverride 0 2 0,
    .ioApicSrcOverride 9 9 0xd]⟩

/-- An I/O APIC with 24 pins. -/
def pcDevices : Devices := fun _ reg => if reg = IoApic.IO_APIC_VER then 0x170020 else 0

theorem pcMadt_supported :
    Supported pcMadt.entries 0xfec00000 (IoApic.maxIrq (pcDevices (UInt32.toNat 0xfec00000))) where
  one := rfl
  overrides := by
    intro irq sysint flags hmem
    simp only [pcMadt, List.mem_cons, MadtElem.ioApicSrcOverride.injEq, List.not_mem_nil, or_false,
      reduceCtorEq, false_or] at hmem
    rcases hmem with ⟨rfl, rfl, rfl⟩ | ⟨rfl, rfl, rfl⟩
    · exact ⟨by decide, by decide, by decide⟩
    · exact ⟨by decide, by decide, by decide⟩
  distinct := by decide +kernel
  range := by decide +kernel

theorem programmed_iff_pcMadt :
    ((init pcMadt pcDevices).isSome ↔ processors pcMadt.entries ≤ MAX_CPUS) ∧
      ∀ out ∈ init pcMadt pcDevices,
        (∀ n ∈ legacyIrqs,
            Programmed (out.devices (UInt32.toNat 0xfec00000)) pcMadt.entries n) ↔
          ∀ n ∈ legacyIrqs, Matched pcMadt.entries n :=
  programmed_iff pcMadt 0xfec00000 pcDevices pcMadt_supported

/-- On a PC the keyboard's pin stays masked, and the ACPI interrupt is edge triggered. -/
theorem keyboard_masked :
    Supported pcMadt.entries 0xfec00000 (IoApic.maxIrq (pcDevices (UInt32.toNat 0xfec00000))) ∧
      ∃ out ∈ init pcMadt pcDevices,
        entryAt (out.devices (UInt32.toNat 0xfec00000)) 1 = 2 ^ 16 ∧
          entryAt (out.devices (UInt32.toNat 0xfec00000)) 9 = (9 + IRQ_BASE).toNat ∧
          ¬ ∀ n ∈ legacyIrqs,
            Programmed (out.devices (UInt32.toNat 0xfec00000)) pcMadt.entries n := by
  have hpins : ∀ out ∈ init pcMadt pcDevices,
      entryAt (out.devices (UInt32.toNat 0xfec00000)) 1 = 2 ^ 16 ∧
        entryAt (out.devices (UInt32.toNat 0xfec00000)) 9 = (9 + IRQ_BASE).toNat := by
    decide +kernel
  obtain ⟨out, hout⟩ : ∃ out, init pcMadt pcDevices = some out :=
    Option.isSome_iff_exists.1 (by decide +kernel)
  obtain ⟨hkeyboard, hacpi⟩ := hpins out hout
  refine ⟨pcMadt_supported, out, hout, hkeyboard, hacpi, fun h => ?_⟩
  have hvec := (h 1 (by decide)).1
  rw [show pinOf pcMadt.entries 1 = 1 from rfl, hkeyboard] at hvec
  exact absurd hvec (by decide)

end AuroraOs.Apic
