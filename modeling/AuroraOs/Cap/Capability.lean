import AuroraOs.Util

/-!
# Capabilities

`CapFlags`, `CapObjectType`, `CapId` and `Capability` of `kernel/src/cap/mod.rs`, and the page flags
that `Map::map` derives from an id.  A `CapId` packs a number, the object type and the flags into one
word; user code hands it back and the kernel reads the flags out of it.
-/

namespace AuroraOs

/-- `CapFlags`. -/
abbrev CapFlags := BitVec 2

namespace CapFlags

def READ : CapFlags := 1
def WRITE : CapFlags := 2

/-- `CapFlags::from_bits_truncate`. -/
def fromBitsTruncate (bits : ℕ) : CapFlags := BitVec.ofNat 2 bits

/-- `CapFlags::contains`. -/
def contains (self other : CapFlags) : Bool := self &&& other == other

/-- Every flag of the first is a flag of the second. -/
def Subset (a b : CapFlags) : Prop := contains b a = true

end CapFlags

/-- `CapObjectType`. -/
inductive CapObjectType
  | channel
  | futex
  | sMem
  | key
  | mmio
  | interrupt
  | port
  deriving DecidableEq, Repr

namespace CapObjectType

/-- `CapObjectType::from`. -/
def fromUsize : ℕ → Option CapObjectType
  | 0 => some channel
  | 1 => some futex
  | 2 => some sMem
  | 3 => some key
  | 4 => some mmio
  | 5 => some interrupt
  | 6 => some port
  | _ => none

/-- `CapObjectType::as_usize`. -/
def asUsize : CapObjectType → ℕ
  | channel => 0
  | futex => 1
  | sMem => 2
  | key => 3
  | mmio => 4
  | interrupt => 5
  | port => 6

@[simp] theorem fromUsize_asUsize (t : CapObjectType) : fromUsize t.asUsize = some t := by
  cases t <;> rfl

theorem asUsize_lt (t : CapObjectType) : t.asUsize < 8 := by
  cases t <;> decide

end CapObjectType

/-- `CapObject`. -/
class CapObject (T : Type*) where
  capObjectType : CapObjectType

/-- `CapId`, a `usize`. -/
abbrev CapId := ℕ

namespace CapId

/-- `CapId::flags`. -/
def flags (self : CapId) : CapFlags := CapFlags.fromBitsTruncate self

/-- `CapId::cap_object_type`; `none` is a panic. -/
def capObjectType (self : CapId) : Option CapObjectType := CapObjectType.fromUsize (getBits self 2 5)

end CapId

/-- `Capability`. -/
structure Capability (T : Type*) where
  object : T
  flags : CapFlags
  id : CapId

namespace Capability

variable {T : Type*}

/-- `Capability::new`. -/
def new (object : T) (flags : CapFlags) : Capability T := ⟨object, flags, 0⟩

/-- `Capability::clone`. -/
def clone (self : Capability T) : Capability T := ⟨self.object, self.flags, 0⟩

/-- `Capability::and_from_flags`. -/
def andFromFlags (cap : Capability T) (flags : CapFlags) : Capability T :=
  let out := cap.clone
  { out with flags := out.flags &&& flags }

/-- The word that `set_base_id` packs. -/
def pack (id : ℕ) (typ : CapObjectType) (flags : CapFlags) : CapId :=
  (id <<< 5) % usizeMod ||| typ.asUsize <<< 2 ||| flags.toNat

/-- `Capability::set_base_id`; `none` is the failed assertion. -/
def setBaseId [CapObject T] (self : Capability T) (id : ℕ) : Option (Capability T) :=
  if id < 1 <<< 59 then some { self with id := pack id (CapObject.capObjectType T) self.flags }
  else none

end Capability

/-- The page flags of a mapping. -/
abbrev PageMappingFlags := BitVec 5

namespace PageMappingFlags

def READ : PageMappingFlags := 1
def WRITE : PageMappingFlags := 1 <<< 1
def USER : PageMappingFlags := 1 <<< 3

/-- `PageMappingFlags::from_cap_flags`. -/
def fromCapFlags (flags : CapFlags) : PageMappingFlags :=
  let out := USER
  let out := if flags.contains CapFlags.READ then out ||| READ else out
  if flags.contains CapFlags.WRITE then out ||| WRITE else out

/-- Every flag of the first is a flag of the second. -/
def Subset (a b : PageMappingFlags) : Prop := b &&& a = a

instance (a b : PageMappingFlags) : Decidable (Subset a b) := inferInstanceAs (Decidable (_ = _))

end PageMappingFlags

/-! ### Flags -/

namespace CapFlags

variable {a b c : CapFlags}

instance : Decidable (Subset a b) := inferInstanceAs (Decidable (_ = _))

theorem subset_iff : Subset a b ↔ b &&& a = a := by simp [Subset, contains]

theorem Subset.refl (a : CapFlags) : Subset a a := subset_iff.2 (BitVec.and_self)

theorem Subset.trans (h : Subset a b) (h' : Subset b c) : Subset a c := by
  rw [subset_iff] at *
  calc c &&& a = c &&& (b &&& a) := by rw [h]
    _ = b &&& a := by rw [← BitVec.and_assoc, h']
    _ = a := h

/-- Restricting flags. -/
theorem and_subset (a b : CapFlags) : Subset (a &&& b) a := by
  rw [subset_iff, ← BitVec.and_assoc, BitVec.and_self]

/-- More capability flags give more page flags. -/
theorem Subset.fromCapFlags (h : Subset a b) :
    (PageMappingFlags.fromCapFlags a).Subset (PageMappingFlags.fromCapFlags b) := by
  have key : ∀ a b : CapFlags, Subset a b →
      (PageMappingFlags.fromCapFlags a).Subset (PageMappingFlags.fromCapFlags b) := by decide
  exact key a b h

end CapFlags

/-! ### Packing -/

namespace Capability

variable {id id' : ℕ} {typ typ' : CapObjectType} {flags flags' : CapFlags}

/-- The fields lie side by side. -/
theorem pack_eq (h : id < 2 ^ 59) : pack id typ flags = 32 * id + (4 * typ.asUsize + flags.toNat) := by
  have ht := typ.asUsize_lt
  have hf := flags.isLt
  have h4 : 4 * typ.asUsize + flags.toNat < 2 ^ 5 := by omega
  rw [pack, Nat.shiftLeft_eq, Nat.shiftLeft_eq, Nat.mod_eq_of_lt (by simp only [usizeMod]; omega),
    Nat.or_assoc, mul_comm _ (2 ^ 2), ← Nat.two_pow_add_eq_or_of_lt hf, mul_comm id,
    ← Nat.two_pow_add_eq_or_of_lt h4]

theorem pack_injective (h : id < 2 ^ 59) (h' : id' < 2 ^ 59)
    (he : pack id typ flags = pack id' typ' flags') : id = id' := by
  have hsum : 32 * id + (4 * typ.asUsize + flags.toNat) =
      32 * id' + (4 * typ'.asUsize + flags'.toNat) :=
    (pack_eq h).symm.trans (he.trans (pack_eq h'))
  have ht := typ.asUsize_lt
  have hf := flags.isLt
  have ht' := typ'.asUsize_lt
  have hf' := flags'.isLt
  omega

/-- The flags are read back. -/
theorem flags_pack (h : id < 2 ^ 59) : CapId.flags (pack id typ flags) = flags := by
  rw [pack_eq h]
  apply BitVec.eq_of_toNat_eq
  rw [CapId.flags, CapFlags.fromBitsTruncate, BitVec.toNat_ofNat]
  have hf := flags.isLt
  omega

/-- The object type is read back. -/
theorem capObjectType_pack (h : id < 2 ^ 59) :
    CapId.capObjectType (pack id typ flags) = some typ := by
  have ht := typ.asUsize_lt
  have hf := flags.isLt
  have hbits : getBits (pack id typ flags) 2 5 = typ.asUsize := by
    rw [pack_eq h]
    simp only [getBits]
    norm_num
    rw [Nat.and_comm, show 31 = 2 ^ 5 - 1 from rfl, Nat.and_two_pow_sub_one_eq_mod, Nat.shiftRight_eq_div_pow]
    omega
  rw [CapId.capObjectType, hbits, CapObjectType.fromUsize_asUsize]

end Capability
end AuroraOs
