import AuroraOs.Mem.PageMapping

/-!
# Executables

`kernel/src/sched/elf.rs`: the parser of ELF files.  A file is a list of bytes; the headers are read
from it in place.

`program_headers` panics where `VirtAddr` does.  A header whose bytes are not in the file is left out.
-/

namespace AuroraOs

open Blocks

/-! ### Reading bytes -/

/-- A little-endian number. -/
def le : List UInt8 → ℕ
  | [] => 0
  | b :: bytes => b.toNat + 256 * le bytes

/-- The field of `n` bytes at an offset. -/
def field (bytes : List UInt8) (off n : ℕ) : ℕ := le ((bytes.drop off).take n)

/-- A field of type `usize`. -/
def usizeField (bytes : List UInt8) (off : ℕ) : Fin usizeMod := Fin.ofNat usizeMod (field bytes off 8)

/-- `data.get(begin..end)`. -/
def getRange (data : List UInt8) (begin_ end_ : ℕ) : Option (List UInt8) :=
  if begin_ ≤ end_ ∧ end_ ≤ data.length then some ((data.drop begin_).take (end_ - begin_)) else none

/-- `extract_slice` and `extract`: the range is tested, and `len` values of `size` bytes are read. -/
def extractSlice {α : Type} (size : ℕ) (read : List UInt8 → α) (data : List UInt8) (index len : ℕ) :
    Option (List α) :=
  (getRange data index ((index + len * size) % usizeMod)).map fun _ =>
    (List.range len).map fun i => read (data.drop (index + i * size))

/-! ### Headers -/

def ELF_MAGIC : ℕ := 0x464c457f
def BIT_64 : ℕ := 2
def LITTLE_ENDIAN : ℕ := 1
def SYSTEM_V_ABI : ℕ := 0
def EXECUTABLE : ℕ := 2
def X64 : ℕ := 0x3e
def P_TYPE_LOAD : ℕ := 1

/-- `ElfHeader`. -/
structure ElfHeader where
  magic : ℕ
  bits : ℕ
  endianness : ℕ
  abi : ℕ
  info : ℕ
  arch : ℕ
  entry : Fin usizeMod
  programHeader : Fin usizeMod
  phdrEntrySize : ℕ
  phdrLen : ℕ
  deriving DecidableEq

/-- `size_of::<ElfHeader>()`. -/
def ElfHeader.bytes : ℕ := 64

/-- `ProgramHeader`. -/
structure ProgramHeader where
  ptype : ℕ
  flags : ℕ
  pOffset : Fin usizeMod
  pVaddr : Fin usizeMod
  pFilesz : Fin usizeMod
  pMemsz : Fin usizeMod
  deriving DecidableEq

/-- `size_of::<ProgramHeader>()`. -/
def ProgramHeader.bytes : ℕ := 56

/-- A `ProgramHeader` in memory. -/
def ProgramHeader.read (bytes : List UInt8) : ProgramHeader where
  ptype := field bytes 0 4
  flags := field bytes 4 4
  pOffset := usizeField bytes 8
  pVaddr := usizeField bytes 16
  pFilesz := usizeField bytes 32
  pMemsz := usizeField bytes 40

namespace ElfHeader

/-- An `ElfHeader` in memory. -/
def read (bytes : List UInt8) : ElfHeader where
  magic := field bytes 0 4
  bits := field bytes 4 1
  endianness := field bytes 5 1
  abi := field bytes 7 1
  info := field bytes 16 2
  arch := field bytes 18 2
  entry := usizeField bytes 24
  programHeader := usizeField bytes 32
  phdrEntrySize := field bytes 54 2
  phdrLen := field bytes 56 2

/-- `ElfHeader::new`. -/
def new (data : List UInt8) : Except String ElfHeader :=
  if data.length < bytes then .error "invalid elf header" else .ok (read data)

/-- `ElfHeader::check`. -/
def check (self : ElfHeader) : Except String Unit :=
  if self.magic ≠ ELF_MAGIC then .error "Binary is not ELF"
  else if self.bits ≠ BIT_64 ∨ self.endianness ≠ LITTLE_ENDIAN ∨ self.arch ≠ X64 then
    .error "Binary is not an x64 binary"
  else if self.abi ≠ SYSTEM_V_ABI then .error "Binary does not use system V abi"
  else if self.info ≠ EXECUTABLE then .error "Binary is not an executable"
  else if self.phdrEntrySize ≠ ProgramHeader.bytes then .error "Invalid ELF program header sizes"
  else .ok ()

end ElfHeader

/-- `ElfParser`. -/
structure ElfParser where
  data : List UInt8
  elfHeader : ElfHeader
  headers : List ProgramHeader
  deriving DecidableEq

/-- `Section`. -/
structure Section where
  virtRange : VirtRange
  data : Option (List UInt8)
  dataOffset : ℕ
  flags : ℕ
  deriving DecidableEq

namespace ElfParser

/-- `ElfParser::new`. -/
def new (data : List UInt8) : Except String ElfParser := do
  let elfHeader ← ElfHeader.new data
  elfHeader.check
  match extractSlice ProgramHeader.bytes .read data elfHeader.programHeader elfHeader.phdrLen with
  | none => .error "invalid program headers"
  | some headers => .ok ⟨data, elfHeader, headers⟩

section Sections

variable (V : VirtAddrApi) (file : List UInt8)

/-- `extract` of bytes. -/
def extract (index len : ℕ) : Option (List UInt8) := extractSlice 1 (·.headD 0) file index len

/-- The body of the loop of `program_headers`; `some none` is `continue`. -/
def sectionOf (header : ProgramHeader) : Option (Option Section) :=
  if header.ptype = P_TYPE_LOAD then
    if header.pMemsz = (0 : ℕ) then some none
    else do
      let vaddr ← V.new header.pVaddr
      let virtRange : VirtRange := ⟨vaddr, header.pMemsz⟩
      let virtRangeAligned ← virtRange.aligned V.toAddrApi
      let dataOffset := subUsize vaddr virtRangeAligned.addr
      if header.pFilesz = (0 : ℕ) then some (some ⟨virtRangeAligned, none, dataOffset, header.flags⟩)
      else
        match extract file header.pOffset header.pFilesz with
        | some data => some (some ⟨virtRangeAligned, some data, dataOffset, header.flags⟩)
        | none => some none
  else some none

/-- The loop of `program_headers`. -/
def sections : List ProgramHeader → Option (List Section)
  | [] => some []
  | header :: headers => do
      match ← sectionOf V file header with
      | none => sections headers
      | some sec => do some (sec :: (← sections headers))

end Sections

/-- `program_headers`. -/
def programHeaders (V : VirtAddrApi) (self : ElfParser) : Option (List Section) :=
  sections V self.data self.headers

end ElfParser
end AuroraOs
