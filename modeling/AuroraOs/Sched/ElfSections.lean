import AuroraOs.Sched.Elf

/-!
# The sections of an executable

Which program headers are parsed as they should: the sections are whole pages around the bytes of memory
that a header asks for, with the bytes of the file inside of them.  The parser compares neither the two
sizes of a header nor its address with anything.
-/

namespace AuroraOs

open Blocks

/-- What is assumed of `VirtAddr`: a canonical number is an address, and any other one panics or is moved
up. -/
structure VirtAddrApi.Admits (V : VirtAddrApi) : Prop where
  canonical : ∀ a, Canonical a → V.new a = some a
  moved : ∀ a < usizeMod, ¬ Canonical a → ∀ b, V.new a = some b → a + PAGE_SIZE ≤ b ∧ b < usizeMod
  add_eq : ∀ a n, V.add a n = V.new ((a + n) % usizeMod)
  diff_eq : ∀ a b, V.diff a b = if b ≤ a then some (a - b) else none

theorem VirtAddrApi.IsVirt.admits {V : VirtAddrApi} (hV : V.IsVirt) : V.Admits where
  canonical _ h := hV.new_of_canonical h
  moved a ha hc b hb := by
    rw [hV.new_eq a ha] at hb
    unfold Canonical at hc
    simp only [usizeMod, PAGE_SIZE] at ha ⊢
    split_ifs at hb <;> simp only [Option.some.injEq] at hb <;> omega
  add_eq := hV.add_eq
  diff_eq := hV.diff_eq

/-- `VirtAddr` whose `new` panics on every number that is not canonical. -/
def strictAddr : VirtAddrApi :=
  let new a := if Canonical a then some a else none
  { virtAddr with
    new
    add := fun a n => new ((a + n) % usizeMod)
    sub := fun a n => if n ≤ a then new (a - n) else none }

theorem strictAddr_admits : strictAddr.Admits where
  canonical _ h := if_pos h
  moved _ _ hc b hb := absurd (hb.symm.trans (if_neg hc)) (by simp)
  add_eq _ _ := rfl
  diff_eq _ _ := rfl

section Reading

variable {bytes data : List UInt8} {i j n : ℕ}

/-- `extract` gives the bytes if they are in the file; a sum that wraps around is below the first. -/
theorem extract_eq (hi : i < usizeMod) (hn : n < usizeMod) : ElfParser.extract data i n =
    if i + n ≤ data.length ∧ i + n < usizeMod then some ((data.drop i).take n) else none := by
  have hbytes : i + n ≤ data.length →
      ((List.range n).map fun k => (data.drop (i + k * 1)).headD 0) = (data.drop i).take n := by
    intro hle
    refine List.ext_getElem (by simp; omega) fun k hk hk' => ?_
    simp only [List.length_map, List.length_range] at hk
    rw [List.getElem_map, List.getElem_range, List.getElem_take, List.getElem_drop, mul_one,
      List.headD_eq_head?_getD, List.head?_drop, List.getElem?_eq_getElem (by omega), Option.getD_some]
  unfold ElfParser.extract extractSlice
  rw [mul_one]
  by_cases hlt : i + n < usizeMod
  · rw [Nat.mod_eq_of_lt hlt]
    by_cases hle : i + n ≤ data.length
    · rw [getRange, if_pos ⟨Nat.le_add_right _ _, hle⟩, if_pos ⟨hle, hlt⟩, Option.map_some, hbytes hle]
    · rw [getRange, if_neg (by omega), if_neg (by omega), Option.map_none]
  · have hmod : (i + n) % usizeMod = i + n - usizeMod := by
      rw [Nat.mod_eq_sub_mod (by omega), Nat.mod_eq_of_lt (by omega)]
    rw [hmod, getRange, if_neg (by omega), if_neg (by omega), Option.map_none]

end Reading

/-! ### Whole pages -/

section Pages

variable {V : VirtAddrApi} {a b e n : ℕ}

/-- Rounding up wraps around in the last page only. -/
theorem alignUp_eq_zero (h : usizeMod < e + PAGE_SIZE) (he : e < usizeMod) : alignUp e PAGE_SIZE = 0 := by
  rw [PAGE_SIZE_eq] at h ⊢
  have hlt : e + 2 ^ 12 - 1 - usizeMod < 2 ^ 12 := by omega
  have hmod : (e + 2 ^ 12 - 1) % usizeMod = e + 2 ^ 12 - 1 - usizeMod := by
    rw [Nat.mod_eq_sub_mod (by omega), Nat.mod_eq_of_lt (hlt.trans (by decide))]
  rw [alignUp, hmod, and_two_pow_sub (hlt.trans (by decide)) (by decide), Nat.div_eq_of_lt hlt, zero_mul]

/-- `aligned` ends a range with a whole page. -/
theorem aligned_eq (hV : V.Admits) (hb : b < usizeMod) (he : V.add b n = some e) :
    AddrRange.aligned V.toAddrApi ⟨b, n⟩ = if b ≤ alignUp e PAGE_SIZE then
      some ⟨alignDown b PAGE_SIZE, alignUp e PAGE_SIZE - alignDown b PAGE_SIZE⟩ else none := by
  have hdown : alignDown b PAGE_SIZE = b / 2 ^ 12 * 2 ^ 12 := by
    rw [PAGE_SIZE_eq, alignDown_eq hb (by decide)]
  have hdvd : PAGE_SIZE ∣ alignUp e PAGE_SIZE := dvd_alignUp
  have hlt : alignUp e PAGE_SIZE < usizeMod := alignUp_lt
  rw [AddrRange.aligned, AddrRange.newAligned]
  simp only [he, hV.diff_eq, Option.bind_eq_bind, Option.bind_some]
  by_cases hle : b ≤ alignUp e PAGE_SIZE
  · rw [if_pos hle, if_pos hle, Option.bind_some]
    generalize alignUp e PAGE_SIZE = up at hdvd hlt hle
    obtain ⟨k, rfl⟩ := hdvd
    have hsize : alignUp (PAGE_SIZE * k - b) PAGE_SIZE = PAGE_SIZE * k - alignDown b PAGE_SIZE := by
      rw [PAGE_SIZE_eq] at *
      rw [hdown, alignUp_eq (by simp only [usizeMod] at *; omega) (by decide)]
      omega
    rw [hsize]
  · rw [if_neg hle, if_neg hle, Option.bind_none]

end Pages

/-! ### Sections that are parsed as they should -/

/-- The section of a header: whole pages that cover the memory of the header, and the bytes of the file,
which end inside of them. -/
structure Section.Loads (file : List UInt8) (h : ProgramHeader) (sec : Section) : Prop where
  page_addr : PAGE_SIZE ∣ sec.virtRange.addr
  page_size : PAGE_SIZE ∣ sec.virtRange.size
  covers : ∀ x : ℕ, h.pVaddr ≤ x → x < h.pVaddr + (h.pMemsz : ℕ) → sec.virtRange.Has x
  inside : sec.dataOffset + (sec.data.getD []).length ≤ sec.virtRange.size
  data : sec.data.getD [] = (file.drop h.pOffset).take h.pFilesz
  length : (sec.data.getD []).length = h.pFilesz

/-- The header is of a section with memory. -/
abbrev ProgramHeader.IsLoaded (h : ProgramHeader) : Prop := h.ptype = P_TYPE_LOAD ∧ (h.pMemsz : ℕ) ≠ 0

/-- The bytes of the header are in the file. -/
abbrev ProgramHeader.InFile (file : List UInt8) (h : ProgramHeader) : Prop :=
  (h.pFilesz : ℕ) = 0 ∨
    h.pOffset + (h.pFilesz : ℕ) ≤ file.length ∧ h.pOffset + (h.pFilesz : ℕ) < usizeMod

/-- `VirtAddr` takes the address of the header, and the end of its memory, rounded up, is not below it. -/
def ProgramHeader.Parses (V : VirtAddrApi) (h : ProgramHeader) : Prop :=
  ∃ b e, V.new h.pVaddr = some b ∧ V.add b h.pMemsz = some e ∧ b ≤ alignUp e PAGE_SIZE

/-- The address is canonical, the memory ends before the last page, and the bytes of the file end in a
page of the memory. -/
structure ProgramHeader.Placed (V : VirtAddrApi) (h : ProgramHeader) : Prop where
  canonical : Canonical h.pVaddr
  noWrap : h.pVaddr + (h.pMemsz : ℕ) < usizeMod
  ends : ∀ e, V.new (h.pVaddr + h.pMemsz) = some e →
    e + PAGE_SIZE ≤ usizeMod ∧ h.pVaddr + (h.pFilesz : ℕ) ≤ alignUp e PAGE_SIZE

section Loads

variable {V : VirtAddrApi} {file : List UInt8} {h : ProgramHeader} {sec : Section} {b e : ℕ}

theorem VirtAddrApi.Admits.le_new {a : ℕ} (hV : V.Admits) (ha : a < usizeMod) (hb : V.new a = some b) :
    a ≤ b ∧ b < usizeMod := by
  by_cases hc : Canonical a
  · obtain rfl := Option.some.inj (hb.symm.trans (hV.canonical a hc))
    exact ⟨le_rfl, ha⟩
  · have hmoved := hV.moved a ha hc b hb
    omega

/-- The pages from an address up to a rounded end. -/
abbrev pagesTo (b e : ℕ) : VirtRange := ⟨alignDown b PAGE_SIZE, alignUp e PAGE_SIZE - alignDown b PAGE_SIZE⟩

/-- What one turn of the loop does with a header of a section. -/
theorem sectionOf_eq (hV : V.Admits) (hl : h.IsLoaded) (hnew : V.new h.pVaddr = some b)
    (hadd : V.add b h.pMemsz = some e) (hle : b ≤ alignUp e PAGE_SIZE) :
    ElfParser.sectionOf V file h = if h.InFile file then
      some (some ⟨pagesTo b e, if (h.pFilesz : ℕ) = 0 then none else
        some ((file.drop h.pOffset).take h.pFilesz), b - alignDown b PAGE_SIZE, h.flags⟩) else some none := by
  have hb := (hV.le_new h.pVaddr.2 hnew).2
  have hdown : alignDown b PAGE_SIZE ≤ b := Nat.and_le_left
  have hsub : subUsize b (alignDown b PAGE_SIZE) = b - alignDown b PAGE_SIZE := by
    unfold subUsize
    rw [show b + usizeMod - alignDown b PAGE_SIZE = b - alignDown b PAGE_SIZE + usizeMod by omega,
      Nat.add_mod_right, Nat.mod_eq_of_lt (by omega)]
  unfold ElfParser.sectionOf
  simp only [if_pos hl.1, if_neg hl.2, hnew, aligned_eq hV hb hadd, if_pos hle, Option.bind_eq_bind,
    Option.bind_some, hsub]
  by_cases hzero : (h.pFilesz : ℕ) = 0
  · rw [if_pos hzero, if_pos (Or.inl hzero), if_pos hzero]
  · rw [if_neg hzero, if_neg hzero, extract_eq h.pOffset.2 h.pFilesz.2]
    by_cases hin : h.pOffset + (h.pFilesz : ℕ) ≤ file.length ∧ h.pOffset + (h.pFilesz : ℕ) < usizeMod
    · rw [if_pos hin, if_pos (Or.inr hin)]
    · rw [if_neg hin, if_neg (not_or.2 ⟨hzero, hin⟩)]

/-- A header that cannot be parsed panics. -/
theorem sectionOf_eq_none (hV : V.Admits) (hl : h.IsLoaded) (hp : ¬ h.Parses V) :
    ElfParser.sectionOf V file h = none := by
  unfold ElfParser.sectionOf
  simp only [if_pos hl.1, if_neg hl.2]
  cases hnew : V.new h.pVaddr with
  | none => rfl
  | some b =>
    have haligned : AddrRange.aligned V.toAddrApi ⟨b, h.pMemsz⟩ = none := by
      cases hadd : V.add b h.pMemsz with
      | none => simp [AddrRange.aligned, AddrRange.newAligned, hadd]
      | some e =>
        rw [aligned_eq hV (hV.le_new h.pVaddr.2 hnew).2 hadd, if_neg]
        exact fun hle => hp ⟨b, e, hnew, hadd, hle⟩
    simp only [Option.bind_eq_bind, Option.bind_some, haligned, Option.bind_none]

/-- The pages around the memory of a header cover it, if they end behind it. -/
theorem covers_iff (hV : V.Admits) (hl : h.IsLoaded) (hnew : V.new h.pVaddr = some b)
    (hle : b ≤ alignUp e PAGE_SIZE) :
    (∀ x : ℕ, h.pVaddr ≤ x → x < h.pVaddr + (h.pMemsz : ℕ) → (pagesTo b e).Has x) ↔
      Canonical h.pVaddr ∧ h.pVaddr + (h.pMemsz : ℕ) ≤ alignUp e PAGE_SIZE := by
  have hb := hV.le_new h.pVaddr.2 hnew
  have hdown : alignDown b PAGE_SIZE ≤ b ∧ b < alignDown b PAGE_SIZE + PAGE_SIZE := by
    rw [PAGE_SIZE_eq, alignDown_eq hb.2 (by decide)]
    omega
  have hmem := hl.2
  have hhas : ∀ x, (pagesTo b e).Has x ↔ alignDown b PAGE_SIZE ≤ x ∧ x < alignUp e PAGE_SIZE := by
    intro x
    unfold Block.Has
    simp only
    omega
  simp only [hhas]
  constructor
  · intro hc
    have hfirst := hc h.pVaddr le_rfl (by omega)
    have hlast := hc (h.pVaddr + (h.pMemsz : ℕ) - 1) (by omega) (by omega)
    refine ⟨?_, by omega⟩
    by_contra hnot
    have hmoved := hV.moved _ h.pVaddr.2 hnot b hnew
    omega
  · rintro ⟨hcanonical, hend⟩ x hlo hhi
    obtain rfl := Option.some.inj (hnew.symm.trans (hV.canonical _ hcanonical))
    omega

/-- What is produced for a header of the file is right if and only if the header is placed. -/
theorem loads_iff (hV : V.Admits) (hl : h.IsLoaded) (hin : h.InFile file) (hnew : V.new h.pVaddr = some b)
    (hadd : V.add b h.pMemsz = some e) (hle : b ≤ alignUp e PAGE_SIZE) :
    Section.Loads file h ⟨pagesTo b e, if (h.pFilesz : ℕ) = 0 then none else
      some ((file.drop h.pOffset).take h.pFilesz), b - alignDown b PAGE_SIZE, h.flags⟩ ↔ h.Placed V := by
  have hb := hV.le_new h.pVaddr.2 hnew
  have hdown : alignDown b PAGE_SIZE ≤ b := Nat.and_le_left
  have hup : alignUp e PAGE_SIZE < usizeMod := alignUp_lt
  have he : e < usizeMod := by
    rw [hV.add_eq] at hadd
    exact (hV.le_new (Nat.mod_lt _ (by decide)) hadd).2
  -- the bytes of the file, and how many they are
  have hdata : (if (h.pFilesz : ℕ) = 0 then none else
      some ((file.drop h.pOffset).take h.pFilesz)).getD [] = (file.drop h.pOffset).take h.pFilesz := by
    split_ifs with hzero
    · rw [hzero, List.take_zero]
      rfl
    · rfl
  have hlength : ((file.drop h.pOffset).take h.pFilesz).length = h.pFilesz := by
    rw [List.length_take, List.length_drop]
    omega
  constructor
  · intro hloads
    obtain ⟨hcanonical, hcovered⟩ := (covers_iff hV hl hnew hle).1 hloads.covers
    obtain rfl := Option.some.inj (hnew.symm.trans (hV.canonical _ hcanonical))
    have hinside := hloads.inside
    simp only [hdata, hlength] at hinside
    refine ⟨hcanonical, by omega, fun e' he' => ?_⟩
    rw [hV.add_eq, Nat.mod_eq_of_lt (by omega)] at hadd
    obtain rfl := Option.some.inj (hadd.symm.trans he')
    refine ⟨?_, by omega⟩
    by_contra hlast
    have hzero := alignUp_eq_zero (not_le.1 hlast) he
    have hmem := hl.2
    omega
  · intro hplaced
    obtain rfl := Option.some.inj (hnew.symm.trans (hV.canonical _ hplaced.canonical))
    have hnoWrap := hplaced.noWrap
    rw [hV.add_eq, Nat.mod_eq_of_lt hnoWrap] at hadd
    obtain ⟨hround, hfile⟩ := hplaced.ends e hadd
    have hend := (hV.le_new hnoWrap hadd).1.trans (le_alignUp hround)
    refine ⟨dvd_alignDown, Nat.dvd_sub dvd_alignUp dvd_alignDown,
      (covers_iff hV hl hnew hle).2 ⟨hplaced.canonical, hend⟩, ?_, hdata, by rw [hdata, hlength]⟩
    simp only [hdata, hlength]
    omega

end Loads

/-! ### All sections of a file -/

/-- The headers of which there is a section. -/
def ElfParser.produced (file : List UInt8) (headers : List ProgramHeader) : List ProgramHeader :=
  headers.filter fun h => decide (h.IsLoaded ∧ h.InFile file)

/-- A file that passes the checks is parsed without a panic, and each section is that of its header. -/
def ParsesRight (V : VirtAddrApi) (file : List UInt8) : Prop :=
  ∀ parser, ElfParser.new file = .ok parser → ∃ secs, parser.programHeaders V = some secs ∧
    List.Forall₂ (Section.Loads file) (ElfParser.produced file parser.headers) secs

/-- A header of a section is parsed, and it is placed if its bytes are in the file. -/
def ProgramHeader.Right (V : VirtAddrApi) (file : List UInt8) (h : ProgramHeader) : Prop :=
  h.IsLoaded → h.Parses V ∧ (h.InFile file → h.Placed V)

section Loop

variable {V : VirtAddrApi} {file : List UInt8}

theorem sectionOf_of_not_loaded {h : ProgramHeader} (hl : ¬ h.IsLoaded) :
    ElfParser.sectionOf V file h = some none := by
  unfold ElfParser.sectionOf
  by_cases htype : h.ptype = P_TYPE_LOAD
  · have hmem : (h.pMemsz : ℕ) = 0 := by
      by_contra hne
      exact hl ⟨htype, hne⟩
    rw [if_pos htype, if_pos hmem]
  · rw [if_neg htype]

/-- The loop, header by header. -/
theorem sections_iff (hV : V.Admits) (headers : List ProgramHeader) :
    (∃ secs, ElfParser.sections V file headers = some secs ∧
      List.Forall₂ (Section.Loads file) (ElfParser.produced file headers) secs) ↔
      ∀ h ∈ headers, h.Right V file := by
  induction headers with
  | nil => simp [ElfParser.sections, ElfParser.produced]
  | cons h headers ih =>
    rw [List.forall_mem_cons, ← ih, ElfParser.sections]
    unfold ElfParser.produced
    by_cases hl : h.IsLoaded
    swap
    · -- the header is skipped
      rw [List.filter_cons_of_neg (by simp [hl]), sectionOf_of_not_loaded hl]
      exact (and_iff_right fun hl' => absurd hl' hl).symm
    by_cases hp : h.Parses V
    swap
    · rw [sectionOf_eq_none hV hl hp]
      exact iff_of_false (by simp) fun hr => hp (hr.1 hl).1
    obtain ⟨b, e, hnew, hadd, hle⟩ := id hp
    rw [sectionOf_eq hV hl hnew hadd hle]
    by_cases hin : h.InFile file
    · have hloads := loads_iff hV hl hin hnew hadd hle
      have hright : h.Right V file ↔ h.Placed V :=
        ⟨fun hr => (hr hl).2 hin, fun hplaced _ => ⟨hp, fun _ => hplaced⟩⟩
      rw [List.filter_cons_of_pos (by simp [hl, hin]), if_pos hin, hright, ← hloads]
      simp only [Option.bind_eq_bind, Option.bind_some]
      constructor
      · rintro ⟨secs, hsecs, hall⟩
        obtain ⟨rest, hrest, hcons⟩ := Option.bind_eq_some_iff.1 hsecs
        obtain rfl := Option.some.inj hcons
        obtain ⟨hfirst, hall⟩ := List.forall₂_cons.1 hall
        exact ⟨hfirst, rest, hrest, hall⟩
      · rintro ⟨hfirst, rest, hrest, hall⟩
        rw [hrest]
        exact ⟨_, rfl, List.forall₂_cons.2 ⟨hfirst, hall⟩⟩
    · -- its bytes are not in the file, and it is skipped
      rw [List.filter_cons_of_neg (by simp [hin]), if_neg hin]
      exact (and_iff_right fun _ => ⟨hp, fun hin' => absurd hin' hin⟩).symm

theorem data_of_new {parser : ElfParser} (hnew : ElfParser.new file = .ok parser) : parser.data = file := by
  unfold ElfParser.new at hnew
  simp only [bind, Except.bind] at hnew
  split at hnew
  · exact absurd hnew (by simp)
  split at hnew
  · exact absurd hnew (by simp)
  split at hnew
  · exact absurd hnew (by simp)
  · rw [← Except.ok.inj hnew]

/-- **The parser** does what it should with a file if and only if every header of a section is parsed, and
is placed if its bytes are in the file. -/
theorem parsesRight_iff (hV : V.Admits) (file : List UInt8) : ParsesRight V file ↔
    ∀ parser, ElfParser.new file = .ok parser → ∀ h ∈ parser.headers, h.Right V file := by
  refine forall_congr' fun parser => forall_congr' fun hnew => ?_
  rw [← sections_iff hV parser.headers, ElfParser.programHeaders, data_of_new hnew]

end Loop

/-- A number of `n` bytes, little-endian. -/
def leBytes : ℕ → ℕ → List UInt8
  | 0, _ => []
  | n + 1, x => x.toUInt8 :: leBytes n (x / 256)

/-- A file with the header of a section that is loaded. -/
def oneSection (pOffset pVaddr pFilesz pMemsz : ℕ) : List UInt8 :=
  leBytes 4 ELF_MAGIC ++ [2, 1, 1, 0] ++ leBytes 8 0 ++ leBytes 2 EXECUTABLE ++ leBytes 2 X64 ++
    leBytes 4 1 ++ leBytes 8 pVaddr ++ leBytes 8 64 ++ leBytes 8 0 ++ leBytes 4 0 ++ leBytes 2 64 ++
    leBytes 2 56 ++ leBytes 2 1 ++ leBytes 6 0 ++
    leBytes 4 P_TYPE_LOAD ++ leBytes 4 5 ++ leBytes 8 pOffset ++ leBytes 8 pVaddr ++ leBytes 8 0 ++
    leBytes 8 pFilesz ++ leBytes 8 pMemsz ++ leBytes 8 0x1000

theorem headers_of_new {file : List UInt8} {parser : ElfParser} {headers : List ProgramHeader}
    (h : (ElfParser.new file).toOption.map ElfParser.headers = some headers)
    (hnew : ElfParser.new file = .ok parser) : parser.headers = headers := by
  rw [hnew] at h
  exact Option.some.inj h

/-- Four bytes in sixteen bytes of memory. -/
theorem parsesRight_iff_small : ParsesRight virtAddr (oneSection 0 0x1000 4 0x10) := by
  have hheaders : (ElfParser.new (oneSection 0 0x1000 4 0x10)).toOption.map ElfParser.headers
      = some [⟨1, 5, 0, 0x1000, 4, 0x10⟩] := by decide +kernel
  refine (parsesRight_iff virtAddr_isVirt.admits _).2 fun parser hnew h hh _ => ?_
  rw [headers_of_new hheaders hnew] at hh
  obtain rfl := List.mem_singleton.1 hh
  refine ⟨⟨0x1000, 0x1010, by decide, by decide, by decide⟩, fun _ => ⟨by decide, by decide, ?_⟩⟩
  intro e he
  obtain rfl : e = 0x1010 := Option.some.inj (he.symm.trans (by decide))
  decide

/-- Two bytes for the last byte of a page: the second one is copied behind the block. -/
theorem not_parsesRight : ¬ ParsesRight virtAddr (oneSection 0 0x1fff 2 1) ∧
    ¬ ParsesRight strictAddr (oneSection 0 0x1fff 2 1) := by
  have hheaders : (ElfParser.new (oneSection 0 0x1fff 2 1)).toOption.map ElfParser.headers
      = some [⟨1, 5, 0, 0x1fff, 2, 1⟩] := by decide +kernel
  have hnot : ∀ {V : VirtAddrApi}, V.Admits → V.new 0x2000 = some 0x2000 →
      ¬ ParsesRight V (oneSection 0 0x1fff 2 1) := by
    intro V hV hend hright
    cases hnew : ElfParser.new (oneSection 0 0x1fff 2 1) with
    | error err =>
      rw [hnew] at hheaders
      exact absurd hheaders (by simp [Except.toOption])
    | ok parser =>
      have hsecs := hright parser hnew
      rw [ElfParser.programHeaders, data_of_new hnew, headers_of_new hheaders hnew] at hsecs
      obtain ⟨-, hplaced⟩ := (sections_iff hV _).1 hsecs _ List.mem_cons_self (by decide)
      exact absurd ((hplaced (by decide +kernel)).ends 0x2000 hend).2 (by decide)
  exact ⟨hnot virtAddr_isVirt.admits (by decide), hnot strictAddr_admits (by decide)⟩

end AuroraOs
