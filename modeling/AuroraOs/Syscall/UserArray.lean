import AuroraOs.Mem.RangeMap
import AuroraOs.Syscall.UData

/-!
# Arrays from user space

`UserArray`, `UserString` and `fetch_data` of `kernel/src/syscall/udata.rs`: a pointer from user space is
tested, and the bytes behind it are copied out of the address space of the process.

`try_fetch` tests as many bytes as `len * size_of::<T>()` is modulo `2 ^ 64`, and its slice has `len`
elements.  The test looks at the first byte and at the end of the range.
-/

namespace AuroraOs

open Blocks

/-- What `size_of` and `align_of` say of an element type. -/
structure ElemType where
  size : ℕ
  align : ℕ
  align_pow : ∃ k, align = 2 ^ k
  align_dvd : align ∣ size
  size_lt : size < usizeMod

/-- `aligned_nonnull`. -/
def alignedNonnull (T : ElemType) (ptr : ℕ) : Bool := decide (T.align = alignOf ptr) && decide (ptr ≠ 0)

/-- `core::slice::from_raw_parts`. -/
structure Slice where
  ptr : ℕ
  len : ℕ
  deriving DecidableEq

/-- The bytes from an address on. -/
def bytesAt (memory : ℕ → UInt8) (addr n : ℕ) : List UInt8 := (List.range n).map fun i => memory (addr + i)

/-- `copy_to_heap`; a value is its bytes.  `Vec::with_capacity` panics above `isize::MAX` bytes. -/
def copyToHeap (memory : ℕ → UInt8) (T : ElemType) (slice : Slice) : Option (List (List UInt8)) :=
  if slice.len * T.size < 2 ^ 63 then
    some ((List.range slice.len).map fun i => bytesAt memory (slice.ptr + i * T.size) T.size)
  else none

section Fetch

variable (V : VirtAddrApi) (m : VirtMapper) (memory : ℕ → UInt8) (T : ElemType)

/-- The tests that `try_fetch` and `fetch_data` make of a pointer and of `size` bytes behind it, and the
closure over these bytes. -/
def fetchUser {α : Type} (ptr size : ℕ) (read : VirtRange → Option α) : Option (Option α) :=
  if !alignedNonnull T ptr then some none
  else
    match V.new ptr with
    | none => some none
    | some addr =>
        let range : VirtRange := ⟨addr, size⟩
        if !range.verifyUmem then some none else m.rangeMap V range fun data => (read data).map some

/-- `UserArray`. -/
structure UserArray where
  ptr : Usize
  len : Usize

/-- The size of the range that `try_fetch` tests. -/
def UserArray.testedSize (self : UserArray) : ℕ := self.len * T.size % usizeMod

/-- The slice that the closure of `try_fetch` builds. -/
def UserArray.slice (self : UserArray) : Option (Option Slice) :=
  fetchUser V m T self.ptr (self.testedSize T) fun data => some ⟨data.addr, self.len⟩

/-- `UserArray::try_fetch`. -/
def UserArray.tryFetch (self : UserArray) : Option (Option (List (List UInt8))) :=
  fetchUser V m T self.ptr (self.testedSize T) fun data => copyToHeap memory T ⟨data.addr, self.len⟩

/-- The type `u8`. -/
def ElemType.u8 : ElemType := ⟨1, 1, ⟨0, rfl⟩, dvd_rfl, by decide⟩

/-- `UserString`. -/
structure UserString where
  data : UserArray

/-- `UserString::try_fetch`. -/
def UserString.tryFetch (self : UserString) : Option (Option String) := do
  match ← self.data.tryFetch V m memory .u8 with
  | none => some none
  | some bytes => some (String.fromUTF8? ⟨bytes.flatten.toArray⟩)

/-- `fetch_data`. -/
def fetchData (ptr : Usize) : Option (Option (List UInt8)) :=
  fetchUser V m T ptr T.size fun data => some (bytesAt memory data.addr T.size)

end Fetch

/-! ### Bytes of the address space -/

/-- The element at an offset. -/
def VirtLayout.elemAt : List VirtLayoutElement → ℕ → Option VirtLayoutElement
  | [], _ => none
  | a :: elems, off => if off < a.size then some a else elemAt elems (off - a.size)

namespace VirtMapper

/-- The byte of a region is in an element that is present. -/
def Present (e : VirtRange × VirtLayout) (x : ℕ) : Prop :=
  ∃ a ∈ VirtLayout.elemAt e.2.data (x - e.1.addr), a.flags.present = true

/-- The byte is mapped. -/
def Backed (m : VirtMapper) (x : ℕ) : Prop := ∃ e ∈ m.virtMap.entries, e.1.Has x ∧ Present e x

/-- The byte belongs to a region, and no memory to it. -/
def Reserved (m : VirtMapper) (x : ℕ) : Prop := ∃ e ∈ m.virtMap.entries, e.1.Has x ∧ ¬ Present e x

section Bytes

variable {V : VirtAddrApi} {m : VirtMapper} {x : ℕ} {r z : VirtRange} {prev next : Option VirtRange} {e : ℕ}

theorem Backed.region (h : m.Backed x) : ∃ r ∈ m.virtMap.keys, r.Has x := by
  obtain ⟨e, he, hx, -⟩ := h
  exact ⟨e.1, SortedMap.mem_keys_of_mem he, hx⟩

/-- A byte is in one region only. -/
theorem Backed.not_reserved (hm : m.Regions) (h : m.Backed x) : ¬ m.Reserved x := by
  rintro ⟨e', he', hx', hnot⟩
  obtain ⟨e, he, hx, hpresent⟩ := h
  have heq : e = e' := by
    refine SortedMap.entry_unique he he' ?_
    by_contra hne
    have happ := hm.apart _ (SortedMap.mem_keys_of_mem he) _ (SortedMap.mem_keys_of_mem he') hne
    unfold Apart at happ
    unfold Block.Has at hx hx'
    omega
  exact hnot (heq ▸ hpresent)

theorem backed_of_region (hr : r ∈ m.virtMap.keys) (hx : r.Has x) (h : ¬ m.Reserved x) : m.Backed x := by
  obtain ⟨l, hl⟩ := SortedMap.mem_keys.1 hr
  by_contra hnot
  exact h ⟨(r, l), hl, hx, fun hpresent => hnot ⟨(r, l), hl, hx, hpresent⟩⟩

/-- Bytes of regions are canonical. -/
theorem region_canonical (hm : m.Regions) (hr : r ∈ m.virtMap.keys) (hx : r.Has x) : Canonical x := by
  have hhalf := hm.half r hr
  unfold OneHalf at hhalf
  unfold Block.Has at hx
  unfold Canonical
  omega

/-- A range whose bytes are all in regions does not cross the gap between the halves. -/
theorem oneHalf_of_regions (hm : m.Regions) (hz : Canonical z.addr) (hlt : z.addr + z.size < 2 ^ 64)
    (h : ∀ x, z.Has x → ∃ r ∈ m.virtMap.keys, r.Has x) : OneHalf z := by
  unfold Canonical at hz
  unfold OneHalf
  by_contra hnot
  -- the first address behind the lower half would be in a region
  obtain ⟨r, hr, hx⟩ := h (2 ^ 47) ⟨by omega, by omega⟩
  have hcanonical := region_canonical hm hr hx
  unfold Canonical at hcanonical
  omega

/-- The bytes of a range of one half that is found are in regions. -/
theorem EndsFound.region (hV : V.IsVirt) (hm : m.Regions) (hn : m.Neighbours z prev next)
    (he : z.endAddr V.toAddrApi = some e) (hz : OneHalf z) (h : EndsFound V prev next z.addr e)
    (hx : z.Has x) : ∃ r ∈ m.virtMap.keys, r.Has x := by
  have hpos : 0 < z.size := by
    unfold Block.Has at hx
    omega
  obtain ⟨e', he', hend⟩ := hz.endAddr hV
  obtain rfl := Option.some.inj (he.symm.trans he')
  unfold Block.Has at hx
  rcases (endsFound_iff hV hm hn hz hpos hend).1 h with ⟨p, hp, hin⟩ | ⟨q, hq, hin⟩ | ⟨p, hp, q, hq, htouch, hlo, hhi⟩
  · exact ⟨p, (hn.prev_mem hp).1, ⟨hin.1.trans hx.1, by omega⟩⟩
  · exact ⟨q, (hn.next_mem hq).1, ⟨hin.1.trans hx.1, by omega⟩⟩
  · have hpmem := (hn.prev_mem hp).1
    have hqmem := (hn.next_mem hq).1
    obtain ⟨b, hb, hpe⟩ := (hm.half p hpmem).endAddr hV
    obtain rfl : b = q.addr := Option.some.inj (hb.symm.trans htouch)
    have hhalf := hm.half q hqmem
    unfold OneHalf at hhalf hz
    by_cases hxp : x < p.addr + p.size
    · exact ⟨p, hpmem, ⟨by omega, hxp⟩⟩
    · exact ⟨q, hqmem, ⟨by omega, by omega⟩⟩

end Bytes
end VirtMapper

/-! ### Which pointers are fetched from -/

/-- The tests of `fetchUser`: the pointer is aligned as its type is and no more, the last byte lies
below the kernel, and the start and the end of the range are where `range_map` looks. -/
structure Admitted (V : VirtAddrApi) (m : VirtMapper) (T : ElemType) (ptr size a e : ℕ) : Prop where
  align : T.align = alignOf ptr
  nonnull : ptr ≠ 0
  new : V.new ptr = some a
  user : verifyUmem a size = true
  end_ : V.add a size = some e
  found : ∃ prev next, m.Neighbours ⟨a, size⟩ prev next ∧ VirtMapper.EndsFound V prev next a e

section Admitted

variable {V : VirtAddrApi} {m : VirtMapper} {T : ElemType} {ptr size a e : ℕ}

theorem VirtAddrApi.IsVirt.canonical (hV : V.IsVirt) {b : ℕ} (ha : a < usizeMod) (h : V.new a = some b) :
    Canonical b := by
  rw [hV.new_eq a ha] at h
  unfold Canonical
  simp only [usizeMod] at ha
  split_ifs at h <;> simp only [Option.some.injEq] at h <;> omega

/-- `fetchUser` returns what the closure does, for the pointers that pass its tests. -/
theorem fetchUser_eq_some_iff {α : Type} {read : VirtRange → Option α} {v : α} (hV : V.IsVirt)
    (hm : m.Regions) (hptr : ptr < usizeMod) : fetchUser V m T ptr size read = some (some v) ↔
      ∃ a e, Admitted V m T ptr size a e ∧ read ⟨a, size⟩ = some v := by
  unfold fetchUser
  by_cases halign : alignedNonnull T ptr = true
  swap
  · rw [if_pos (by simpa using halign)]
    simp only [Option.some.injEq, reduceCtorEq, false_iff]
    rintro ⟨a, e, h, -⟩
    exact halign (by simp [alignedNonnull, h.align.symm, h.nonnull])
  rw [if_neg (by simpa using halign)]
  obtain ⟨h1, h2⟩ : T.align = alignOf ptr ∧ ptr ≠ 0 := by simpa [alignedNonnull] using halign
  cases hnew : V.new ptr with
  | none =>
    simp only [Option.some.injEq, reduceCtorEq, false_iff]
    rintro ⟨a, e, h, -⟩
    exact absurd (hnew.symm.trans h.new) (by simp)
  | some a =>
    have hunique : ∀ a' e, Admitted V m T ptr size a' e → a' = a := fun a' e h =>
      Option.some.inj (h.new.symm.trans hnew)
    by_cases huser : verifyUmem a size = true
    swap
    · simp only [AddrRange.verifyUmem, huser, Bool.not_false, if_true, Option.some.injEq, reduceCtorEq,
        false_iff]
      rintro ⟨a', e, h, -⟩
      exact huser (hunique a' e h ▸ h.user)
    simp only [AddrRange.verifyUmem, huser, Bool.not_true, Bool.false_eq_true, if_false]
    have hcanonical := hV.canonical hptr hnew
    cases hend : AddrRange.endAddr V.toAddrApi ⟨a, size⟩ with
    | none =>
      refine iff_of_false (VirtMapper.rangeMap_of_no_end hend _ v) ?_
      rintro ⟨a', e, h, -⟩
      obtain rfl := hunique a' e h
      exact absurd (h.end_.symm.trans hend) (by simp)
    | some e =>
      have hce : Canonical e := by
        rw [AddrRange.endAddr, hV.add_eq] at hend
        exact hV.canonical (Nat.mod_lt _ (by decide)) hend
      obtain ⟨prev, next, hn⟩ : ∃ prev next, m.Neighbours ⟨a, size⟩ prev next := ⟨_, _, rfl, rfl⟩
      have hmap := VirtMapper.rangeMap_of_end hV hm hn hcanonical hend hce fun data => (read data).map some
      constructor
      · intro h
        have hfound : VirtMapper.EndsFound V prev next a e := by
          by_contra hnot
          rw [hmap.2 hnot] at h
          exact absurd h (by simp)
        rw [hmap.1 hfound] at h
        refine ⟨a, e, ⟨h1, h2, hnew, huser, hend, _, _, hn, hfound⟩, ?_⟩
        obtain ⟨w, hw, hwv⟩ := Option.map_eq_some_iff.1 h
        rw [hw, Option.some.inj hwv]
      · rintro ⟨a', e', h, hread⟩
        obtain rfl := hunique a' e' h
        obtain rfl : e' = e := Option.some.inj (h.end_.symm.trans hend)
        obtain ⟨prev', next', hn', hfound⟩ := h.found
        obtain rfl : prev' = prev := hn'.prev_eq.symm.trans hn.prev_eq
        obtain rfl : next' = next := hn'.next_eq.symm.trans hn.next_eq
        rw [hmap.1 hfound, hread, Option.map_some]

/-! ### What a slice reads -/

/-- The slice has the bytes of the range that was tested, and these are mapped bytes of user space. -/
structure Slice.Verified (T : ElemType) (m : VirtMapper) (slice : Slice) (range : VirtRange) : Prop where
  ptr : slice.ptr = range.addr
  bytes : slice.len * T.size = range.size
  user : range.addr + range.size ≤ KERNEL_VMA
  mapped : ∀ x, range.Has x → m.Backed x

/-- Every slice that `try_fetch` builds has the bytes that it tested. -/
def UserArray.ReadsTested (V : VirtAddrApi) (m : VirtMapper) (T : ElemType) (self : UserArray) : Prop :=
  ∀ slice, self.slice V m T = some (some slice) →
    ∃ a, V.new self.ptr = some a ∧ slice.Verified T m ⟨a, self.testedSize T⟩

/-- The bytes of the array lie in one half of the address space, and no reserved page is among them. -/
structure UserArray.Plain (m : VirtMapper) (T : ElemType) (array : UserArray) (a : ℕ) : Prop where
  half : OneHalf ⟨a, array.len * T.size⟩
  backed : ∀ x, Block.Has ⟨a, array.len * T.size⟩ x → ¬ m.Reserved x

/-- **What `try_fetch` reads is what it tested** if and only if a pointer that passes the tests has all
its bytes, counted without wrapping around, in one half, and none of them reserved. -/
theorem UserArray.readsTested_iff (hV : V.IsVirt) (hm : m.Regions) (self : UserArray) :
    self.ReadsTested V m T ↔
      ∀ a e, Admitted V m T self.ptr (self.testedSize T) a e → self.Plain m T a := by
  constructor
  · intro h a e hadmitted
    obtain ⟨a', hnew, hv⟩ := h ⟨a, self.len⟩ ((fetchUser_eq_some_iff hV hm self.ptr.2).2
      ⟨a, e, hadmitted, rfl⟩)
    obtain rfl : a' = a := Option.some.inj (hnew.symm.trans hadmitted.new)
    have hbytes : self.len * T.size = self.testedSize T := hv.bytes
    refine ⟨?_, fun x hx => ?_⟩
    · have hlt : a' + self.len * T.size < 2 ^ 64 := by
        rw [hbytes]
        exact hv.user.trans_lt (by decide)
      refine VirtMapper.oneHalf_of_regions hm (hV.canonical self.ptr.2 hnew) hlt fun x hx => ?_
      rw [hbytes] at hx
      exact (hv.mapped x hx).region
    · rw [hbytes] at hx
      exact (hv.mapped x hx).not_reserved hm
  · intro h slice hslice
    obtain ⟨a, e, hadmitted, hread⟩ := (fetchUser_eq_some_iff hV hm self.ptr.2).1 hslice
    obtain rfl := Option.some.inj hread
    have hplain := h a e hadmitted
    have hend : a + self.len * T.size < usizeMod := by
      have hhalf : a + self.len * T.size ≤ 2 ^ 47 ∨
        2 ^ 64 - 2 ^ 47 ≤ a ∧ a + self.len * T.size < 2 ^ 64 := hplain.half
      simp only [usizeMod]
      omega
    have hbytes : self.testedSize T = self.len * T.size := Nat.mod_eq_of_lt (by omega)
    have hpos : 0 < a := by
      have hle := hV.le_new self.ptr.2 hadmitted.new
      have hne := hadmitted.nonnull
      omega
    refine ⟨a, hadmitted.new, rfl, hbytes.symm, ?_, fun x hx => ?_⟩
    · have huser := hadmitted.user
      rw [UserArray.testedSize] at huser
      rw [hbytes]
      exact (verifyUmem_of_le (by omega) hend.le).1 huser
    · have hend' := hadmitted.end_
      obtain ⟨prev, next, hn, hfound⟩ := hadmitted.found
      rw [hbytes] at hx hend' hn
      obtain ⟨r, hr, hrx⟩ := hfound.region hV hm hn hend' hplain.half hx
      exact VirtMapper.backed_of_region hr hrx (hplain.backed x hx)

end Admitted

/-- The type `u64`. -/
def ElemType.u64 : ElemType := ⟨8, 8, ⟨3, rfl⟩, dvd_rfl, by decide⟩

/-- Two pages of memory that can be read. -/
abbrev readable : VirtLayoutElement :=
  ⟨.allocedMem ⟨⟨KERNEL_VMA + 0x200000, 0x2000⟩, 0⟩, 0x2000, .fromMappingFlags (.READ ||| .USER),
    .READ ||| .USER⟩

/-- Two mapped pages. -/
abbrev mappedPages : VirtMapper where
  virtMap :=
    { entries := [(⟨0x1000, 0x2000⟩, .ofVec [readable] .virtMem)]
      sorted := List.pairwise_singleton _ _ }

theorem mappedPages_regions : mappedPages.Regions := by
  have hkeys : mappedPages.virtMap.keys = [⟨0x1000, 0x2000⟩] := rfl
  refine ⟨?_, ?_, ?_⟩ <;> rw [hkeys]
  · decide
  · simp [OneHalf]
  · simp

/-- Four words in the first page. -/
theorem UserArray.readsTested_iff_words :
    (⟨⟨0x1008, by decide⟩, ⟨4, by decide⟩⟩ : UserArray).ReadsTested virtAddr mappedPages .u64 ↔
      ∀ a e, Admitted virtAddr mappedPages .u64 0x1008 32 a e →
        (⟨⟨0x1008, by decide⟩, ⟨4, by decide⟩⟩ : UserArray).Plain mappedPages .u64 a :=
  UserArray.readsTested_iff virtAddr_isVirt mappedPages_regions _

/-- `2 ^ 61` words have `2 ^ 64` bytes: no byte is tested, and the slice has all of them. -/
theorem UserArray.not_readsTested : mappedPages.Regions ∧
    ¬ (⟨⟨0x1008, by decide⟩, ⟨2 ^ 61, by decide⟩⟩ : UserArray).ReadsTested virtAddr mappedPages .u64 := by
  refine ⟨mappedPages_regions, fun h => ?_⟩
  obtain ⟨a, -, hv⟩ := h ⟨0x1008, 2 ^ 61⟩ (by decide +kernel)
  have hbytes : 2 ^ 61 * 8 = 2 ^ 61 * 8 % usizeMod := hv.bytes
  exact absurd hbytes (by decide)

end AuroraOs
