import AuroraOs.Syscall.UserArray

/-!
# Which bytes are fetched

A pointer to mapped bytes of user space is fetched from when its alignment *is* that of its type: a
pointer that happens to be more aligned is refused.  The end of the bytes has to lie where `range_map`
looks, as for every range.
-/

namespace AuroraOs

open Blocks

namespace VirtMapper

variable (V : VirtAddrApi) (m : VirtMapper)

/-- The address and the bytes from it on are mapped. -/
def Mapped (ptr n : ℕ) : Prop := m.Backed ptr ∧ ∀ x, Block.Has ⟨ptr, n⟩ x → m.Backed x

/-- The start and the end of the bytes are where `range_map` looks. -/
def Located (ptr n : ℕ) : Prop := ∃ e prev next, V.add ptr n = some e ∧
  m.Neighbours ⟨ptr, n⟩ prev next ∧ EndsFound V prev next ptr e

end VirtMapper

/-- A pointer to bytes of user space: it is not null, it is a multiple of the alignment of its type,
and the bytes are mapped below the kernel. -/
structure Valid (m : VirtMapper) (T : ElemType) (ptr n : ℕ) : Prop where
  nonnull : ptr ≠ 0
  aligned : T.align ∣ ptr
  user : ptr + n ≤ KERNEL_VMA
  mapped : m.Mapped ptr n

section Valid

variable {V : VirtAddrApi} {m : VirtMapper} {T : ElemType} {ptr n : ℕ} {r : VirtRange} {memory : ℕ → UInt8}

theorem Valid.lt (h : Valid m T ptr n) : ptr + n < usizeMod := h.user.trans_lt (by decide)

theorem Valid.canonical (hm : m.Regions) (h : Valid m T ptr n) : Canonical ptr := by
  obtain ⟨r, hr, hx⟩ := h.mapped.1.region
  exact VirtMapper.region_canonical hm hr hx

/-- The bytes lie in one half of the address space. -/
theorem Valid.half (hm : m.Regions) (h : Valid m T ptr n) : OneHalf ⟨ptr, n⟩ :=
  VirtMapper.oneHalf_of_regions hm (h.canonical hm) h.lt fun x hx => (h.mapped.2 x hx).region

theorem Valid.size_lt (hm : m.Regions) (h : Valid m T ptr n) : n < 2 ^ 63 := by
  have hhalf : ptr + n ≤ 2 ^ 47 ∨ 2 ^ 64 - 2 ^ 47 ≤ ptr ∧ ptr + n < 2 ^ 64 := h.half hm
  omega

/-- Bytes that end inside a region that they begin in are located. -/
theorem located_of_inner (hV : V.IsVirt) (hm : m.Regions) (hr : r ∈ m.virtMap.keys)
    (hin : VirtMapper.Inner r ⟨ptr, n⟩) : m.Located V ptr n := by
  have hstart : r.Has ptr := ⟨hin.1, by have := hin.2; simp only at this; omega⟩
  have hend : r.Has (ptr + n) := ⟨by have := hin.1; simp only at this; omega, hin.2⟩
  have hcanonical := VirtMapper.region_canonical hm hr hend
  have hadd : V.add ptr n = some (ptr + n) := by
    have hlt : ptr + n < usizeMod := by
      unfold Canonical at hcanonical
      simp only [usizeMod]
      omega
    rw [hV.add_eq, Nat.mod_eq_of_lt hlt, hV.new_of_canonical hcanonical]
  by_cases hrz : r < ⟨ptr, n⟩
  · exact ⟨_, some r, _, hadd, ⟨VirtMapper.prev_of_start hm hr hstart hrz, rfl⟩,
      Or.inl ⟨r, rfl, hstart, hend⟩⟩
  · exact ⟨_, _, some r, hadd, ⟨rfl, (VirtMapper.next_of_start hm hr hstart hrz).1⟩,
      Or.inr (Or.inl ⟨r, rfl, hstart, hend⟩)⟩

/-- What is done with a pointer to mapped bytes of user space. -/
theorem fetchUser_of_valid {α : Type} (hV : V.IsVirt) (hm : m.Regions) (h : Valid m T ptr n)
    (read : VirtRange → Option α) :
    (alignOf ptr = T.align ∧ m.Located V ptr n → fetchUser V m T ptr n read = (read ⟨ptr, n⟩).map some) ∧
      (¬ (alignOf ptr = T.align ∧ m.Located V ptr n) → fetchUser V m T ptr n read = some none) := by
  have hnull := h.nonnull
  have hcanonical := h.canonical hm
  have hnew : V.new ptr = some ptr := hV.new_of_canonical hcanonical
  have huser : verifyUmem ptr n = true := by
    have hlt := h.lt
    have hiff := verifyUmem_of_le (by omega : 0 < ptr + n) hlt.le
    rw [Nat.mod_eq_of_lt (by omega)] at hiff
    exact hiff.2 h.user
  obtain ⟨e, he, hend⟩ := (h.half hm).endAddr hV
  have hce : Canonical e := by
    rw [AddrRange.endAddr, hV.add_eq] at he
    exact hV.canonical (Nat.mod_lt _ (by decide)) he
  obtain ⟨prev, next, hn⟩ : ∃ prev next, m.Neighbours ⟨ptr, n⟩ prev next := ⟨_, _, rfl, rfl⟩
  have hlocated : m.Located V ptr n ↔ VirtMapper.EndsFound V prev next ptr e := by
    constructor
    · rintro ⟨e', prev', next', he', hn', hfound⟩
      obtain rfl : e' = e := Option.some.inj (he'.symm.trans he)
      obtain rfl : prev' = prev := hn'.prev_eq.symm.trans hn.prev_eq
      obtain rfl : next' = next := hn'.next_eq.symm.trans hn.next_eq
      exact hfound
    · exact fun hfound => ⟨e, prev, next, he, hn, hfound⟩
  have hmap := VirtMapper.rangeMap_of_end hV hm hn hcanonical he hce fun data => (read data).map some
  rw [hlocated]
  unfold fetchUser
  by_cases halign : alignOf ptr = T.align
  · have hpass : alignedNonnull T ptr = true := by simp [alignedNonnull, halign, hnull]
    simp only [hpass, Bool.not_true, Bool.false_eq_true, if_false, hnew, AddrRange.verifyUmem, huser,
      halign, true_and]
    exact hmap
  · have hfail : alignedNonnull T ptr = false := by simp [alignedNonnull, Ne.symm halign]
    simp [hfail, halign]

/-! ### The bytes that are copied -/

theorem bytesAt_length {a : ℕ} : (bytesAt memory a n).length = n := by
  simp [bytesAt]

theorem bytesAt_add {a k : ℕ} : bytesAt memory a (n + k) = bytesAt memory a n ++ bytesAt memory (a + n) k := by
  simp [bytesAt, List.range_add, Nat.add_assoc, Function.comp_def]

/-- One value after the other makes up the bytes. -/
theorem flatten_values {a size : ℕ} (len : ℕ) :
    ((List.range len).map fun i => bytesAt memory (a + i * size) size).flatten
      = bytesAt memory a (len * size) := by
  induction len with
  | zero => simp [bytesAt]
  | succ len ih =>
    rw [List.range_succ, List.map_append, List.flatten_append, ih, Nat.succ_mul, bytesAt_add]
    simp

/-- The values are those that are stored from the pointer on. -/
structure Stored (memory : ℕ → UInt8) (T : ElemType) (ptr len : ℕ) (values : List (List UInt8)) : Prop where
  length : values.length = len
  size : ∀ v ∈ values, v.length = T.size
  bytes : values.flatten = bytesAt memory ptr (len * T.size)

theorem copyToHeap_stored {len : ℕ} (h : len * T.size < 2 ^ 63) :
    ∃ values, copyToHeap memory T ⟨ptr, len⟩ = some values ∧ Stored memory T ptr len values := by
  refine ⟨_, if_pos h, ?_, ?_, flatten_values len⟩
  · rw [List.length_map, List.length_range]
  · intro v hv
    obtain ⟨i, -, rfl⟩ := List.mem_map.1 hv
    exact bytesAt_length

/-! ### What is returned, and what is refused -/

/-- Bytes inside a region are returned as they are stored, and `None` is for null, misaligned, kernel
and unmapped pointers only. -/
structure Fetches {α : Type} (m : VirtMapper) (T : ElemType) (ptr n : ℕ) (readable : Prop)
    (result : Option (Option α)) (Exact : α → Prop) : Prop where
  returns : ∀ r ∈ m.virtMap.keys, VirtMapper.Inner r ⟨ptr, n⟩ → Valid m T ptr n → readable →
    ∃ v, result = some (some v) ∧ Exact v
  refuses : result = some none → readable →
    ptr = 0 ∨ ¬ T.align ∣ ptr ∨ ¬ ptr + n ≤ KERNEL_VMA ∨ ¬ m.Mapped ptr n

/-- Two results are possible for a valid pointer. -/
theorem fetches_iff {α : Type} {result : Option (Option α)} {Exact : α → Prop} {readable passes : Prop}
    (hpass : Valid m T ptr n → readable → passes → ∃ v, result = some (some v) ∧ Exact v)
    (hfail : Valid m T ptr n → readable → ¬ passes → result = some none) :
    Fetches m T ptr n readable result Exact ↔ (Valid m T ptr n → readable → passes) := by
  constructor
  · intro h hvalid hreadable
    by_contra hnot
    rcases h.refuses (hfail hvalid hreadable hnot) hreadable with hbad | hbad | hbad | hbad
    · exact hvalid.nonnull hbad
    · exact hbad hvalid.aligned
    · exact hbad hvalid.user
    · exact hbad hvalid.mapped
  · intro h
    refine ⟨fun r _ _ hvalid hreadable => hpass hvalid hreadable (h hvalid hreadable), ?_⟩
    intro hnone hreadable
    by_contra hgood
    push Not at hgood
    have hvalid : Valid m T ptr n := ⟨hgood.1, hgood.2.1, hgood.2.2.1, hgood.2.2.2⟩
    obtain ⟨v, hv, -⟩ := hpass hvalid hreadable (h hvalid hreadable)
    rw [hv] at hnone
    exact absurd hnone (by simp)

/-- The same where every value can be read. -/
theorem fetches_iff_of_valid {α : Type} {result : Option (Option α)} {Exact : α → Prop} {passes : Prop}
    (hpass : Valid m T ptr n → passes → ∃ v, result = some (some v) ∧ Exact v)
    (hfail : Valid m T ptr n → ¬ passes → result = some none) :
    Fetches m T ptr n True result Exact ↔ (Valid m T ptr n → passes) :=
  (fetches_iff (fun h _ => hpass h) fun h _ => hfail h).trans
    (forall_congr' fun _ => forall_prop_of_true trivial)

/-- The size that `try_fetch` tests is the size that is meant. -/
theorem Valid.testedSize {array : UserArray} (h : Valid m T ptr (array.len * T.size)) :
    array.testedSize T = array.len * T.size :=
  Nat.mod_eq_of_lt (by have := h.lt; omega)

theorem UserArray.tryFetch_of_valid (hV : V.IsVirt) (hm : m.Regions) (memory : ℕ → UInt8) (self : UserArray)
    (h : Valid m T self.ptr (self.len * T.size)) :
    (alignOf self.ptr = T.align ∧ m.Located V self.ptr (self.len * T.size) →
      ∃ values, self.tryFetch V m memory T = some (some values) ∧
        Stored memory T self.ptr self.len values) ∧
      (¬ (alignOf self.ptr = T.align ∧ m.Located V self.ptr (self.len * T.size)) →
        self.tryFetch V m memory T = some none) := by
  obtain ⟨hpass, hfail⟩ := fetchUser_of_valid hV hm h fun data => copyToHeap memory T ⟨data.addr, self.len⟩
  unfold UserArray.tryFetch
  rw [h.testedSize]
  refine ⟨fun hc => ?_, hfail⟩
  obtain ⟨values, hvalues, hstored⟩ := @copyToHeap_stored T self.ptr memory self.len (h.size_lt hm)
  exact ⟨values, by rw [hpass hc, hvalues]; rfl, hstored⟩

/-- The string that the bytes encode. -/
theorem fromUTF8?_of_valid {bytes : ByteArray} (h : bytes.IsValidUTF8) :
    ∃ s, String.fromUTF8? bytes = some s ∧ s.toByteArray = bytes :=
  ⟨String.fromUTF8 bytes h, dif_pos h, rfl⟩

/-- **Which bytes are fetched**: everything that should be is, and nothing else is refused, if and only
if the alignment of a valid pointer is that of its type and its bytes are located, which bytes inside a
region are. -/
theorem fetch_iff (hV : V.IsVirt) (hm : m.Regions) (memory : ℕ → UInt8) (T : ElemType) :
    (∀ array : UserArray, Fetches m T array.ptr (array.len * T.size) True (array.tryFetch V m memory T)
        (Stored memory T array.ptr array.len) ↔
      (Valid m T array.ptr (array.len * T.size) →
        alignOf array.ptr = T.align ∧ m.Located V array.ptr (array.len * T.size))) ∧
    (∀ s : UserString, Fetches m .u8 s.data.ptr s.data.len
        (ByteArray.IsValidUTF8 ⟨(bytesAt memory s.data.ptr s.data.len).toArray⟩) (s.tryFetch V m memory)
        (fun out => out.toByteArray = ⟨(bytesAt memory s.data.ptr s.data.len).toArray⟩) ↔
      (Valid m .u8 s.data.ptr s.data.len →
        ByteArray.IsValidUTF8 ⟨(bytesAt memory s.data.ptr s.data.len).toArray⟩ →
        alignOf s.data.ptr = 1 ∧ m.Located V s.data.ptr s.data.len)) ∧
    (∀ ptr : Usize, Fetches m T ptr T.size True (fetchData V m memory T ptr)
        (fun out => out = bytesAt memory ptr T.size) ↔
      (Valid m T ptr T.size → alignOf ptr = T.align ∧ m.Located V ptr T.size)) ∧
    ∀ ptr n, ∀ r ∈ m.virtMap.keys, VirtMapper.Inner r ⟨ptr, n⟩ → m.Located V ptr n := by
  refine ⟨fun array => ?_, fun s => ?_, fun ptr => ?_, fun ptr n r hr hin => located_of_inner hV hm hr hin⟩
  · exact fetches_iff_of_valid (fun h => (array.tryFetch_of_valid hV hm memory h).1)
      fun h => (array.tryFetch_of_valid hV hm memory h).2
  · have hone : s.data.len * ElemType.u8.size = s.data.len := Nat.mul_one _
    refine fetches_iff (fun h hutf hc => ?_) fun h _ hc => ?_
    · rw [← hone] at h hc
      obtain ⟨values, hvalues, hstored⟩ := (s.data.tryFetch_of_valid hV hm memory h).1 hc
      obtain ⟨out, hout, hbytes⟩ := fromUTF8?_of_valid hutf
      have hflat := hstored.bytes
      rw [hone] at hflat
      refine ⟨out, ?_, hbytes⟩
      unfold UserString.tryFetch
      simp only [hvalues, Option.bind_eq_bind, Option.bind_some, hflat, hout]
    · rw [← hone] at h hc
      unfold UserString.tryFetch
      simp only [(s.data.tryFetch_of_valid hV hm memory h).2 hc, Option.bind_eq_bind, Option.bind_some]
  · exact fetches_iff_of_valid (fun h hc => ⟨_, (fetchUser_of_valid hV hm h _).1 hc, rfl⟩)
      fun h hc => (fetchUser_of_valid hV hm h _).2 hc

end Valid

theorem mappedPages_backed {x : ℕ} (h : 0x1000 ≤ x ∧ x < 0x3000) : mappedPages.Backed x := by
  have hoff : x - 0x1000 < 0x2000 := by omega
  exact ⟨_, List.mem_cons_self, h, readable, if_pos hoff, by decide⟩

theorem mappedPages_valid {T : ElemType} {ptr n : ℕ} (hlo : 0x1000 ≤ ptr) (hhi : ptr + n < 0x3000)
    (halign : T.align ∣ ptr) : Valid mappedPages T ptr n := by
  refine ⟨by omega, halign, ?_, mappedPages_backed (by omega), fun x hx => mappedPages_backed ?_⟩
  · exact hhi.le.trans (by decide)
  · unfold Block.Has at hx
    simp only at hx
    omega

/-- Four words whose pointer has the alignment of a word. -/
theorem fetch_iff_words : Fetches mappedPages .u64 0x1008 32 True
    (UserArray.tryFetch virtAddr mappedPages (fun x => x.toUInt8) .u64 ⟨⟨0x1008, by decide⟩, ⟨4, by decide⟩⟩)
    (Stored (fun x => x.toUInt8) .u64 0x1008 4) := by
  have hall := fetch_iff virtAddr_isVirt mappedPages_regions (fun x => x.toUInt8) .u64
  refine (hall.1 ⟨⟨0x1008, by decide⟩, ⟨4, by decide⟩⟩).2 fun _ => ⟨by decide, ?_⟩
  exact hall.2.2.2 _ _ ⟨0x1000, 0x2000⟩ List.mem_cons_self (by decide)

/-- A pointer to one word that has the alignment of two is refused. -/
theorem not_fetch : mappedPages.Regions ∧ ¬ Fetches mappedPages .u64 0x1010 8 True
    (UserArray.tryFetch virtAddr mappedPages (fun x => x.toUInt8) .u64 ⟨⟨0x1010, by decide⟩, ⟨1, by decide⟩⟩)
    (Stored (fun x => x.toUInt8) .u64 0x1010 1) := by
  refine ⟨mappedPages_regions, fun h => ?_⟩
  have hvalid : Valid mappedPages .u64 0x1010 8 := mappedPages_valid (by decide) (by decide) (by decide)
  rcases h.refuses (by decide +kernel) trivial with hbad | hbad | hbad | hbad
  · exact hvalid.nonnull hbad
  · exact hbad hvalid.aligned
  · exact hbad hvalid.user
  · exact hbad hvalid.mapped

end AuroraOs
