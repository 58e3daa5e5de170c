import AuroraOs.Mem.Sys
import AuroraOs.Mem.PageMapping

/-!
# Addresses from user space

`verify_umem` of `kernel/src/syscall/udata.rs` and what is checked through it: `try_new_user` of
`kernel/src/mem/mod.rs` and `UserPageArray`.

`verify_umem` looks at one address, the last one, and computes it modulo `2 ^ 64`.  Bytes that wrap
around the end of the address space and end below the kernel pass.
-/

namespace AuroraOs

/-- `verify_uaddr`. -/
def verifyUaddr (addr : ℕ) : Bool := addr < KERNEL_VMA

/-- `verify_umem`. -/
def verifyUmem (addr size : ℕ) : Bool := verifyUaddr (subUsize ((addr + size) % usizeMod) 1)

namespace AddrRange

variable (A : AddrApi)

/-- `verify_umem` of a range. -/
def verifyUmem (self : AddrRange) : Bool := AuroraOs.verifyUmem self.addr self.size

/-- `try_new_usize`. -/
def tryNewUsize (addr size : ℕ) : Except SysErr AddrRange :=
  match A.new addr with
  | none => .error .invlVirtAddr
  | some vaddr =>
      if alignOf addr < PAGE_SIZE ∨ alignOf size < PAGE_SIZE then .error .invlPtr
      else .ok ⟨vaddr, size⟩

/-- `try_new_user`. -/
def tryNewUser (addr size : ℕ) : Except SysErr AddrRange := do
  let out ← tryNewUsize A addr size
  if !out.verifyUmem then .error .invlPtr else .ok out

end AddrRange

/-- `UserPageArray`; `len` is in pages. -/
structure UserPageArray where
  addr : Usize
  len : Usize

namespace UserPageArray

variable (A : AddrApi) (self : UserPageArray)

/-- `byte_len`. -/
def byteLen : ℕ := self.len * PAGE_SIZE % usizeMod

/-- `verify`. -/
def verify : Bool := decide (alignOf self.addr ≥ PAGE_SIZE) && verifyUmem self.addr self.byteLen

/-- `as_virt_zone`. -/
def asVirtZone : Except SysErr VirtRange := AddrRange.tryNewUser A self.addr self.byteLen

end UserPageArray

/-! ### What the checks should keep out -/

/-- Bytes from an address on are accepted only if they begin and lie below the kernel, and there is a
sum to subtract `1` from when there are none. -/
structure Guards (accepts : Prop) (addr n : ℕ) : Prop where
  below : accepts → addr + n ≤ KERNEL_VMA
  start : accepts → addr < KERNEL_VMA
  empty : n % usizeMod = 0 → 1 ≤ addr + n % usizeMod

/-- The same for a result: the bytes that were asked for, and the range that is returned. -/
structure RangeGuards (result : Except SysErr VirtRange) (addr n : ℕ) : Prop where
  asked : Guards (∃ r, result = .ok r) addr n
  returned : ∀ r, result = .ok r → Guards True r.addr r.size

/-- Bytes that pass the end of the address space have their last address in the kernel, and no bytes
are not asked for at the address `0` or where the kernel begins. -/
structure EndsRight (addr n : ℕ) : Prop where
  wrap : usizeMod < addr + n → KERNEL_VMA ≤ (addr + n - 1) % usizeMod
  empty : n % usizeMod = 0 → addr ≠ 0
  start : n = 0 → addr ≠ KERNEL_VMA

section Checks

variable {V : VirtAddrApi} {addr n v size : ℕ} {r : VirtRange}

theorem verifyUmem_eq : verifyUmem addr (n % usizeMod)
    = decide ((addr + n + (usizeMod - 1)) % usizeMod < KERNEL_VMA) := by
  have hlast : subUsize ((addr + n % usizeMod) % usizeMod) 1 = (addr + n + (usizeMod - 1)) % usizeMod := by
    simp only [subUsize, usizeMod]
    omega
  rw [verifyUmem, verifyUaddr, hlast]

/-- A last address that is not computed past the end is the last address. -/
theorem verifyUmem_of_le (hpos : 0 < addr + n) (hle : addr + n ≤ usizeMod) :
    verifyUmem addr (n % usizeMod) = true ↔ addr + n ≤ KERNEL_VMA := by
  have hlast : (addr + n + (usizeMod - 1)) % usizeMod = addr + n - 1 := by
    rw [show addr + n + (usizeMod - 1) = addr + n - 1 + usizeMod by omega, Nat.add_mod_right,
      Nat.mod_eq_of_lt (by omega)]
  rw [verifyUmem_eq, hlast, decide_eq_true_iff]
  omega

/-- The machine's `verify_umem`, for as many bytes as are meant. -/
theorem guards_iff : Guards (verifyUmem addr (n % usizeMod) = true) addr n ↔ EndsRight addr n := by
  have hvma : 0 < KERNEL_VMA ∧ KERNEL_VMA < usizeMod := by decide
  constructor
  · intro h
    refine ⟨fun hwrap => ?_, fun h0 h0' => ?_, fun h0 h0' => ?_⟩
    · by_contra hlast
      have hsum : (addr + n - 1) % usizeMod = (addr + n + (usizeMod - 1)) % usizeMod := by
        rw [show addr + n + (usizeMod - 1) = addr + n - 1 + usizeMod by omega, Nat.add_mod_right]
      have hbelow := h.below (by rw [verifyUmem_eq, ← hsum, decide_eq_true_iff]; exact not_le.1 hlast)
      omega
    · have hempty := h.empty h0
      omega
    · have hstart := h.start ((verifyUmem_of_le (by omega) (by omega)).2 (by omega))
      omega
  · intro h
    have hbelow : verifyUmem addr (n % usizeMod) = true → addr + n ≤ KERNEL_VMA := by
      intro hv
      rcases Nat.eq_zero_or_pos (addr + n) with h0 | hpos
      · omega
      by_cases hle : addr + n ≤ usizeMod
      · exact (verifyUmem_of_le hpos hle).1 hv
      have hwrap := h.wrap (by omega)
      rw [verifyUmem_eq, decide_eq_true_iff,
        show addr + n + (usizeMod - 1) = addr + n - 1 + usizeMod by omega, Nat.add_mod_right] at hv
      omega
    refine ⟨hbelow, fun hv => ?_, fun h0 => ?_⟩
    · have hle := hbelow hv
      have hne := h.start
      by_contra hge
      exact hne (by omega) (by omega)
    · have hne := h.empty h0
      omega

/-- `try_new_user` returns a range of whole pages that `verify_umem` accepts. -/
theorem tryNewUser_eq_ok_iff {A : AddrApi} : AddrRange.tryNewUser A addr size = .ok r ↔
    ∃ v, A.new addr = some v ∧ PAGE_SIZE ≤ alignOf addr ∧ PAGE_SIZE ≤ alignOf size ∧
      verifyUmem v size = true ∧ r = ⟨v, size⟩ := by
  unfold AddrRange.tryNewUser AddrRange.tryNewUsize
  cases hv : A.new addr with
  | none => simp [bind, Except.bind]
  | some v =>
    by_cases halign : alignOf addr < PAGE_SIZE ∨ alignOf size < PAGE_SIZE
    · have hnot : ¬ (PAGE_SIZE ≤ alignOf addr ∧ PAGE_SIZE ≤ alignOf size) := by omega
      simp only [if_pos halign, bind, Except.bind, reduceCtorEq, false_iff]
      rintro ⟨w, -, h1, h2, -⟩
      exact hnot ⟨h1, h2⟩
    · have hpages : PAGE_SIZE ≤ alignOf addr ∧ PAGE_SIZE ≤ alignOf size := by omega
      simp only [if_neg halign, bind, Except.bind, AddrRange.verifyUmem, Option.some.injEq,
        exists_eq_left', hpages, true_and]
      by_cases hu : verifyUmem v size = true
      · simp [hu, eq_comm]
      · simp [hu]

theorem pageSize_le_alignOf_zero : PAGE_SIZE ≤ alignOf 0 := by decide

theorem pageSize_le_alignOf_mul (len : ℕ) : PAGE_SIZE ≤ alignOf (len * PAGE_SIZE % usizeMod) := by
  refine (@bytes_le_alignOf_iff _ .k4 (Nat.mod_lt _ (by decide))).2 ?_
  exact (Nat.dvd_mod_iff (by decide)).2 (dvd_mul_left _ _)

/-- `try_new_user` of a size that stands for `n` bytes. -/
theorem rangeGuards_iff (hV : V.IsVirt) (haddr : addr < usizeMod) :
    RangeGuards (AddrRange.tryNewUser V.toAddrApi addr (n % usizeMod)) addr n ↔
      ∀ v, V.new addr = some v → PAGE_SIZE ≤ alignOf addr → PAGE_SIZE ≤ alignOf (n % usizeMod) →
        EndsRight v n := by
  have hmod : n % usizeMod ≤ n := Nat.mod_le _ _
  constructor
  · intro h v hv ha hn
    have hle := hV.le_new haddr hv
    refine guards_iff.1 ⟨fun hu => ?_, fun hu => ?_, fun h0 => ?_⟩
    · have hok := tryNewUser_eq_ok_iff.2 ⟨v, hv, ha, hn, hu, rfl⟩
      have hret : v + n % usizeMod ≤ KERNEL_VMA := (h.returned _ hok).below trivial
      have hask := h.asked.below ⟨_, hok⟩
      -- so many bytes are asked for that their number is not reduced
      have hlt : n < usizeMod := lt_of_le_of_lt (by omega : n ≤ KERNEL_VMA) (by decide)
      rwa [Nat.mod_eq_of_lt hlt] at hret
    · exact (h.returned _ (tryNewUser_eq_ok_iff.2 ⟨v, hv, ha, hn, hu, rfl⟩)).start trivial
    · have hempty := h.asked.empty h0
      omega
  · intro h
    have hguards : ∀ r, AddrRange.tryNewUser V.toAddrApi addr (n % usizeMod) = .ok r →
        addr ≤ r.addr ∧ r.size = n % usizeMod ∧ Guards True r.addr n := by
      intro r hr
      obtain ⟨v, hv, ha, hn, hu, rfl⟩ := tryNewUser_eq_ok_iff.1 hr
      have hg := guards_iff.2 (h v hv ha hn)
      exact ⟨hV.le_new haddr hv, rfl, fun _ => hg.below hu, fun _ => hg.start hu, hg.empty⟩
    refine ⟨⟨?_, ?_, fun h0 => ?_⟩, fun r hr => ?_⟩
    · rintro ⟨r, hr⟩
      obtain ⟨hle, -, hg⟩ := hguards r hr
      have hbelow := hg.below trivial
      omega
    · rintro ⟨r, hr⟩
      obtain ⟨hle, -, hg⟩ := hguards r hr
      exact hle.trans_lt (hg.start trivial)
    · by_contra hzero
      obtain rfl : addr = 0 := by omega
      have hnew : V.new 0 = some 0 := hV.new_of_canonical (Or.inl (by decide))
      have hends := h 0 hnew pageSize_le_alignOf_zero (h0 ▸ pageSize_le_alignOf_zero)
      exact hends.empty h0 rfl
    · obtain ⟨-, hsize, hg⟩ := hguards r hr
      rw [hsize]
      refine ⟨fun _ => ?_, hg.start, fun h0 => ?_⟩
      · have hbelow := hg.below trivial
        omega
      · rw [Nat.mod_mod] at h0 ⊢
        exact hg.empty h0

/-- **The checks of addresses from user space** keep the kernel out exactly for bytes that end right;
the bytes of pages are as many as are meant, and a range is checked where `VirtAddr` puts it. -/
theorem checks_guard_iff (hV : V.IsVirt) (addr size len : Usize) :
    (Guards (verifyUmem addr size = true) addr size ↔ EndsRight addr size) ∧
      (RangeGuards (AddrRange.tryNewUser V.toAddrApi addr size) addr size ↔
        ∀ v, V.new addr = some v → PAGE_SIZE ≤ alignOf addr → PAGE_SIZE ≤ alignOf size →
          EndsRight v size) ∧
      (Guards ((⟨addr, len⟩ : UserPageArray).verify = true) addr (len * PAGE_SIZE) ↔
        (PAGE_SIZE ≤ alignOf addr → EndsRight addr (len * PAGE_SIZE))) ∧
      (RangeGuards ((⟨addr, len⟩ : UserPageArray).asVirtZone V.toAddrApi) addr (len * PAGE_SIZE) ↔
        ∀ v, V.new addr = some v → PAGE_SIZE ≤ alignOf addr → EndsRight v (len * PAGE_SIZE)) := by
  have hsize : (size : ℕ) % usizeMod = size := Nat.mod_eq_of_lt size.2
  refine ⟨?_, ?_, ?_, ?_⟩
  · have h := @guards_iff addr size
    rwa [hsize] at h
  · have h := @rangeGuards_iff V addr size hV addr.2
    rwa [hsize] at h
  · have hverify : (⟨addr, len⟩ : UserPageArray).verify = true ↔
        PAGE_SIZE ≤ alignOf addr ∧ verifyUmem addr (len * PAGE_SIZE % usizeMod) = true := by
      rw [UserPageArray.verify, Bool.and_eq_true, decide_eq_true_iff, UserPageArray.byteLen]
    rw [hverify]
    constructor
    · intro h halign
      exact guards_iff.1 ⟨fun hu => h.below ⟨halign, hu⟩, fun hu => h.start ⟨halign, hu⟩, h.empty⟩
    · intro h
      refine ⟨fun hu => ?_, fun hu => ?_, fun h0 => ?_⟩
      · exact (guards_iff.2 (h hu.1)).below hu.2
      · exact (guards_iff.2 (h hu.1)).start hu.2
      · by_contra hzero
        have haddr : (addr : ℕ) = 0 := by omega
        exact (h (haddr ▸ pageSize_le_alignOf_zero)).empty h0 haddr
  · rw [UserPageArray.asVirtZone, UserPageArray.byteLen]
    refine (rangeGuards_iff hV addr.2).trans ?_
    exact forall_congr' fun v => imp_congr_right fun _ => imp_congr_right fun _ =>
      ⟨fun h => h (pageSize_le_alignOf_mul _), fun h _ => h⟩

/-- One page at `0x1000`. -/
theorem checks_guard_iff_page :
    (Guards (verifyUmem 0x1000 0x1000 = true) 0x1000 0x1000 ↔ EndsRight 0x1000 0x1000) ∧
      (RangeGuards (AddrRange.tryNewUser virtAddr.toAddrApi 0x1000 0x1000) 0x1000 0x1000 ↔
        ∀ v, virtAddr.new 0x1000 = some v → PAGE_SIZE ≤ alignOf 0x1000 → PAGE_SIZE ≤ alignOf 0x1000 →
          EndsRight v 0x1000) ∧
      (Guards ((⟨⟨0x1000, by decide⟩, ⟨1, by decide⟩⟩ : UserPageArray).verify = true) 0x1000
          (1 * PAGE_SIZE) ↔ (PAGE_SIZE ≤ alignOf 0x1000 → EndsRight 0x1000 (1 * PAGE_SIZE))) ∧
      (RangeGuards ((⟨⟨0x1000, by decide⟩, ⟨1, by decide⟩⟩ : UserPageArray).asVirtZone virtAddr.toAddrApi)
          0x1000 (1 * PAGE_SIZE) ↔
        ∀ v, virtAddr.new 0x1000 = some v → PAGE_SIZE ≤ alignOf 0x1000 → EndsRight v (1 * PAGE_SIZE)) :=
  checks_guard_iff virtAddr_isVirt ⟨0x1000, by decide⟩ ⟨0x1000, by decide⟩ ⟨1, by decide⟩

/-- Two pages at the end of the address space wrap around to the first one, and pass every check. -/
theorem not_checks_guard :
    ¬ (∀ addr size : Usize, Guards (verifyUmem addr size = true) addr size) ∧
      ¬ (∀ addr size : Usize, RangeGuards (AddrRange.tryNewUser virtAddr.toAddrApi addr size) addr size) ∧
      ¬ ∀ addr len : Usize, Guards ((⟨addr, len⟩ : UserPageArray).verify = true) addr (len * PAGE_SIZE) := by
  refine ⟨fun h => ?_, fun h => ?_, fun h => ?_⟩
  · have hg := h ⟨0xfffffffffffff000, by decide⟩ ⟨0x2000, by decide⟩
    exact absurd (hg.below (by decide)) (by decide)
  · have hg := (h ⟨0xfffffffffffff000, by decide⟩ ⟨0x2000, by decide⟩).asked
    have hok : AddrRange.tryNewUser virtAddr.toAddrApi 0xfffffffffffff000 0x2000
        = .ok ⟨0xfffffffffffff000, 0x2000⟩ :=
      tryNewUser_eq_ok_iff.2 ⟨_, by decide, by decide, by decide, by decide, rfl⟩
    exact absurd (hg.below ⟨_, hok⟩) (by decide)
  · have hg := h ⟨0xfffffffffffff000, by decide⟩ ⟨2, by decide⟩
    exact absurd (hg.below (by decide)) (by decide)

end Checks
end AuroraOs
