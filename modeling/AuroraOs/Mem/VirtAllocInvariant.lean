import AuroraOs.Mem.VirtAlloc
import AuroraOs.Lib.FirstFit

/-!
# The regions of an address space

The regions are nonempty ranges of whole pages below the kernel, no two of which overlap.  `map`,
`map_at`, `remap`, `remap_at` and `unmap` change a set of regions in one way only: a region goes,
another one comes, or both.  What comes lies in a gap, except where an address is not the number that
the search computed with: `VirtAddr::new` moves an address in `[2 ^ 47, 2 ^ 48)`, and the end of a
range may wrap around.
-/

namespace AuroraOs

open Blocks

/-! ### Pages -/

theorem PAGE_SIZE_eq : PAGE_SIZE = 2 ^ 12 := rfl

section Pages

variable {a n : ℕ}

theorem dvd_alignDown : PAGE_SIZE ∣ alignDown a PAGE_SIZE := by
  have hmask : (usizeMod - 2 ^ 12) % 2 ^ 12 = 0 := by decide
  rw [PAGE_SIZE_eq, Nat.dvd_iff_mod_eq_zero, alignDown, Nat.and_mod_two_pow, hmask, Nat.and_zero]

theorem alignDown_of_dvd (ha : a < usizeMod) (h : PAGE_SIZE ∣ a) : alignDown a PAGE_SIZE = a := by
  rw [PAGE_SIZE_eq] at *
  rw [alignDown_eq ha (by decide), Nat.div_mul_cancel h]

theorem dvd_alignUp : PAGE_SIZE ∣ alignUp a PAGE_SIZE := by
  rw [PAGE_SIZE_eq, alignUp, and_two_pow_sub (Nat.mod_lt _ (by decide)) (by decide)]
  exact dvd_mul_left _ _

theorem alignUp_lt : alignUp a PAGE_SIZE < usizeMod := by
  rw [PAGE_SIZE_eq, alignUp, and_two_pow_sub (Nat.mod_lt _ (by decide)) (by decide)]
  exact (Nat.div_mul_le_self _ _).trans_lt (Nat.mod_lt _ (by decide))

theorem le_alignUp (h : a + PAGE_SIZE ≤ usizeMod) : a ≤ alignUp a PAGE_SIZE :=
  le_alignUp_of_le (by decide) h

/-- Rounding up does not pass a multiple of the page size. -/
theorem alignUp_le (h : n + PAGE_SIZE ≤ usizeMod) (hle : a ≤ n) (hn : PAGE_SIZE ∣ n) :
    alignUp a PAGE_SIZE ≤ n := by
  rw [PAGE_SIZE_eq] at *
  rw [alignUp_eq (by omega) (by decide)]
  omega

theorem alignUp_of_page (h : PAGE_SIZE ∣ a) (hlt : n + a < usizeMod) : alignUp a PAGE_SIZE = a := by
  rw [PAGE_SIZE_eq] at *
  refine alignUp_of_dvd ?_ (by decide) h
  simp only [usizeMod] at *
  omega

end Pages

/-! ### Virtual addresses -/

namespace VirtAddrApi.IsVirt

variable {V : VirtAddrApi} {a b n : ℕ}

/-- An address is not moved downward. -/
theorem le_new (hV : V.IsVirt) (ha : a < usizeMod) (h : V.new a = some b) : a ≤ b := by
  rw [hV.new_eq a ha] at h
  split_ifs at h <;> simp only [Option.some.injEq] at h <;> omega

theorem new_lt (hV : V.IsVirt) (ha : a < usizeMod) (h : V.new a = some b) : b < usizeMod := by
  rw [hV.new_eq a ha] at h
  simp only [usizeMod] at *
  split_ifs at h <;> simp only [Option.some.injEq] at h <;> omega

/-- An address outside `[2 ^ 47, 2 ^ 48)` stays where it is. -/
theorem new_eq_self (hV : V.IsVirt) (ha : a < usizeMod) (h : V.new a = some b)
    (hc : ¬ (MAX_VIRT_ADDR ≤ a ∧ a < 2 ^ 48)) : b = a := by
  rw [hV.new_eq a ha] at h
  simp only [MAX_VIRT_ADDR, Nat.shiftLeft_eq, one_mul] at hc
  split_ifs at h <;> simp only [Option.some.injEq] at h <;> omega

/-- A range that does not wrap around ends at its last address, or at a greater one. -/
theorem le_add (hV : V.IsVirt) (hlt : a + n < usizeMod) (h : V.add a n = some b) : a + n ≤ b := by
  rw [hV.add_eq, Nat.mod_eq_of_lt hlt] at h
  exact hV.le_new hlt h

end VirtAddrApi.IsVirt

/-- Addresses of one half of the address space, all of them canonical. -/
def OneHalf (r : VirtRange) : Prop :=
  r.addr + r.size ≤ 2 ^ 47 ∨ 2 ^ 64 - 2 ^ 47 ≤ r.addr ∧ r.addr + r.size < 2 ^ 64

/-- Such a range ends at the address behind it; behind the lower half comes the upper one. -/
theorem OneHalf.endAddr {V : VirtAddrApi} (hV : V.IsVirt) {r : VirtRange} (h : OneHalf r) :
    ∃ e, r.endAddr V.toAddrApi = some e ∧
      (r.addr + r.size ≠ 2 ^ 47 ∧ e = r.addr + r.size ∨
        r.addr + r.size = 2 ^ 47 ∧ e = 2 ^ 64 - 2 ^ 47) := by
  unfold OneHalf at h
  rw [AddrRange.endAddr, hV.add_eq, Nat.mod_eq_of_lt (by simp only [usizeMod]; omega),
    hV.new_eq _ (by simp only [usizeMod]; omega)]
  split_ifs
  · exact ⟨_, rfl, by omega⟩
  · exact ⟨_, rfl, by omega⟩
  · omega
  · exact ⟨_, rfl, by omega⟩

/-- The range that `aligned` gives ends at an address. -/
theorem AddrRange.aligned_spec {V : VirtAddrApi} (hV : V.IsVirt) {r r' : VirtRange}
    (h : r.aligned V.toAddrApi = some r') :
    PAGE_SIZE ∣ r'.addr ∧ PAGE_SIZE ∣ r'.size ∧ r'.addr + r'.size < usizeMod := by
  simp only [aligned, newAligned, Option.bind_eq_bind, Option.bind_eq_some_iff] at h
  obtain ⟨e, he, d, hd, h⟩ := h
  obtain rfl := Option.some.inj h
  rw [hV.diff_eq] at hd
  have hle : r.addr ≤ alignUp e PAGE_SIZE := by
    by_contra hn
    rw [if_neg hn] at hd
    simp at hd
  rw [if_pos hle, Option.some.injEq] at hd
  subst hd
  have hdown : PAGE_SIZE ∣ alignDown r.addr PAGE_SIZE := dvd_alignDown
  have hdle : alignDown r.addr PAGE_SIZE ≤ r.addr := Nat.and_le_left
  have hup : PAGE_SIZE ∣ alignUp e PAGE_SIZE := dvd_alignUp
  have huplt : alignUp e PAGE_SIZE < usizeMod := alignUp_lt
  -- the size is at most the distance of two multiples of the page size
  have hsize : alignUp (alignUp e PAGE_SIZE - r.addr) PAGE_SIZE
      ≤ alignUp e PAGE_SIZE - alignDown r.addr PAGE_SIZE := by
    refine alignUp_le ?_ (by omega) (Nat.dvd_sub hup hdown)
    simp only [PAGE_SIZE, usizeMod] at *
    omega
  refine ⟨hdown, dvd_alignUp, ?_⟩
  simp only
  omega

/-! ### Well-placed regions -/

/-- Whole pages of the lower part of an address space. -/
structure UserRange (r : VirtRange) : Prop where
  dvd_addr : PAGE_SIZE ∣ r.addr
  dvd_size : PAGE_SIZE ∣ r.size
  pos : 0 < r.size
  lo : PAGE_SIZE ≤ r.addr
  hi : r.addr + r.size ≤ MAX_MAP_ADDR

theorem UserRange.lt_usizeMod {r : VirtRange} (h : UserRange r) : r.addr + r.size < usizeMod :=
  h.hi.trans_lt (by decide)

/-- One range ends before the other begins. -/
def Apart (r r' : VirtRange) : Prop := r.addr + r.size ≤ r'.addr ∨ r'.addr + r'.size ≤ r.addr

/-- The regions of an address space do not overlap. -/
structure VirtMapper.WellPlaced (m : VirtMapper) : Prop where
  range : ∀ r ∈ m.virtMap.keys, UserRange r
  apart : ∀ r ∈ m.virtMap.keys, ∀ r' ∈ m.virtMap.keys, r ≠ r' → Apart r r'

namespace VirtMapper

variable {V : VirtAddrApi} {m m' : VirtMapper} {size a : ℕ} {r r' z : VirtRange}
  {ex : Option VirtRange}

theorem wellPlaced_new : VirtMapper.new.WellPlaced := ⟨by simp [new, SortedMap.empty, SortedMap.keys],
  by simp [new, SortedMap.empty, SortedMap.keys]⟩

/-- The order of the keys is the order of the addresses. -/
theorem WellPlaced.le_of_lt (h : m.WellPlaced) (hr : r ∈ m.virtMap.keys) (hr' : r' ∈ m.virtMap.keys)
    (hlt : r < r') : r.addr + r.size ≤ r'.addr := by
  rcases h.apart r hr r' hr' hlt.ne with hle | hle
  · exact hle
  · have hpos := (h.range r' hr').pos
    rcases AddrRange.lt_iff.1 hlt with hlt | ⟨he, -⟩
    · omega
    · omega

theorem WellPlaced.ordered (h : m.WellPlaced) : Ordered m.virtMap.keys :=
  SortedMap.keys_pairwise.imp_of_mem fun hr hr' hlt => h.le_of_lt hr hr' hlt

/-! ### `find_range` -/

/-- The gap that `find_range` takes does not begin at an address that `VirtAddr::new` moves. -/
def GapCanonical (m : VirtMapper) (size : ℕ) : Prop :=
  ∀ a ∈ m.freeAddr size, ¬ (MAX_VIRT_ADDR ≤ a ∧ a < 2 ^ 48)

instance : Decidable (m.GapCanonical size) :=
  inferInstanceAs (Decidable (∀ a ∈ m.freeAddr size, ¬ (MAX_VIRT_ADDR ≤ a ∧ a < 2 ^ 48)))

theorem subUsize_of_le {a b : ℕ} (ha : a < usizeMod) (h : b ≤ a) : subUsize a b = a - b := by
  rw [subUsize, show a + usizeMod - b = a - b + usizeMod by omega, Nat.add_mod_right,
    Nat.mod_eq_of_lt (by omega)]

/-- Over regions in order, no sum or difference of the scan wraps. -/
theorem scan_eq_firstFit {zones : List VirtRange} (hu : ∀ z ∈ zones, UserRange z)
    (ho : Ordered zones) (hlo : ∀ z ∈ zones, a ≤ z.addr) : scan size a zones = firstFit size a zones := by
  induction zones generalizing a with
  | nil => rfl
  | cons z zones ih =>
    obtain ⟨hz, hzones⟩ := List.pairwise_cons.1 ho
    have hlt := (hu z List.mem_cons_self).lt_usizeMod
    rw [scan, firstFit, subUsize_of_le (by omega) (hlo z List.mem_cons_self), AddrRange.endUsize,
      Nat.mod_eq_of_lt hlt, ih (fun z hz => hu z (List.mem_cons_of_mem _ hz)) hzones hz]

/-- What `find_range` takes is a gap between regions, or after the last one. -/
theorem WellPlaced.freeAddr_spec (h : m.WellPlaced) (ha : m.freeAddr size = some a) :
    PAGE_SIZE ∣ a ∧ PAGE_SIZE ≤ a ∧ a + size ≤ MAX_MAP_ADDR ∧
      ∀ k ∈ m.virtMap.keys, k.addr + k.size ≤ a ∨ a + size ≤ k.addr := by
  have hlo : ∀ k ∈ m.virtMap.keys, PAGE_SIZE ≤ k.addr := fun k hk => (h.range k hk).lo
  obtain ⟨hle, hclear⟩ := @firstFit_clear size _ _ h.ordered hlo
  have hmem := @firstFit_mem size PAGE_SIZE m.virtMap.keys
  have hfound := fun hf => @firstFit_found size _ _ hf hlo h.ordered
  rw [freeAddr, scan_eq_firstFit h.range h.ordered hlo] at ha
  generalize firstFit size PAGE_SIZE m.virtMap.keys = fit at *
  obtain ⟨laddr, found⟩ := fit
  have hmax : laddr ≤ MAX_MAP_ADDR := by
    rcases hmem with rfl | ⟨k, hk, rfl⟩
    · decide
    · exact (h.range k hk).hi
  simp only [subUsize_of_le (show MAX_MAP_ADDR < usizeMod by decide) hmax] at ha
  split_ifs at ha with hnot
  obtain rfl := Option.some.inj ha
  refine ⟨?_, hle, ?_, fun k hk => (hclear k hk).imp_right And.right⟩
  · rcases hmem with rfl | ⟨k, hk, rfl⟩
    · exact dvd_rfl
    · exact Nat.dvd_add (h.range k hk).dvd_addr (h.range k hk).dvd_size
  · cases found with
    | true =>
      obtain ⟨k, hk, hkle⟩ := hfound rfl
      have := (h.range k hk).hi
      omega
    | false =>
      simp only [Bool.not_false, true_and, not_lt] at hnot
      omega

/-- What `find_range` returns lies between the regions, unless its address was moved. -/
theorem WellPlaced.findRange_spec (h : m.WellPlaced) (hV : V.IsVirt) (hc : m.GapCanonical size)
    (hpos : 0 < size) (hr : m.findRange V size = some (some r)) :
    UserRange r ∧ ∀ k ∈ m.virtMap.keys, Apart k r := by
  unfold findRange at hr
  cases ha : m.freeAddr size with
  | none =>
    rw [ha] at hr
    simp at hr
  | some a =>
    rw [ha] at hr
    obtain ⟨b, hb, hr⟩ := Option.map_eq_some_iff.1 hr
    obtain rfl := Option.some.inj hr
    obtain ⟨hdvd, hlo, hhi, hclear⟩ := h.freeAddr_spec ha
    have hmax : MAX_MAP_ADDR + PAGE_SIZE ≤ usizeMod := by decide
    have hlt : a < usizeMod := by omega
    obtain rfl := hV.new_eq_self hlt hb (hc a ha)
    have hup : size ≤ alignUp size PAGE_SIZE := le_alignUp (by omega)
    have hgap : ∀ x, PAGE_SIZE ∣ x → x ≤ MAX_MAP_ADDR → b + size ≤ x →
        b + alignUp size PAGE_SIZE ≤ x := by
      intro x hx hxle hbx
      have := alignUp_le (a := size) (n := x - b) (by omega) (by omega) (Nat.dvd_sub hx hdvd)
      omega
    have hdown : (AddrRange.new b size).addr = b := alignDown_of_dvd hlt hdvd
    refine ⟨⟨by rwa [hdown], dvd_alignUp, ?_, by rwa [hdown], ?_⟩, fun k hk => ?_⟩
    · exact hpos.trans_le hup
    · rw [hdown]
      exact hgap _ (by decide) le_rfl hhi
    · rw [Apart, hdown]
      refine (hclear k hk).imp_right fun hle => ?_
      have hk' := h.range k hk
      exact hgap k.addr hk'.dvd_addr (by have := hk'.hi; omega) hle

theorem findRange_size (hr : m.findRange V size = some (some r)) : r.size = alignUp size PAGE_SIZE := by
  unfold findRange at hr
  split at hr
  · simp at hr
  · obtain ⟨b, -, hr⟩ := Option.map_eq_some_iff.1 hr
    rw [← Option.some.inj hr]
    rfl

/-! ### `free_space` -/

/-- A scan from the greatest region down, with one region excluded: it starts at the greatest one of
the others, which is not the excluded one. -/
theorem skip_spec {l : List VirtRange} (hl : l.Pairwise (· > ·)) {prev : Option VirtRange}
    (hprev : prev = if ex.isSome ∧ l[0]? = ex then l[1]? else l[0]?) :
    ¬ (ex.isSome ∧ prev = ex) ∧ (∀ p ∈ prev, p ∈ l) ∧ ∀ k ∈ l, ex ≠ some k → ∃ p ∈ prev, k ≤ p := by
  cases l with
  | nil =>
    obtain rfl : prev = none := by simpa using hprev
    refine ⟨?_, by simp, by simp⟩
    rintro ⟨hsome, rfl⟩
    simp at hsome
  | cons a l =>
    obtain ⟨ha, hl⟩ := List.pairwise_cons.1 hl
    by_cases hex : ex = some a
    · subst hex
      obtain rfl : prev = l[0]? := by simpa using hprev
      refine ⟨?_, fun p hp => List.mem_cons_of_mem _ (List.mem_of_getElem? hp), fun k hk hne => ?_⟩
      · rintro ⟨-, he⟩
        exact lt_irrefl a (ha a (List.mem_of_getElem? he))
      · have hkl : k ∈ l := (List.mem_cons.1 hk).resolve_left fun he => hne (congrArg some he.symm)
        cases l with
        | nil => simp at hkl
        | cons b l =>
          refine ⟨b, rfl, ?_⟩
          rcases List.mem_cons.1 hkl with rfl | hkl
          · exact le_rfl
          · exact ((List.pairwise_cons.1 hl).1 k hkl).le
    · obtain rfl : prev = some a := by
        rw [hprev, if_neg fun h => hex h.2.symm]
        rfl
      refine ⟨fun h => hex h.2.symm, fun p hp => ?_, fun k hk _ => ⟨a, rfl, ?_⟩⟩
      · obtain rfl := Option.some.inj hp
        exact List.mem_cons_self
      · rcases List.mem_cons.1 hk with rfl | hk
        · exact le_rfl
        · exact (ha k hk).le

theorem prevSize_spec {prev : Option VirtRange} {n : ℕ} (hV : V.IsVirt)
    (hprev : ∀ p ∈ prev, UserRange p) (h : prevSize V prev z = some (some n)) :
    PAGE_SIZE ≤ z.addr ∧ ∀ p ∈ prev, p.addr + p.size ≤ z.addr := by
  cases prev with
  | none =>
    simp only [prevSize] at h
    split_ifs at h with hlo
    · simp at h
    · exact ⟨Nat.le_of_not_lt hlo, by simp⟩
  | some p =>
    simp only [prevSize, Option.bind_eq_bind, Option.bind_eq_some_iff] at h
    obtain ⟨e, he, h⟩ := h
    have hp := hprev p rfl
    have hle := hV.le_add hp.lt_usizeMod he
    have hez : ¬ e > z.addr := by
      intro hgt
      rw [if_pos hgt] at h
      simp at h
    have hlo := hp.lo
    refine ⟨by omega, fun q hq => ?_⟩
    obtain rfl := Option.some.inj hq
    omega

theorem nextSize_spec {next : Option VirtRange} {n : ℕ} (hV : V.IsVirt) (hz : z.addr + z.size < usizeMod)
    (hnext : ∀ k ∈ next, UserRange k) (h : nextSize V next z = some (some n)) :
    z.addr + z.size ≤ MAX_MAP_ADDR ∧ ∀ k ∈ next, z.addr + z.size ≤ k.addr := by
  cases next with
  | none =>
    simp only [nextSize, AddrRange.endUsize, Nat.mod_eq_of_lt hz] at h
    split_ifs at h with hhi
    · simp at h
    · exact ⟨Nat.le_of_not_lt hhi, by simp⟩
  | some k =>
    simp only [nextSize, Option.bind_eq_bind, Option.bind_eq_some_iff] at h
    obtain ⟨e, he, h⟩ := h
    have hle := hV.le_add hz he
    have hek : ¬ e > k.addr := by
      intro hgt
      rw [if_pos hgt] at h
      simp at h
    have hhi := (hnext k rfl).hi
    refine ⟨by omega, fun q hq => ?_⟩
    obtain rfl := Option.some.inj hq
    omega

/-- **A range that `free_space` accepts lies between the regions**, the excluded one apart, unless
it wraps around. -/
theorem WellPlaced.freeSpace_spec {fs : ℕ × ℕ} (h : m.WellPlaced) (hV : V.IsVirt)
    (hz : z.addr + z.size < usizeMod) (hf : m.freeSpace V z ex = some (some fs)) :
    PAGE_SIZE ≤ z.addr ∧ z.addr + z.size ≤ MAX_MAP_ADDR ∧
      ∀ k ∈ m.virtMap.keys, ex ≠ some k → Apart k z := by
  set prevIter := (m.virtMap.below z).map Prod.fst with hprevIter
  set nextIter := (m.virtMap.onward z).map Prod.fst with hnextIter
  have hbelow : ∀ {k}, k ∈ prevIter ↔ k ∈ m.virtMap.keys ∧ k < z := by
    simp [hprevIter, SortedMap.map_fst_below]
  have honward : ∀ {k}, k ∈ nextIter ↔ k ∈ m.virtMap.keys ∧ z ≤ k := by
    simp [hnextIter, SortedMap.map_fst_onward]
  set prev := if ex.isSome ∧ prevIter[0]? = ex then prevIter[1]? else prevIter[0]? with hprev
  -- the second test never succeeds: what comes after the excluded region is another one
  obtain ⟨hne, hprevMem, hlast⟩ := skip_spec (List.pairwise_map.2 SortedMap.below_pairwise) hprev
  simp only [freeSpace, ← hprevIter, ← hnextIter, ← hprev, if_neg hne, Option.bind_eq_bind,
    Option.bind_eq_some_iff] at hf
  obtain ⟨_ | ps, hps, hf⟩ := hf
  · simp at hf
  obtain ⟨_ | ns, hns, hf⟩ := Option.bind_eq_some_iff.1 hf
  · simp at hf
  have hnextMem : ∀ n ∈ nextIter[0]?, n ∈ m.virtMap.keys := fun n hn =>
    (honward.1 (List.mem_of_getElem? hn)).1
  obtain ⟨hlo, hbefore⟩ :=
    prevSize_spec hV (fun p hp => h.range p (hbelow.1 (hprevMem p hp)).1) hps
  obtain ⟨hhi, hafter⟩ := nextSize_spec hV hz (fun n hn => h.range n (hnextMem n hn)) hns
  refine ⟨hlo, hhi, fun k hk hex => ?_⟩
  by_cases hkz : k < z
  · left
    obtain ⟨p, hp, hkp⟩ := hlast k (hbelow.2 ⟨hk, hkz⟩) hex
    have hpz := hbefore p hp
    rcases hkp.eq_or_lt with rfl | hlt
    · exact hpz
    · have := h.le_of_lt hk (hbelow.1 (hprevMem p hp)).1 hlt
      omega
  · right
    have hkn : k ∈ nextIter := honward.2 ⟨hk, not_lt.1 hkz⟩
    have hsorted : nextIter.Pairwise (· < ·) := List.pairwise_map.2 SortedMap.onward_pairwise
    generalize nextIter = l at *
    cases l with
    | nil => simp at hkn
    | cons n l =>
      have hnz := hafter n rfl
      rcases List.mem_cons.1 hkn with rfl | hkl
      · exact hnz
      · have := h.le_of_lt (hnextMem n rfl) hk ((List.pairwise_cons.1 hsorted).1 k hkl)
        omega

/-! ### Changes -/

/-- At most one region goes, and at most one comes, into a gap between the others. -/
structure Change (m m' : VirtMapper) (gone : Option VirtRange)
    (come : Option (VirtRange × VirtLayout)) : Prop where
  mem_iff : ∀ e, e ∈ m'.virtMap.entries ↔ come = some e ∨ e ∈ m.virtMap.entries ∧ gone ≠ some e.1
  fits : ∀ e ∈ come, UserRange e.1 ∧ ∀ k ∈ m.virtMap.keys, gone ≠ some k → Apart k e.1

namespace Change

variable {gone : Option VirtRange} {come : Option (VirtRange × VirtLayout)} {l l' : VirtLayout}
  {f : VirtLayout → VirtLayout}

theorem refl (m : VirtMapper) : Change m m none none := ⟨by simp, by simp⟩

theorem mem_keys (h : Change m m' gone come) :
    r ∈ m'.virtMap.keys ↔ (∃ l, come = some (r, l)) ∨ r ∈ m.virtMap.keys ∧ gone ≠ some r := by
  simp only [SortedMap.mem_keys, h.mem_iff, exists_or, exists_and_right]

/-- Changes keep the regions well placed. -/
theorem wellPlaced (h : Change m m' gone come) (hm : m.WellPlaced) : m'.WellPlaced := by
  constructor
  · intro r hr
    rcases h.mem_keys.1 hr with ⟨l, hl⟩ | ⟨hr, -⟩
    · exact (h.fits _ hl).1
    · exact hm.range r hr
  · intro r hr r' hr' hne
    rcases h.mem_keys.1 hr with ⟨l, hl⟩ | ⟨hr, hg⟩
    · rcases h.mem_keys.1 hr' with ⟨l', hl'⟩ | ⟨hr', hg'⟩
      · rw [hl] at hl'
        exact absurd (congrArg Prod.fst (Option.some.inj hl')) hne
      · exact ((h.fits _ hl).2 r' hr' hg').symm
    · rcases h.mem_keys.1 hr' with ⟨l', hl'⟩ | ⟨hr', hg'⟩
      · exact (h.fits _ hl').2 r hr hg
      · exact hm.apart r hr r' hr' hne

/-- A region that comes was not there before. -/
theorem not_mem (h : Change m m' gone (some (r, l))) (hg : gone ≠ some r) : r ∉ m.virtMap.keys := by
  intro hr
  obtain ⟨hu, hfree⟩ := h.fits _ rfl
  have hpos := hu.pos
  rcases hfree r hr hg with hle | hle
  · simp only at hle hpos
    omega
  · simp only at hle hpos
    omega

theorem insert (hu : UserRange r) (hfree : ∀ k ∈ m.virtMap.keys, Apart k r)
    (hm' : m'.virtMap = m.virtMap.insert r l) : Change m m' none (some (r, l)) := by
  have hfits : ∀ e ∈ some (r, l), UserRange e.1 ∧ ∀ k ∈ m.virtMap.keys, none ≠ some k → Apart k e.1 := by
    intro e he
    obtain rfl := Option.some.inj he
    exact ⟨hu, fun k hk _ => hfree k hk⟩
  refine ⟨fun e => ?_, hfits⟩
  rw [hm', SortedMap.mem_insert, Option.some.injEq, eq_comm]
  refine or_congr_right ⟨fun h => ⟨h.1, by simp⟩, fun h => ⟨h.1, ?_⟩⟩
  rintro rfl
  have hpos := hu.pos
  rcases hfree _ (SortedMap.mem_keys_of_mem h.1) with hle | hle
  · omega
  · omega

theorem erase (hm' : m'.virtMap = m.virtMap.erase z) : Change m m' (some z) none := by
  refine ⟨fun e => ?_, by simp⟩
  rw [hm', SortedMap.mem_erase]
  simp [eq_comm]

/-- A region whose layout is changed goes and comes back. -/
theorem modify (hm : m.WellPlaced) (hz : (z, l) ∈ m.virtMap.entries)
    (hm' : m'.virtMap = m.virtMap.modify z f) : Change m m' (some z) (some (z, f l)) := by
  constructor
  · intro e
    rw [hm', SortedMap.mem_modify]
    refine or_congr ⟨?_, fun h => ⟨l, hz, (Option.some.inj h).symm⟩⟩ (by simp [eq_comm])
    rintro ⟨v, hv, rfl⟩
    have hvl := SortedMap.entry_unique hv hz rfl
    rw [(Prod.mk.inj hvl).2]
  · intro e he
    obtain rfl := Option.some.inj he
    have hzk := SortedMap.mem_keys_of_mem hz
    refine ⟨hm.range z hzk, fun k hk hne => hm.apart k hk z hzk ?_⟩
    rintro rfl
    exact hne rfl

/-- One change after another that only brings a region. -/
theorem trans {m₁ : VirtMapper} (h : Change m m₁ gone none) (h' : Change m₁ m' none come) :
    Change m m' gone come := by
  constructor
  · intro e
    rw [h'.mem_iff, h.mem_iff]
    simp
  · intro e he
    refine ⟨(h'.fits e he).1, fun k hk hg => (h'.fits e he).2 k ?_ (by simp)⟩
    exact h.mem_keys.2 (Or.inr ⟨hk, hg⟩)

end Change

end VirtMapper
end AuroraOs
