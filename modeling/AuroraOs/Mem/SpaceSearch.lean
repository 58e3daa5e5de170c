import AuroraOs.Mem.VirtAllocRun

/-!
# Looking for space

`find_range` takes the lowest gap that is large enough.

`remap` asks `free_space` for the space around a new range *without* the region that is resized.  The
two scans of `free_space` find that region before the range or from the range on; the first test for
it looks at the region before, and so does the second.  A region that is found from the range on is
therefore not excluded, and this is where it is found whenever it keeps its size or shrinks.
-/

namespace AuroraOs

open Blocks

namespace VirtMapper

variable {V : VirtAddrApi} {m : VirtMapper} {e z p q : VirtRange} {size laddr : ℕ}

/-! ### The lowest gap -/

/-- The addresses at which a range of the size lies between the regions. -/
def freeAddrs (m : VirtMapper) (size : ℕ) : Set ℕ :=
  {a | PAGE_SIZE ≤ a ∧ a + size ≤ MAX_MAP_ADDR ∧ ∀ k ∈ m.virtMap.keys, k.Disjoint ⟨a, size⟩}

/-- No subtraction in the loop of `find_range` or in the test behind it goes below zero, and no sum
wraps around. -/
def NoUnderflow (size : ℕ) : ℕ → List VirtRange → Prop
  | laddr, [] => laddr ≤ MAX_MAP_ADDR
  | laddr, zone :: zones => laddr ≤ zone.addr ∧ (zone.addr - laddr < size →
      zone.addr + zone.size < usizeMod ∧ NoUnderflow size (zone.addr + zone.size) zones)

theorem noUnderflow {zones : List VirtRange} (hu : ∀ z ∈ zones, UserRange z) (ho : Ordered zones)
    (hlo : ∀ z ∈ zones, laddr ≤ z.addr) (hmax : laddr ≤ MAX_MAP_ADDR) :
    NoUnderflow size laddr zones := by
  induction zones generalizing laddr with
  | nil => exact hmax
  | cons z zones ih =>
    obtain ⟨hz, hzones⟩ := List.pairwise_cons.1 ho
    have huz := hu z List.mem_cons_self
    exact ⟨hlo z List.mem_cons_self, fun _ => ⟨huz.lt_usizeMod,
      ih (fun z hz => hu z (List.mem_cons_of_mem _ hz)) hzones hz huz.hi⟩⟩

/-- Between nonempty ranges to be disjoint is to be apart. -/
theorem apart_of_disjoint (hpos : 0 < p.size) (hpos' : 0 < q.size) (h : p.Disjoint q) : Apart p q :=
  (Block.disjoint_iff hpos hpos').1 h

theorem disjoint_of_apart (h : Apart p q) : p.Disjoint q := by
  intro x hx hx'
  unfold Apart at h
  omega

/-- No free address lies below where the scan ends. -/
theorem scan_le (hm : m.WellPlaced) (hpos : 0 < size) {a : ℕ} (ha : a ∈ m.freeAddrs size) :
    (scan size PAGE_SIZE m.virtMap.keys).1 ≤ a := by
  have hlo : ∀ k ∈ m.virtMap.keys, PAGE_SIZE ≤ k.addr := fun k hk => (hm.range k hk).lo
  rw [scan_eq_firstFit hm.range hm.ordered hlo]
  exact firstFit_le hm.ordered hlo ha.1 fun k hk =>
    apart_of_disjoint (hm.range k hk).pos hpos (ha.2.2 k hk)

/-- The address that `find_range` takes is the lowest free one. -/
theorem freeAddr_least (hm : m.WellPlaced) (hpos : 0 < size) {a : ℕ} (ha : m.freeAddr size = some a) :
    IsLeast (m.freeAddrs size) a := by
  obtain ⟨-, hlo, hhi, hclear⟩ := hm.freeAddr_spec ha
  refine ⟨⟨hlo, hhi, fun k hk => disjoint_of_apart (hclear k hk)⟩, fun b hb => ?_⟩
  have hscan := scan_le hm hpos hb
  simp only [freeAddr] at ha
  split_ifs at ha
  rwa [← Option.some.inj ha]

/-- If it takes none, there is none. -/
theorem freeAddr_none (hm : m.WellPlaced) (hpos : 0 < size) (ha : m.freeAddr size = none) :
    m.freeAddrs size = ∅ := by
  refine Set.eq_empty_iff_forall_notMem.2 fun b hb => ?_
  have hscan := scan_le hm hpos hb
  have hhi := hb.2.1
  simp only [freeAddr] at ha
  split_ifs at ha with hnot
  rw [subUsize_of_le (by decide) (by omega)] at hnot
  omega

/-- **`find_range`** over plain addresses returns the lowest range between the regions, and nothing
exactly if there is none; its scan does not underflow. -/
theorem findRange_least (hm : m.WellPlaced) (hV : ∀ a < usizeMod, V.new a = some a) (hpos : 0 < size)
    (hdvd : PAGE_SIZE ∣ size) :
    ((∃ a, m.findRange V size = some (some ⟨a, size⟩) ∧ IsLeast (m.freeAddrs size) a) ∨
      m.findRange V size = some none ∧ m.freeAddrs size = ∅) ∧
        NoUnderflow size PAGE_SIZE m.virtMap.keys := by
  refine ⟨?_, noUnderflow hm.range hm.ordered (fun k hk => (hm.range k hk).lo) (by decide)⟩
  unfold findRange
  cases ha : m.freeAddr size with
  | none => exact Or.inr ⟨rfl, freeAddr_none hm hpos ha⟩
  | some a =>
    obtain ⟨hadvd, -, hhi, -⟩ := hm.freeAddr_spec ha
    have hmax : MAX_MAP_ADDR < usizeMod := by decide
    refine Or.inl ⟨a, ?_, freeAddr_least hm hpos ha⟩
    simp only [hV a (by omega), Option.map_some, AddrRange.new, alignDown_of_dvd (by omega) hadvd]
    rw [alignUp_of_page hdvd (show a + size < usizeMod by omega)]

/-- A reserved region of two pages. -/
abbrev onePair : VirtMapper where
  virtMap :=
    { entries := [(⟨0x1000, 0x2000⟩, .ofVec [reservedPage, reservedPage] .virtMem)]
      sorted := List.pairwise_singleton _ _ }

theorem onePair_wellPlaced : onePair.WellPlaced := by
  have hkeys : onePair.virtMap.keys = [⟨0x1000, 0x2000⟩] := rfl
  refine ⟨?_, ?_⟩
  · rw [hkeys]
    simp only [List.mem_singleton, forall_eq]
    constructor <;> decide
  · rw [hkeys]
    simp

/-- Behind the region. -/
theorem findRange_least_sample :
    ((∃ a, onePair.findRange { virtAddr with new := some } 0x1000 = some (some ⟨a, 0x1000⟩) ∧
        IsLeast (onePair.freeAddrs 0x1000) a) ∨
      onePair.findRange { virtAddr with new := some } 0x1000 = some none ∧
        onePair.freeAddrs 0x1000 = ∅) ∧ NoUnderflow 0x1000 PAGE_SIZE onePair.virtMap.keys :=
  findRange_least onePair_wellPlaced (fun _ _ => rfl) (by decide) (by decide)

/-! ### The two neighbours -/

/-- What `free_space` computes from the regions on the two sides. -/
def spaceBetween (V : VirtAddrApi) (prev next : Option VirtRange) (virtZone : VirtRange) :
    Option (Option (ℕ × ℕ)) := do
  match ← prevSize V prev virtZone with
  | none => some none
  | some prevSize =>
      (← nextSize V next virtZone).elim (some none) fun nextSize => some (some (prevSize, nextSize))

theorem freeSpace_none : m.freeSpace V z none = spaceBetween V
    ((m.virtMap.below z).map Prod.fst)[0]? ((m.virtMap.onward z).map Prod.fst)[0]? z := rfl

/-- The region before is found without the excluded one, the region after is not. -/
theorem freeSpace_some : m.freeSpace V z (some e) = spaceBetween V
    (((m.virtMap.erase e).below z).map Prod.fst)[0]? ((m.virtMap.onward z).map Prod.fst)[0]? z := by
  have hpair : ((m.virtMap.below z).map Prod.fst).Pairwise (· > ·) :=
    List.pairwise_map.2 SortedMap.below_pairwise
  have hne : (((m.virtMap.erase e).below z).map Prod.fst)[0]? ≠ some e := by
    intro h
    exact (SortedMap.mem_keys_erase.1 (SortedMap.head_below_iff.1 h).1.1).2 rfl
  have hprev := SortedMap.head_filter_ne (x := e) (hpair.imp fun h => h.ne')
  rw [← SortedMap.map_fst_below_erase] at hprev
  have hsel : (if (some e).isSome ∧ ((m.virtMap.below z).map Prod.fst)[0]? = some e
      then ((m.virtMap.below z).map Prod.fst)[1]? else ((m.virtMap.below z).map Prod.fst)[0]?)
      = (((m.virtMap.erase e).below z).map Prod.fst)[0]? := by
    rw [hprev]
    by_cases h : ((m.virtMap.below z).map Prod.fst)[0]? = some e
    · rw [if_pos ⟨rfl, h⟩, if_pos h]
    · rw [if_neg fun h' => h h'.2, if_neg h]
  unfold freeSpace
  simp only [hsel]
  rw [if_neg fun h => hne h.2]
  rfl

theorem prevSize_isSome_iff {prev : Option VirtRange} :
    (∃ n, prevSize V prev z = some (some n)) ↔
      (∀ p ∈ prev, ∃ x, p.endAddr V.toAddrApi = some x ∧ x ≤ z.addr) ∧
        (prev = none → PAGE_SIZE ≤ z.addr) := by
  cases prev with
  | none =>
    by_cases hz : z.addr < PAGE_SIZE
    · simp [prevSize, hz]
    · simp [prevSize, hz, not_lt.1 hz]
  | some p =>
    cases hp : p.endAddr V.toAddrApi with
    | none => simp [prevSize, hp]
    | some x =>
      by_cases hx : z.addr < x
      · simp [prevSize, hp, hx]
      · simp [prevSize, hp, hx, not_lt.1 hx]

/-- If the region before is in the way, the one after does not matter. -/
theorem spaceBetween_of_prev {prev next next' : Option VirtRange}
    (h : ¬ ∃ n, prevSize V prev z = some (some n)) :
    spaceBetween V prev next z = spaceBetween V prev next' z := by
  unfold spaceBetween
  rcases hp : prevSize V prev z with _ | _ | n
  · rfl
  · rfl
  · exact absurd ⟨n, hp⟩ h

theorem spaceBetween_eq_iff {prev next next' : Option VirtRange} {n : ℕ}
    (h : prevSize V prev z = some (some n)) :
    spaceBetween V prev next z = spaceBetween V prev next' z ↔
      nextSize V next z = nextSize V next' z := by
  unfold spaceBetween
  rw [h]
  rcases nextSize V next z with _ | _ | a
  all_goals rcases nextSize V next' z with _ | _ | b
  all_goals simp

theorem subUsize_inj {a b c : ℕ} (ha : a < usizeMod) (hb : b < usizeMod) (hc : c < usizeMod)
    (h : subUsize a c = subUsize b c) : a = b := by
  simp only [subUsize, usizeMod] at *
  omega

/-- The region is taken for the one after it exactly if the range reaches into neither. -/
theorem nextSize_eq_iff {next : Option VirtRange} (hV : V.IsVirt) (he : UserRange e)
    (hnext : ∀ q ∈ next, e.addr < q.addr ∧ q.addr < usizeMod) :
    nextSize V (some e) z = nextSize V next z ↔
      ¬ ((∀ q ∈ next, ∃ x, z.endAddr V.toAddrApi = some x ∧ x ≤ q.addr) ∧
        (next = none → z.endUsize ≤ MAX_MAP_ADDR)) := by
  have hlt : z.endUsize < usizeMod := Nat.mod_lt _ (by decide)
  have hpos := he.pos
  have hhi := he.hi
  have hmax : MAX_MAP_ADDR < usizeMod := by decide
  have hend : z.endAddr V.toAddrApi = V.new z.endUsize := hV.add_eq _ _
  cases next with
  | some q =>
    obtain ⟨heq, hq⟩ := hnext q rfl
    cases hz : z.endAddr V.toAddrApi with
    | none => simp [nextSize, hz]
    | some x =>
      by_cases hx : e.addr < x
      · by_cases hxq : q.addr < x
        · simp [nextSize, hz, hx, hxq]
        · simp [nextSize, hz, hx, hxq, not_lt.1 hxq]
      · have hxq : ¬ q.addr < x := by omega
        have hne : subUsize e.addr z.endUsize ≠ subUsize q.addr z.endUsize := fun h => by
          have := subUsize_inj (by omega) hq hlt h
          omega
        simp [nextSize, hz, hx, hxq, not_lt.1 hxq, hne]
  | none =>
    by_cases hmaxz : MAX_MAP_ADDR < z.endUsize
    · -- past the end of the user's part every address is canonical
      have hz : z.endAddr V.toAddrApi = some z.endUsize := by
        have hhigh : 2 ^ 64 - 2 ^ 47 ≤ z.endUsize := le_trans (by decide) hmaxz.le
        rw [hend, hV.new_eq _ hlt]
        split_ifs
        · omega
        · omega
        · omega
        · rfl
      have hx : e.addr < z.endUsize := by omega
      simp [nextSize, hz, hx, hmaxz]
    · cases hz : z.endAddr V.toAddrApi with
      | none => simp [nextSize, hz, hmaxz, not_lt.1 hmaxz]
      | some x =>
        by_cases hx : e.addr < x
        · simp [nextSize, hz, hx, hmaxz, not_lt.1 hmaxz]
        · have hne : subUsize e.addr z.endUsize ≠ subUsize MAX_MAP_ADDR z.endUsize := fun h => by
            have := subUsize_inj (by omega) hmax hlt h
            omega
          simp [nextSize, hz, hx, hmaxz, not_lt.1 hmaxz, hne]

/-! ### When the region is not excluded -/

/-- The excluded region is the first one from the range on, and otherwise there is room: the region
before the range ends before it, and the range ends before the region after the excluded one. -/
structure Hidden (V : VirtAddrApi) (m : VirtMapper) (e z : VirtRange) : Prop where
  first : IsLeast {k | k ∈ m.virtMap.keys ∧ z ≤ k} e
  before : ∀ p, IsGreatest {k | k ∈ m.virtMap.keys ∧ k < z} p →
    ∃ x, p.endAddr V.toAddrApi = some x ∧ x ≤ z.addr
  low : (∀ k ∈ m.virtMap.keys, z ≤ k) → PAGE_SIZE ≤ z.addr
  after : ∀ q, IsLeast {k | k ∈ m.virtMap.keys ∧ e < k} q →
    ∃ x, z.endAddr V.toAddrApi = some x ∧ x ≤ q.addr
  high : (∀ k ∈ m.virtMap.keys, k ≤ e) → z.endUsize ≤ MAX_MAP_ADDR

/-- The neighbours without a region that is the first one from the range on. -/
theorem neighbours_erase (h : IsLeast {k | k ∈ m.virtMap.keys ∧ z ≤ k} e) :
    (((m.virtMap.erase e).below z).map Prod.fst)[0]? = ((m.virtMap.below z).map Prod.fst)[0]? ∧
      (∀ q, (((m.virtMap.erase e).onward z).map Prod.fst)[0]? = some q ↔
        IsLeast {k | k ∈ m.virtMap.keys ∧ e < k} q) ∧
      ((((m.virtMap.erase e).onward z).map Prod.fst)[0]? = none ↔ ∀ k ∈ m.virtMap.keys, k ≤ e) := by
  refine ⟨?_, fun q => ?_, ?_⟩
  · rw [SortedMap.map_fst_below_erase, List.filter_eq_self.2]
    intro y hy
    have hyz : y < z := by
      obtain ⟨a, ha, rfl⟩ := List.mem_map.1 hy
      exact (SortedMap.mem_below.1 ha).2
    simpa using (hyz.trans_le h.1.2).ne
  · have hset : {k | k ∈ (m.virtMap.erase e).keys ∧ z ≤ k} = {k | k ∈ m.virtMap.keys ∧ e < k} := by
      ext k
      constructor
      · rintro ⟨hk, hzk⟩
        obtain ⟨hk, hne⟩ := SortedMap.mem_keys_erase.1 hk
        exact ⟨hk, lt_of_le_of_ne (h.2 ⟨hk, hzk⟩) (Ne.symm hne)⟩
      · rintro ⟨hk, hek⟩
        exact ⟨SortedMap.mem_keys_erase.2 ⟨hk, hek.ne'⟩, h.1.2.trans hek.le⟩
    rw [SortedMap.head_onward_iff, hset]
  · rw [SortedMap.head_onward_eq_none]
    constructor
    · intro hall k hk
      by_contra hke
      have hne : k ≠ e := fun he => hke he.le
      have hkz := hall k (SortedMap.mem_keys_erase.2 ⟨hk, hne⟩)
      exact hke (hkz.le.trans h.1.2)
    · intro hall k hk
      obtain ⟨hk, hne⟩ := SortedMap.mem_keys_erase.1 hk
      by_contra hkz
      exact hne (le_antisymm (hall k hk) (h.2 ⟨hk, not_lt.1 hkz⟩))

/-- Otherwise the region after is the same with and without it. -/
theorem onward_erase (h : ¬ IsLeast {k | k ∈ m.virtMap.keys ∧ z ≤ k} e) :
    (((m.virtMap.erase e).onward z).map Prod.fst)[0]? = ((m.virtMap.onward z).map Prod.fst)[0]? := by
  have hpair : ((m.virtMap.onward z).map Prod.fst).Pairwise (· < ·) :=
    List.pairwise_map.2 SortedMap.onward_pairwise
  rw [SortedMap.map_fst_onward_erase, SortedMap.head_filter_ne (hpair.imp fun h => h.ne), if_neg]
  exact fun he => h (SortedMap.head_onward_iff.1 he)

/-- **`free_space` with a region excluded** is `free_space` without it unless the region is hidden. -/
theorem freeSpace_exclude_iff (hm : m.WellPlaced) (hV : V.IsVirt) (he : e ∈ m.virtMap.keys) :
    m.freeSpace V z (some e) = freeSpace V ⟨m.virtMap.erase e⟩ z none ↔ ¬ Hidden V m e z := by
  rw [freeSpace_some, freeSpace_none]
  by_cases hfirst : IsLeast {k | k ∈ m.virtMap.keys ∧ z ≤ k} e
  swap
  · rw [onward_erase hfirst]
    exact ⟨fun _ h => hfirst h.first, fun _ => rfl⟩
  obtain ⟨hbelow, hnext, hlast⟩ := neighbours_erase hfirst
  have hprev : ∀ p, ((m.virtMap.below z).map Prod.fst)[0]? = some p ↔
    IsGreatest {k | k ∈ m.virtMap.keys ∧ k < z} p := fun p => SortedMap.head_below_iff
  have hnone := @SortedMap.head_below_eq_none _ _ _ m.virtMap z
  rw [hbelow, SortedMap.head_onward_iff.2 hfirst]
  generalize ((m.virtMap.below z).map Prod.fst)[0]? = prev at hprev hnone
  generalize (((m.virtMap.erase e).onward z).map Prod.fst)[0]? = next at hnext hlast
  have hroom := @prevSize_isSome_iff V z prev
  by_cases hsome : ∃ n, prevSize V prev z = some (some n)
  · obtain ⟨n, hn⟩ := hsome
    obtain ⟨hbefore, hlow⟩ := hroom.1 ⟨n, hn⟩
    have hafter : ∀ q ∈ next, e.addr < q.addr ∧ q.addr < usizeMod := by
      intro q hq
      obtain ⟨⟨hqmem, heq⟩, -⟩ := (hnext q).1 hq
      have hle := hm.le_of_lt he hqmem heq
      have hpos := (hm.range e he).pos
      have hlt := (hm.range q hqmem).lt_usizeMod
      omega
    rw [spaceBetween_eq_iff hn, nextSize_eq_iff hV (hm.range e he) hafter, not_iff_not]
    exact ⟨fun h => ⟨hfirst, fun p hp => hbefore p ((hprev p).2 hp), fun h => hlow (hnone.2 h),
      fun q hq => h.1 q ((hnext q).2 hq), fun hall => h.2 (hlast.2 hall)⟩,
      fun h => ⟨fun q hq => h.after q ((hnext q).1 hq), fun hq => h.high (hlast.1 hq)⟩⟩
  · refine ⟨fun _ h => hsome (hroom.2 ⟨fun p hp => h.before p ((hprev p).1 hp), fun hp => h.low (hnone.1 hp)⟩),
      fun _ => spaceBetween_of_prev hsome⟩

/-! ### `remap` of a region that does not grow -/

variable {σ : Type} {E : MemEnv σ} {s s' : σ} {m' : VirtMapper} {r : VirtRange} {atype : AllocType}
  {f : AllocFunc σ} {l : VirtLayout} {res : Except MemErr VirtRange}

/-- The closure leaves a region of the type that is at most as large. -/
structure Shrinks (E : MemEnv σ) (s : σ) (m : VirtMapper) (r : VirtRange) (atype : AllocType)
    (f : AllocFunc σ) (z : VirtRange) (l : VirtLayout) : Prop where
  aligned : r.aligned E.virt.toAddrApi = some z
  closure : ∃ l₀ s₁, (z, l₀) ∈ m.virtMap.entries ∧ l₀.atype = atype ∧ f s l₀ = some (s₁, l, .ok ())
  le : l.size ≤ z.size

/-- The region itself is in the way. -/
theorem freeSpace_shrink {size : ℕ} {fs : ℕ × ℕ} (hm : m.WellPlaced) (hV : V.IsVirt)
    (he : e ∈ m.virtMap.keys) (hpos : 0 < size) (hle : size ≤ e.size) :
    m.freeSpace V (.new e.addr size) (some e) ≠ some (some fs) := by
  have hu := hm.range e he
  have hhi := hu.hi
  have hmax : MAX_MAP_ADDR + PAGE_SIZE ≤ usizeMod := by decide
  have hpage : 0 < PAGE_SIZE := by decide
  generalize hn : AddrRange.new e.addr size = n
  obtain ⟨haddr, -, hsize, -⟩ := new_spec hu.dvd_addr (by omega) hn.symm
  have hup : n.size ≤ e.size := by
    rw [← hn]
    exact alignUp_le (by omega) hle hu.dvd_size
  have hfirst : IsLeast {k | k ∈ m.virtMap.keys ∧ n ≤ k} e := by
    refine ⟨⟨he, ?_⟩, fun y hy => ?_⟩
    · rw [← not_lt, AddrRange.lt_iff]
      omega
    · by_contra hlt
      have hend := hm.le_of_lt hy.1 he (not_le.1 hlt)
      have hypos := (hm.range y hy.1).pos
      have hny : n ≤ y := hy.2
      rw [← not_lt, AddrRange.lt_iff] at hny
      omega
  rw [freeSpace_some, SortedMap.head_onward_iff.2 hfirst]
  unfold spaceBetween
  intro hspace
  obtain ⟨_ | ps, -, hspace⟩ := Option.bind_eq_some_iff.1 hspace
  · simp at hspace
  obtain ⟨_ | ns, hns, hspace⟩ := Option.bind_eq_some_iff.1 hspace
  · simp at hspace
  have hafter := (nextSize_spec hV (by omega) (by rintro k ⟨⟩; exact hu) hns).2 e rfl
  omega

theorem freeAddr_zero : m.freeAddr 0 = some PAGE_SIZE := by
  unfold freeAddr
  cases m.virtMap.keys with
  | nil =>
    rw [scan]
    exact if_neg fun h => Nat.not_lt_zero _ h.2
  | cons k ks =>
    rw [scan, if_pos (Nat.zero_le _)]
    rfl

theorem findRange_eq_some {size : ℕ} (h : m.findRange V size = some (some r)) :
    ∃ a b, m.freeAddr size = some a ∧ V.new a = some b ∧ r = .new b size := by
  unfold findRange at h
  cases ha : m.freeAddr size with
  | none => simp [ha] at h
  | some a =>
    rw [ha] at h
    obtain ⟨b, hb, hr⟩ := Option.map_eq_some_iff.1 h
    exact ⟨a, b, rfl, hb, (Option.some.inj hr).symm⟩

/-- **`remap` of a region that does not grow** never leaves it where it is; it goes back to its
address only if that is where `VirtAddr::new` moves the address of a gap in the hole. -/
theorem remap_kept_iff (hm : m.WellPlaced) (hV : E.virt.IsVirt) (hs : Shrinks E s m r atype f z l)
    (h : m.remap E s r atype f = some (s', m', res)) :
    (∃ k, res = .ok k ∧ k.addr = z.addr) ↔
      ∃ a, m.freeAddr l.size = some a ∧ 2 ^ 47 ≤ a ∧ E.virt.new a = some z.addr := by
  obtain ⟨z', hz', hcases⟩ := remap_cases h
  obtain rfl : z = z' := Option.some.inj (hs.aligned.symm.trans hz')
  obtain ⟨l₀, s₁, hl₀, hty₀, hf₀⟩ := hs.closure
  have hle := hs.le
  have hmem := SortedMap.mem_keys_of_mem hl₀
  have hu := hm.range z hmem
  have hlo := hu.lo
  have hpos := hu.pos
  have hhi := hu.hi
  have hmax : MAX_MAP_ADDR < usizeMod := by decide
  have hpage : 0 < PAGE_SIZE := by decide
  have hsame : ∀ {l₁ l₂ : VirtLayout} {s₂ : σ} {r₂ : Except MemErr Unit}, (z, l₁) ∈ m.virtMap.entries →
      f s l₁ = some (s₂, l₂, r₂) → l₂ = l ∧ r₂ = .ok () := by
    intro l₁ l₂ s₂ r₂ hl hf
    rw [(Prod.mk.inj (SortedMap.entry_unique hl hl₀ rfl)).2, hf₀] at hf
    obtain ⟨-, rfl, rfl⟩ := by simpa using hf
    exact ⟨rfl, rfl⟩
  constructor
  · rintro ⟨k, rfl, hk⟩
    cases hcases with
    | removed hl hty hf h0 => exact absurd hk (by simp only [AddrRange.null]; omega)
    | fitted hl hty hf h0 hfs hl₂ hm' =>
      obtain ⟨rfl, -⟩ := hsame hl hf
      exact absurd hfs (freeSpace_shrink hm hV hmem (by omega) hle)
    | moved hmoves hl hty hf h0 hfs hr hl₂ hm' =>
      obtain ⟨rfl, -⟩ := hsame hl hf
      obtain ⟨a, b, ha, hb, rfl⟩ := findRange_eq_some hr
      obtain ⟨hdvd, -, hahi, hclear⟩ := hm.freeAddr_spec ha
      have hlt : a < usizeMod := by omega
      have hbdvd : PAGE_SIZE ∣ b := by
        rw [hV.new_eq a hlt] at hb
        split_ifs at hb
        · rwa [← Option.some.inj hb]
        · rw [← Option.some.inj hb]
          exact dvd_add hdvd (by decide)
        · rwa [← Option.some.inj hb]
      have hbz : b = z.addr := by
        rw [← hk]
        exact (alignDown_of_dvd (hV.new_lt hlt hb) hbdvd).symm
      refine ⟨a, ha, ?_, hbz ▸ hb⟩
      -- otherwise the gap would be at the region's address
      by_contra hlow
      have hab : b = a := hV.new_eq_self hlt hb fun h => hlow h.1
      have := hclear z hmem
      omega
  · rintro ⟨a, ha, ha47, haz⟩
    have hl0 : l.size ≠ 0 := by
      intro h0
      rw [h0, freeAddr_zero] at ha
      obtain rfl := Option.some.inj ha
      exact absurd ha47 (by decide)
    have hfind : m.findRange E.virt l.size = some (some (.new z.addr l.size)) := by
      rw [findRange, ha]
      simp only [haz, Option.map_some]
    cases hcases with
    | refused hno => exact absurd ⟨l₀, hl₀, hty₀⟩ hno
    | failed hl hty hf =>
      exact absurd (hsame hl hf).2 (by simp)
    | removed hl hty hf h0 =>
      obtain ⟨rfl, -⟩ := hsame hl hf
      exact absurd h0 hl0
    | fitted hl hty hf h0 hfs hl₂ hm' =>
      obtain ⟨rfl, -⟩ := hsame hl hf
      exact absurd hfs (freeSpace_shrink hm hV hmem (by omega) hle)
    | moved hmoves hl hty hf h0 hfs hr hl₂ hm' =>
      obtain ⟨rfl, -⟩ := hsame hl hf
      obtain rfl := Option.some.inj (Option.some.inj (hfind.symm.trans hr))
      exact ⟨_, rfl, alignDown_of_dvd (by omega) hu.dvd_addr⟩
    | reverted hl hty hf h0 hfs hr hrev =>
      obtain ⟨rfl, -⟩ := hsame hl hf
      exact absurd (hfind.symm.trans (hr trivial)) (by simp)

/-- **The excluded region**: `free_space` leaves it out unless it is hidden, and `remap` never keeps
a region that does not grow. -/
theorem exclude_iff (hm : m.WellPlaced) (hV : E.virt.IsVirt) :
    (∀ e ∈ m.virtMap.keys, ∀ z,
      m.freeSpace E.virt z (some e) = freeSpace E.virt ⟨m.virtMap.erase e⟩ z none ↔
        ¬ Hidden E.virt m e z) ∧
      ∀ s r atype f z l s' m' res, Shrinks E s m r atype f z l →
        m.remap E s r atype f = some (s', m', res) →
        ((∃ k, res = .ok k ∧ k.addr = z.addr) ↔
          ∃ a, m.freeAddr l.size = some a ∧ 2 ^ 47 ≤ a ∧ E.virt.new a = some z.addr) :=
  ⟨fun _ he _ => freeSpace_exclude_iff hm hV he, fun _ _ _ _ _ _ _ _ _ hs h => remap_kept_iff hm hV hs h⟩

theorem exclude_iff_sample :
    (∀ e ∈ onePair.virtMap.keys, ∀ z,
      onePair.freeSpace virtAddr z (some e) = freeSpace virtAddr ⟨onePair.virtMap.erase e⟩ z none ↔
        ¬ Hidden virtAddr onePair e z) ∧
      ∀ s r atype f z l s' m' res, Shrinks idle s onePair r atype f z l →
        onePair.remap idle s r atype f = some (s', m', res) →
        ((∃ k, res = .ok k ∧ k.addr = z.addr) ↔
          ∃ a, onePair.freeAddr l.size = some a ∧ 2 ^ 47 ≤ a ∧ virtAddr.new a = some z.addr) :=
  exclude_iff (E := idle) onePair_wellPlaced virtAddr_isVirt

/-- A region is not excluded from the space for itself, and when it loses a page it moves. -/
theorem not_excluded :
    onePair.freeSpace virtAddr ⟨0x1000, 0x2000⟩ (some ⟨0x1000, 0x2000⟩) ≠
        freeSpace virtAddr ⟨onePair.virtMap.erase ⟨0x1000, 0x2000⟩⟩ ⟨0x1000, 0x2000⟩ none ∧
      (onePair.remap idle () ⟨0x1000, 0x2000⟩ .virtMem popPage).map (fun r => r.2.2)
        = some (.ok ⟨0x3000, 0x1000⟩) := by
  decide +kernel

end VirtMapper
end AuroraOs
