import AuroraOs.Boot.Mb2

/-!
# Which entries of the memory map come out right

`MemoryRegionType::new` subtracts the kernel from an entry and the initrd from what is left.  The
result is exact when both subtractions are, and in two more cases: where the initrd happens to cover
what the first subtraction got wrong.
-/

namespace AuroraOs
namespace MemoryRegionType

open Blocks AddrRange

variable {A : AddrApi} {region : Mb2MemoryRegion} {kernel initrd : AddrRange} {s : AddrRange}
  {p q p' q' : Option AddrRange} {x : ℕ}

/-- The addresses of an entry. -/
abbrev entry (region : Mb2MemoryRegion) : AddrRange := ⟨region.addr, region.len⟩

/-- The zones that `ZoneManager::init` builds from the regions. -/
def zones (out : List (Option MemoryRegionType)) : List Block :=
  out.reduceOption.filterMap fun
    | usable mem => some mem
    | _ => none

/-- The regions of an entry are the entry less the kernel less the initrd, each byte once; the
allocator gets none of the kernel and none of the initrd, and it gets every other usable byte. -/
def Exact (A : AddrApi) (region : Mb2MemoryRegion) (kernel initrd : AddrRange) : Prop :=
  ∃ out, new A region kernel initrd = some out ∧
    (ranges out).Pairwise Block.Disjoint ∧
    (∀ x, (∃ b ∈ ranges out, b.Has x) ↔ (entry region).Has x ∧ ¬ kernel.Has x ∧ ¬ initrd.Has x) ∧
    (∀ z ∈ zones out, ∀ x, z.Has x → ¬ kernel.Has x ∧ ¬ initrd.Has x) ∧
    (region.typ = USABLE → ∀ x, (entry region).Has x → ¬ kernel.Has x → ¬ initrd.Has x →
      ∃ z ∈ zones out, z.Has x)

/-- When the regions of an entry come out right. -/
def Clean (region : Mb2MemoryRegion) (kernel initrd : AddrRange) : Prop :=
  let E := entry region
  let kend := kernel.addr + kernel.size
  E.addr < 2 ^ 52 ∧
  -- an entry that wraps around is left alone, and meets neither range
  ((usizeMod ≤ E.addr + E.size ∧ (kend ≤ E.addr ∨ kernel.size = 0) ∧
      (initrd.addr + initrd.size ≤ E.addr ∨ initrd.size = 0)) ∨
    (E.addr + E.size < 2 ^ 52 ∧
      ((SplitExact E kernel ∧ SplitExact (leftOf E kernel) initrd ∧
          SplitExact (rightOf E kernel) initrd) ∨
        -- the kernel starts before and covers the entry, which the initrd covers from its start on
        (kernel.addr < E.addr ∧ 0 < E.size ∧ E.addr + E.size ≤ kend ∧
          initrd.addr = E.addr ∧ E.addr + E.size ≤ initrd.addr + initrd.size) ∨
        -- the byte lost behind the kernel belongs to the initrd
        (E.addr < kernel.addr ∧ kend + 1 = E.addr + E.size ∧ initrd.Has kend ∧
          SplitExact ⟨E.addr, kernel.addr - E.addr⟩ initrd))))

instance : Decidable (Clean region kernel initrd) := inferInstanceAs (Decidable (_ ∧ (_ ∨ _)))

/-! ### Covers -/

theorem ranges_perm : (ranges ([p, q, p', q'].map (Option.map (convert region.typ)))).Perm
    (pieces p p' ++ pieces q q') := by
  rcases p with _ | p <;> rcases q with _ | q <;> rcases p' with _ | p' <;> rcases q' with _ | q' <;>
    simp [ranges, pieces, List.reduceOption, List.Perm.swap]

theorem mem_ranges {out : List (Option MemoryRegionType)} {b : Block} :
    b ∈ ranges out ↔ ∃ t, some t ∈ out ∧ t.range = b := by
  simp [ranges, List.reduceOption_mem_iff]

theorem mem_zones {out : List (Option MemoryRegionType)} {b : Block} :
    b ∈ zones out ↔ some (usable b) ∈ out := by
  rw [zones, List.mem_filterMap]
  constructor
  · rintro ⟨t, ht, he⟩
    cases t <;> simp only [Option.some.injEq, reduceCtorEq] at he
    subst he
    exact List.reduceOption_mem_iff.1 ht
  · exact fun h => ⟨usable b, List.reduceOption_mem_iff.2 h, rfl⟩

/-- A list of blocks covers a set once when its blocks are disjoint and make up the set. -/
theorem cover_eq_iff {bs : List Block} {P : ℕ → Prop} [DecidablePred P] :
    (∀ x, cover bs x = if P x then 1 else 0) ↔
      bs.Pairwise Block.Disjoint ∧ ∀ x, (∃ b ∈ bs, b.Has x) ↔ P x := by
  rw [← packed_iff_pairwise]
  constructor
  · intro h
    refine ⟨fun x => ?_, fun x => ?_⟩
    · rw [h x]
      split_ifs <;> omega
    · rw [← cover_pos_iff, h x]
      split_ifs with hx <;> simp [hx]
  · rintro ⟨hp, hu⟩ x
    have h1 := hp x
    have h2 := hu x
    rw [← cover_pos_iff] at h2
    split_ifs with hx
    · have := h2.2 hx
      omega
    · have : ¬ 0 < cover bs x := fun h => hx (h2.1 h)
      omega

/-- What `new` computes, stage by stage. -/
theorem new_eq_some {out : List (Option MemoryRegionType)} :
    new A region kernel initrd = some out ↔ ∃ a p q p₁ p₂ p₃ p₄, A.new region.addr = some a ∧
      splitAt A ⟨a, region.len⟩ kernel = some (p, q) ∧
      splitPiece A p initrd = some (p₁, p₃) ∧ splitPiece A q initrd = some (p₂, p₄) ∧
      out = [p₁, p₂, p₃, p₄].map (Option.map (convert region.typ)) := by
  unfold new
  constructor
  · intro h
    obtain ⟨a, ha, h⟩ := Option.bind_eq_some_iff.1 h
    obtain ⟨⟨p, q⟩, hpq, h⟩ := Option.bind_eq_some_iff.1 h
    obtain ⟨⟨p₁, p₃⟩, h13, h⟩ := Option.bind_eq_some_iff.1 h
    obtain ⟨⟨p₂, p₄⟩, h24, h⟩ := Option.bind_eq_some_iff.1 h
    exact ⟨a, p, q, p₁, p₂, p₃, p₄, ha, hpq, h13, h24, (Option.some.inj h).symm⟩
  · rintro ⟨a, p, q, p₁, p₂, p₃, p₄, ha, hpq, h13, h24, rfl⟩
    simp only [ha, hpq, h13, h24, Option.bind_eq_bind, Option.bind_some]

/-- The two stages cover what they should. -/
def Covered (A : AddrApi) (E kernel initrd : AddrRange) : Prop :=
  ∃ p q p₁ p₂ p₃ p₄, splitAt A E kernel = some (p, q) ∧
    splitPiece A p initrd = some (p₁, p₃) ∧ splitPiece A q initrd = some (p₂, p₄) ∧
    ∀ x, cover (pieces p₁ p₃) x + cover (pieces p₂ p₄) x =
      if E.Has x ∧ ¬ kernel.Has x ∧ ¬ initrd.Has x then 1 else 0

theorem exact_iff (hA : A.IsPhys) : Exact A region kernel initrd ↔
    region.addr < 2 ^ 52 ∧ Covered A (entry region) kernel initrd := by
  have hnew := hA.new_eq region.addr
  constructor
  · rintro ⟨out, he, hd, hu, -, -⟩
    obtain ⟨a, p, q, p₁, p₂, p₃, p₄, ha, hpq, h13, h24, rfl⟩ := new_eq_some.1 he
    rw [hnew] at ha
    split_ifs at ha with hlt
    rw [← Option.some.inj ha] at hpq
    refine ⟨hlt, p, q, p₁, p₂, p₃, p₄, hpq, h13, h24, fun x => ?_⟩
    rw [← cover_append, ← cover_perm ranges_perm]
    exact cover_eq_iff.2 ⟨hd, hu⟩ x
  · rintro ⟨hlt, p, q, p₁, p₂, p₃, p₄, hpq, h13, h24, hc⟩
    rw [if_pos hlt] at hnew
    have hcover := cover_eq_iff.1 fun x => (cover_perm (@ranges_perm region p₁ p₂ p₃ p₄)).trans
      (cover_append.trans (hc x))
    refine ⟨_, new_eq_some.2 ⟨_, p, q, p₁, p₂, p₃, p₄, hnew, hpq, h13, h24, rfl⟩, hcover.1, hcover.2,
      fun z hz x hx => ?_, fun ht x hx hk hi => ?_⟩
    · exact ((hcover.2 x).1 ⟨z, mem_ranges.2 ⟨_, mem_zones.1 hz, rfl⟩, hx⟩).2
    · obtain ⟨b, hb, hbx⟩ := (hcover.2 x).2 ⟨hx, hk, hi⟩
      obtain ⟨t, hmem, rfl⟩ := mem_ranges.1 hb
      refine ⟨_, mem_zones.2 ?_, hbx⟩
      obtain ⟨o, -, ho⟩ := List.mem_map.1 hmem
      obtain ⟨r, -, rfl⟩ := Option.map_eq_some_iff.1 ho
      have hconv : convert region.typ r = usable r := if_pos ht
      rw [range_convert, ← hconv]
      exact hmem

/-! ### The second stage -/

theorem mem_pieces {t : AddrRange} : t ∈ pieces p q ↔ t ∈ p ∨ t ∈ q := by
  simp [pieces]

theorem splitPiece_le (hA : A.IsPhys) (hp : ∀ t ∈ p, t.addr + t.size < 2 ^ 52)
    (hi : initrd.addr + initrd.size < 2 ^ 52) (he : splitPiece A p initrd = some (p', q')) (x : ℕ) :
    cover (pieces p' q') x ≤ cover p.toList x := by
  cases p with
  | none =>
    obtain ⟨rfl, rfl⟩ := Prod.mk.inj (Option.some.inj he)
    simp [pieces]
  | some t =>
    have := (splitAt_le hA (hp t rfl) hi he).2 x
    rwa [Option.toList_some, cover_cons, cover_nil, add_zero]

theorem splitPiece_exact (hA : A.IsPhys)
    (hp : ∀ t ∈ p, t.addr + t.size < 2 ^ 52 ∧ SplitExact t initrd)
    (hi : initrd.addr + initrd.size < 2 ^ 52) :
    ∃ p' q', splitPiece A p initrd = some (p', q') ∧
      ∀ x, cover (pieces p' q') x = if initrd.Has x then 0 else cover p.toList x := by
  cases p with
  | none => exact ⟨none, none, rfl, fun x => by simp [pieces]⟩
  | some t =>
    obtain ⟨p', q', he, hc, -⟩ := splitAt_exact hA (hp t rfl).1 hi (hp t rfl).2
    refine ⟨p', q', he, fun x => ?_⟩
    rw [hc x, Option.toList_some, cover_cons, cover_nil, add_zero]
    by_cases hx : initrd.Has x
    · rw [if_neg fun h => h.2 hx, if_pos hx]
    · rw [if_neg hx]
      simp only [hx, not_false_eq_true, and_true]

/-- A piece that is split wrongly is wrong at an address that no other piece covers. -/
theorem splitExact_of_sum {P : ℕ → Prop} [DecidablePred P] {c d : ℕ → ℕ} (hA : A.IsPhys)
    (hp : ∀ t ∈ p, t.addr + t.size < 2 ^ 52) (hi : initrd.addr + initrd.size < 2 ^ 52)
    (he : splitPiece A p initrd = some (p', q')) (hd : ∀ x, d x ≤ c x)
    (hsum : ∀ x, cover p.toList x + c x = if P x then 1 else 0)
    (hall : ∀ x, cover (pieces p' q') x + d x = if P x ∧ ¬ initrd.Has x then 1 else 0) :
    ∀ t ∈ p, SplitExact t initrd := by
  rintro t rfl
  by_contra hn
  obtain ⟨x, hx, hw⟩ := splitAt_wrong hA (hp t rfl) hi hn he
  have h1 := hsum x
  have h2 := hall x
  have h3 := hd x
  rw [Option.toList_some, cover_cons, cover_nil, if_pos hx] at h1
  have hPx : P x := by
    by_contra hP
    rw [if_neg hP] at h1
    omega
  rw [if_pos hPx] at h1
  rcases hw with ⟨hix, hpos⟩ | ⟨hix, hzero⟩
  · rw [if_neg fun h => h.2 hix] at h2
    omega
  · rw [if_pos ⟨hPx, hix⟩] at h2
    omega

/-- Where the first subtraction is exact, both pieces have to be split exactly. -/
theorem covered_iff_of_exact (hA : A.IsPhys) (hs : s.addr + s.size < 2 ^ 52)
    (hk : kernel.addr + kernel.size < 2 ^ 52) (hi : initrd.addr + initrd.size < 2 ^ 52)
    (h : SplitExact s kernel) : Covered A s kernel initrd ↔
      SplitExact (leftOf s kernel) initrd ∧ SplitExact (rightOf s kernel) initrd := by
  obtain ⟨p, q, hpq, hsub, hmem, hl, hr⟩ := splitAt_exact hA hs hk h
  have hsum : ∀ x, cover p.toList x + cover q.toList x =
      if s.Has x ∧ ¬ kernel.Has x then 1 else 0 := fun x => by
    rw [← hsub x, cover_append]
  have hfit := (splitAt_le hA hs hk hpq).1
  have hfp : ∀ t ∈ p, t.addr + t.size < 2 ^ 52 := fun t ht => hfit t (mem_pieces.2 (.inl ht))
  have hfq : ∀ t ∈ q, t.addr + t.size < 2 ^ 52 := fun t ht => hfit t (mem_pieces.2 (.inr ht))
  constructor
  · rintro ⟨p₀, q₀, p₁, p₂, p₃, p₄, hpq₀, h13, h24, hc⟩
    rw [hpq, Option.some.injEq, Prod.mk.injEq] at hpq₀
    obtain ⟨rfl, rfl⟩ := hpq₀
    simp only [← and_assoc] at hc
    have hpe := splitExact_of_sum hA hfp hi h13 (splitPiece_le hA hfq hi h24) hsum hc
    have hqe := splitExact_of_sum hA hfq hi h24 (splitPiece_le hA hfp hi h13)
      (fun x => (add_comm _ _).trans (hsum x)) (fun x => (add_comm _ _).trans (hc x))
    have hall : ∀ t ∈ pieces p q, SplitExact t initrd := by
      intro t ht
      rcases mem_pieces.1 ht with ht | ht
      · exact hpe t ht
      · exact hqe t ht
    exact ⟨hl.elim (hall _) SplitExact.of_size, hr.elim (hall _) SplitExact.of_size⟩
  · rintro ⟨hle, hre⟩
    have hall : ∀ t ∈ pieces p q, SplitExact t initrd := by
      intro t ht
      rcases hmem t ht with h0 | rfl | rfl
      exacts [.of_size h0, hle, hre]
    obtain ⟨p₁, p₃, h13, hc1⟩ := splitPiece_exact (p := p) hA
      (fun t ht => ⟨hfp t ht, hall t (mem_pieces.2 (.inl ht))⟩) hi
    obtain ⟨p₂, p₄, h24, hc2⟩ := splitPiece_exact (p := q) hA
      (fun t ht => ⟨hfq t ht, hall t (mem_pieces.2 (.inr ht))⟩) hi
    refine ⟨p, q, p₁, p₂, p₃, p₄, hpq, h13, h24, fun x => ?_⟩
    have := hsum x
    rw [hc1, hc2]
    by_cases hx : initrd.Has x
    · rw [if_pos hx, if_pos hx, if_neg fun h => h.2.2 hx]
    · rw [if_neg hx, if_neg hx, this]
      simp only [hx, not_false_eq_true, and_true]

/-- Where the first subtraction leaves one piece, the second decides. -/
theorem covered_iff_of_single {t : AddrRange} (hpq : splitAt A s kernel = some (some t, none)) :
    Covered A s kernel initrd ↔ ∃ p q, splitAt A t initrd = some (p, q) ∧
      ∀ x, cover (pieces p q) x =
        if s.Has x ∧ ¬ kernel.Has x ∧ ¬ initrd.Has x then 1 else 0 := by
  constructor
  · rintro ⟨p, q, p₁, p₂, p₃, p₄, hpq', h13, h24, hc⟩
    rw [hpq, Option.some.injEq, Prod.mk.injEq] at hpq'
    obtain ⟨rfl, rfl⟩ := hpq'
    obtain ⟨rfl, rfl⟩ := Prod.mk.inj (Option.some.inj h24)
    exact ⟨p₁, p₃, h13, hc⟩
  · rintro ⟨p, q, he, hc⟩
    exact ⟨some t, none, p, none, q, none, hpq, he, rfl, hc⟩

/-- Where the kernel starts before the entry and covers it, the entry is returned whole, and the
initrd would have to cover it in turn. -/
theorem covered_iff_of_enclosed (hA : A.IsPhys) (hs : s.addr + s.size < 2 ^ 52)
    (hk : kernel.addr + kernel.size < 2 ^ 52) (hi : initrd.addr + initrd.size < 2 ^ 52)
    (h : kernel.addr < s.addr ∧ 0 < s.size ∧ s.addr + s.size ≤ kernel.addr + kernel.size) :
    Covered A s kernel initrd ↔
      initrd.addr = s.addr ∧ s.addr + s.size ≤ initrd.addr + initrd.size := by
  have hpq : splitAt A s kernel = some (some s, none) := by
    rw [splitAt_eq hA hs hk, if_pos (by simp only [Block.Has]; omega)]
  have hzero : ∀ x, ¬ (s.Has x ∧ ¬ kernel.Has x ∧ ¬ initrd.Has x) := by
    intro x
    simp only [Block.Has]
    omega
  rw [covered_iff_of_single hpq]
  simp only [if_neg (hzero _)]
  constructor
  · rintro ⟨p, q, he, hc⟩
    -- a piece that is not empty covers its first address
    have hempty : ∀ t ∈ pieces p q, t.size = 0 := by
      intro t ht
      by_contra hpos
      have : 0 < cover (pieces p q) t.addr := cover_pos_iff.2 ⟨t, ht, le_rfl, by omega⟩
      rw [hc] at this
      omega
    have hp : ∀ t ∈ p, t.size = 0 := fun t ht => hempty t (mem_pieces.2 (.inl ht))
    have hq : ∀ t ∈ q, t.size = 0 := fun t ht => hempty t (mem_pieces.2 (.inr ht))
    rw [splitAt_eq hA hs hi] at he
    simp only [Block.Has] at he
    split_ifs at he <;> simp only [Option.some.injEq, Prod.mk.injEq] at he <;>
      obtain ⟨rfl, rfl⟩ := he <;>
      simp only [Option.mem_def, Option.some.injEq, forall_eq'] at hp hq
    all_goals omega
  · rintro ⟨h1, h2⟩
    refine ⟨none, none, ?_, fun x => rfl⟩
    rw [splitAt_eq hA hs hi, if_neg (by simp only [Block.Has]; omega), if_pos (by omega)]

/-- Where the byte behind the kernel is the last of the entry, it is lost; all is well if it belongs
to the initrd. -/
theorem covered_iff_of_short (hA : A.IsPhys) (hs : s.addr + s.size < 2 ^ 52)
    (hk : kernel.addr + kernel.size < 2 ^ 52) (hi : initrd.addr + initrd.size < 2 ^ 52)
    (h : s.addr < kernel.addr ∧ kernel.addr + kernel.size + 1 = s.addr + s.size) :
    Covered A s kernel initrd ↔ initrd.Has (kernel.addr + kernel.size) ∧
      SplitExact ⟨s.addr, kernel.addr - s.addr⟩ initrd := by
  have hpq : splitAt A s kernel = some (some ⟨s.addr, kernel.addr - s.addr⟩, none) := by
    rw [splitAt_eq hA hs hk, if_neg (by simp only [Block.Has]; omega), if_neg (by omega),
      if_neg (by omega), if_pos (by omega)]
  have hfit : s.addr + (kernel.addr - s.addr) < 2 ^ 52 := by omega
  rw [covered_iff_of_single hpq]
  constructor
  · rintro ⟨p, q, he, hc⟩
    have hlast : initrd.Has (kernel.addr + kernel.size) := by
      by_contra hn
      have h1 := (splitAt_le hA hfit hi he).2 (kernel.addr + kernel.size)
      rw [hc, if_pos ⟨by simp only [Block.Has]; omega, by simp only [Block.Has]; omega, hn⟩,
        if_neg (by simp only [Block.Has]; omega)] at h1
      omega
    refine ⟨hlast, ?_⟩
    by_contra hn
    obtain ⟨x, hx, hw⟩ := splitAt_wrong hA hfit hi hn he
    rw [hc] at hw
    rcases hw with ⟨hix, hpos⟩ | ⟨hix, hzero⟩
    · rw [if_neg fun h => h.2.2 hix] at hpos
      omega
    · have hleft : s.Has x ∧ ¬ kernel.Has x := by
        simp only [Block.Has] at *
        omega
      rw [if_pos ⟨hleft.1, hleft.2, hix⟩] at hzero
      omega
  · rintro ⟨hlast, hexact⟩
    obtain ⟨p, q, he, hc, -⟩ := splitAt_exact hA hfit hi hexact
    refine ⟨p, q, he, fun x => ?_⟩
    rw [hc x]
    have hiff : ((⟨s.addr, kernel.addr - s.addr⟩ : Block).Has x ∧ ¬ initrd.Has x) ↔
        (s.Has x ∧ ¬ kernel.Has x ∧ ¬ initrd.Has x) := by
      simp only [Block.Has] at *
      omega
    simp only [hiff]

/-- Everywhere else a first subtraction that is not exact panics. -/
theorem splitAt_none (hA : A.IsPhys) (hs : s.addr + s.size < 2 ^ 52)
    (hk : kernel.addr + kernel.size < 2 ^ 52) (h : ¬ SplitExact s kernel)
    (h₁ : ¬ (kernel.addr < s.addr ∧ 0 < s.size ∧ s.addr + s.size ≤ kernel.addr + kernel.size))
    (h₂ : ¬ (s.addr < kernel.addr ∧ kernel.addr + kernel.size + 1 = s.addr + s.size)) :
    splitAt A s kernel = none := by
  unfold SplitExact at h
  rw [splitAt_eq hA hs hk, if_neg (by simp only [Block.Has]; omega), if_neg (by omega)]
  split_ifs
  all_goals first | rfl | omega

theorem not_covered (h : splitAt A s kernel = none) : ¬ Covered A s kernel initrd := by
  rintro ⟨p, q, p₁, p₂, p₃, p₄, hpq, -⟩
  rw [h] at hpq
  simp at hpq

/-- An entry that wraps around is left alone. -/
theorem covered_iff_of_wrap (hA : A.IsPhys) (ha : region.addr < 2 ^ 52)
    (hk : kernel.addr + kernel.size < 2 ^ 52) (hi : initrd.addr + initrd.size < 2 ^ 52)
    (hwrap : usizeMod ≤ region.addr + region.len) :
    Covered A (entry region) kernel initrd ↔
      (kernel.addr + kernel.size ≤ region.addr ∨ kernel.size = 0) ∧
        (initrd.addr + initrd.size ≤ region.addr ∨ initrd.size = 0) := by
  have hall : ∀ r : AddrRange, r.addr + r.size < 2 ^ 52 →
      splitAt A (entry region) r = some (some (entry region), none) := fun r hr =>
    splitAt_of_wrap hA ha region.len_lt hwrap hr
  have hlast : 2 ^ 52 < region.addr + region.len := lt_of_lt_of_le (by decide) hwrap
  rw [covered_iff_of_single (hall kernel hk)]
  constructor
  · rintro ⟨p, q, he, hc⟩
    rw [hall initrd hi, Option.some.injEq, Prod.mk.injEq] at he
    obtain ⟨rfl, rfl⟩ := he
    have havoid : ∀ x, (entry region).Has x → ¬ kernel.Has x ∧ ¬ initrd.Has x := by
      intro x hx
      by_contra hn
      have := hc x
      simp only [pieces, Option.toList_some, Option.toList_none, List.append_nil, cover_cons,
        cover_nil, if_pos hx] at this
      rw [if_neg fun h => hn h.2] at this
      omega
    constructor
    · have := (havoid (max region.addr kernel.addr) ⟨by simp, by simp only; omega⟩).1
      simp only [Block.Has] at this
      omega
    · have := (havoid (max region.addr initrd.addr) ⟨by simp, by simp only; omega⟩).2
      simp only [Block.Has] at this
      omega
  · rintro ⟨h1, h2⟩
    refine ⟨_, _, hall initrd hi, fun x => ?_⟩
    have hiff : (entry region).Has x ↔
        (entry region).Has x ∧ ¬ kernel.Has x ∧ ¬ initrd.Has x := by
      simp only [Block.Has]
      omega
    simp only [pieces, Option.toList_some, Option.toList_none, List.append_nil, cover_cons,
      cover_nil, add_zero]
    exact if_congr hiff rfl rfl

/-- An entry within the physical addresses. -/
theorem covered_iff_of_fit (hA : A.IsPhys) (hs : s.addr + s.size < 2 ^ 52)
    (hk : kernel.addr + kernel.size < 2 ^ 52) (hi : initrd.addr + initrd.size < 2 ^ 52) :
    Covered A s kernel initrd ↔
      (SplitExact s kernel ∧ SplitExact (leftOf s kernel) initrd ∧
          SplitExact (rightOf s kernel) initrd) ∨
        (kernel.addr < s.addr ∧ 0 < s.size ∧ s.addr + s.size ≤ kernel.addr + kernel.size ∧
          initrd.addr = s.addr ∧ s.addr + s.size ≤ initrd.addr + initrd.size) ∨
        (s.addr < kernel.addr ∧ kernel.addr + kernel.size + 1 = s.addr + s.size ∧
          initrd.Has (kernel.addr + kernel.size) ∧
          SplitExact ⟨s.addr, kernel.addr - s.addr⟩ initrd) := by
  by_cases hexact : SplitExact s kernel
  · rw [covered_iff_of_exact hA hs hk hi hexact]
    constructor
    · exact fun h => Or.inl ⟨hexact, h⟩
    · unfold SplitExact at hexact
      rintro (⟨-, h⟩ | h | h)
      · exact h
      · omega
      · omega
  · simp only [hexact, false_and, false_or]
    by_cases h1 : kernel.addr < s.addr ∧ 0 < s.size ∧
        s.addr + s.size ≤ kernel.addr + kernel.size
    · rw [covered_iff_of_enclosed hA hs hk hi h1]
      simp only [Block.Has]
      omega
    · by_cases h2 : s.addr < kernel.addr ∧ kernel.addr + kernel.size + 1 = s.addr + s.size
      · rw [covered_iff_of_short hA hs hk hi h2]
        simp only [h2.1, h2.2, true_and]
        refine (or_iff_right fun h => ?_).symm
        have h3 : s.addr + s.size ≤ kernel.addr + kernel.size := h.2.2.1
        omega
      · refine iff_of_false (not_covered (splitAt_none hA hs hk hexact h1 h2)) ?_
        rintro (h | h)
        · exact h1 ⟨h.1, h.2.1, h.2.2.1⟩
        · exact h2 ⟨h.1, h.2.1⟩

/-- `PhysAddr`, as documented. -/
def physAddr : AddrApi where
  new a := if a < 2 ^ 52 then some a else none
  add a n := if (a + n) % usizeMod < 2 ^ 52 then some ((a + n) % usizeMod) else none
  sub a n := if n ≤ a then if a - n < 2 ^ 52 then some (a - n) else none else none
  diff a b := if b ≤ a then some (a - b) else none

theorem physAddr_isPhys : physAddr.IsPhys where
  new_eq _ := rfl
  add_eq _ _ := rfl
  sub_eq _ _ := rfl
  diff_eq _ _ := rfl

/-- A usable entry around the kernel and the initrd, and one inside the kernel. -/
def lowMemory : Mb2MemoryRegion := ⟨0x100000, 0x700000, USABLE, by decide, by decide⟩
def insideKernel : Mb2MemoryRegion := ⟨0x280000, 0x100000, USABLE, by decide, by decide⟩
def kernelRange : PhysRange := ⟨⟨0x200000, 0x200000⟩, by decide⟩
def initrdRange : PhysRange := ⟨⟨0x600000, 0x100000⟩, by decide⟩

end MemoryRegionType
end AuroraOs
