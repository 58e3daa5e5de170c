import AuroraOs.Mem.PageMapping

/-!
# Reading a range of the address space

`VirtMapper::range_map` calls its closure when a range lies in one region, or in two that follow each
other.  It looks at the greatest region before the range and at the least one from it on, and
`full_contains_range` wants the end of the range *inside* the region, so a range that ends with its
region is found only if it begins later and another region follows.
-/

namespace AuroraOs

open Blocks

/-- `optac`. -/
def optac {α : Type*} (opt : Option α) (f : α → Option Bool) : Option Bool :=
  match opt with
  | some val => f val
  | none => some false

namespace VirtMapper

variable (V : VirtAddrApi) (m : VirtMapper)

/-- `range_map`; the closure gets the bytes of the range. -/
def rangeMap {α : Type} (virtZone : VirtRange) (f : VirtRange → Option (Option α)) :
    Option (Option α) := do
  let prev := ((m.virtMap.below virtZone).map Prod.fst)[0]?
  let next := ((m.virtMap.onward virtZone).map Prod.fst)[0]?
  let inPrev ← optac prev fun p => p.fullContainsRange V.toAddrApi virtZone
  let inOne ← if inPrev then some true
    else optac next fun n => n.fullContainsRange V.toAddrApi virtZone
  if inOne then f virtZone
  else
    match prev, next with
    | some prev, some next =>
        match ← prev.merge V.toAddrApi next with
        | some range =>
            if ← range.fullContainsRange V.toAddrApi virtZone then f virtZone else some none
        | none => some none
    | _, _ => some none

/-- `range_map` calls its closure. -/
def Calls (z : VirtRange) : Prop :=
  ∀ (α : Type) (f : VirtRange → Option (Option α)), m.rangeMap V z f = f z

/-- Disjoint regions of canonical addresses. -/
structure Regions : Prop where
  pos : ∀ r ∈ m.virtMap.keys, 0 < r.size
  half : ∀ r ∈ m.virtMap.keys, OneHalf r
  apart : ∀ r ∈ m.virtMap.keys, ∀ r' ∈ m.virtMap.keys, r ≠ r' → Apart r r'

/-- The range is contained in a region, or in the union of two; these then touch. -/
def Covers (z : VirtRange) : Prop :=
  ∃ p ∈ m.virtMap.keys, ∃ q ∈ m.virtMap.keys, ∀ x, z.Has x → p.Has x ∨ q.Has x

/-- If the range ends with a region, it begins behind the region's start, and another region begins
at the region's end. -/
def EndsInside (z : VirtRange) : Prop :=
  ∀ r ∈ m.virtMap.keys, r.addr + r.size = z.addr + z.size →
    r.addr < z.addr ∧ ∃ q ∈ m.virtMap.keys, r.endAddr V.toAddrApi = some q.addr

/-- The range and its end lie in the region. -/
abbrev Inner (r z : VirtRange) : Prop := r.addr ≤ z.addr ∧ z.addr + z.size < r.addr + r.size

variable {V m} {p q r r' z : VirtRange}

/-! ### Containment and merging -/

/-- In one half of the address space a range contains the addresses that it has. -/
theorem contains_half {x : ℕ} (hV : V.IsVirt) (hr : OneHalf r) (hx : Canonical x) :
    r.contains V.toAddrApi x = some (decide (r.Has x)) := by
  obtain ⟨e, he, hre⟩ := hr.endAddr hV
  unfold OneHalf at hr
  unfold Canonical at hx
  unfold AddrRange.endAddr at he
  simp only [AddrRange.contains, he, Option.bind_eq_bind, Option.bind_some]
  by_cases hstart : r.addr ≤ x
  · have hiff : x < e ↔ x < r.addr + r.size := by omega
    simp [hstart, hiff]
  · simp [hstart]

/-- The start and the end of a range are looked up. -/
theorem fullContainsRange_of {P : ℕ → Prop} [DecidablePred P] {e : ℕ}
    (hr : ∀ x, Canonical x → r.contains V.toAddrApi x = some (decide (P x))) (hz : Canonical z.addr)
    (he : z.endAddr V.toAddrApi = some e) (hce : Canonical e) :
    r.fullContainsRange V.toAddrApi z = some (decide (P z.addr ∧ P e)) := by
  unfold AddrRange.endAddr at he
  simp only [AddrRange.fullContainsRange, hr _ hz, hr e hce, he, Option.bind_eq_bind, Option.bind_some]
  by_cases hstart : P z.addr
  · simp [hstart]
  · simp [hstart]

/-- A region is merged with one behind it if they touch. -/
theorem merge_behind (hV : V.IsVirt) (hq : OneHalf q) (hppos : 0 < p.size) (hpq : p.addr + p.size ≤ q.addr)
    (hp : OneHalf p) : p.merge V.toAddrApi q = some (if p.endAddr V.toAddrApi = some q.addr then
      some ⟨p.addr, (p.size + q.size) % usizeMod⟩ else none) := by
  obtain ⟨e, he, -⟩ := hp.endAddr hV
  obtain ⟨e', he', hqe⟩ := hq.endAddr hV
  rw [he]
  have hne : e' ≠ p.addr := by omega
  unfold AddrRange.endAddr at he he'
  simp only [AddrRange.merge, he, he', Option.bind_eq_bind, Option.bind_some, if_neg hne,
    Option.some.injEq]
  by_cases htouch : e = q.addr
  · simp [htouch]
  · simp [htouch]

/-- The sum of the sizes ends where the second region does, also over the gap between the halves. -/
theorem contains_merged {x : ℕ} (hV : V.IsVirt) (hp : OneHalf p) (hq : OneHalf q) (hppos : 0 < p.size)
    (hqpos : 0 < q.size) (htouch : p.endAddr V.toAddrApi = some q.addr) (hx : Canonical x) :
    AddrRange.contains V.toAddrApi ⟨p.addr, (p.size + q.size) % usizeMod⟩ x
      = some (decide (p.Has x ∨ q.Has x)) := by
  obtain ⟨e, he, hpe⟩ := hp.endAddr hV
  obtain ⟨e', -, hqe⟩ := hq.endAddr hV
  obtain rfl : e = q.addr := Option.some.inj (he.symm.trans htouch)
  unfold OneHalf at hp hq
  unfold Canonical at hx
  have hsum : V.add p.addr ((p.size + q.size) % usizeMod) = some e' := by
    have hmod : (p.size + q.size) % usizeMod = p.size + q.size :=
      Nat.mod_eq_of_lt (by simp only [usizeMod]; omega)
    rw [hV.add_eq, hmod, Nat.mod_eq_of_lt (by simp only [usizeMod]; omega),
      hV.new_eq _ (by simp only [usizeMod]; omega)]
    split_ifs
    all_goals first | exact congrArg some (by omega) | omega
  simp only [AddrRange.contains, hsum, Option.bind_eq_bind, Option.bind_some]
  by_cases hstart : p.addr ≤ x
  · have hiff : x < e' ↔ p.Has x ∨ q.Has x := by
      unfold Block.Has
      omega
    simp only [ge_iff_le, hstart, if_true, hiff]
  · have hnot : ¬ (p.Has x ∨ q.Has x) := by
      unfold Block.Has
      omega
    simp only [ge_iff_le, hstart, if_false, hnot, decide_false]

/-! ### What `range_map` looks at -/

/-- The closure is called when the start and the end of the range are in one of the two neighbours, or
in their union and they touch. -/
def EndsFound (V : VirtAddrApi) (prev next : Option VirtRange) (a e : ℕ) : Prop :=
  (∃ p ∈ prev, p.Has a ∧ p.Has e) ∨ (∃ n ∈ next, n.Has a ∧ n.Has e) ∨
    ∃ p ∈ prev, ∃ n ∈ next, p.endAddr V.toAddrApi = some n.addr ∧ (p.Has a ∨ n.Has a) ∧
      (p.Has e ∨ n.Has e)

/-- The same for a range of one half: it is inside one of the two neighbours, or inside their union and
they touch. -/
def Found (V : VirtAddrApi) (prev next : Option VirtRange) (z : VirtRange) : Prop :=
  (∃ p ∈ prev, Inner p z) ∨ (∃ n ∈ next, Inner n z) ∨
    ∃ p ∈ prev, ∃ n ∈ next, p.endAddr V.toAddrApi = some n.addr ∧ p.addr ≤ z.addr ∧
      z.addr + z.size < n.addr + n.size

/-- The order of the regions is the order of their addresses. -/
theorem Regions.le_of_lt (h : m.Regions) (hr : r ∈ m.virtMap.keys) (hr' : r' ∈ m.virtMap.keys)
    (hlt : r < r') : r.addr + r.size ≤ r'.addr := by
  have hpos := h.pos r hr
  have hpos' := h.pos r' hr'
  rcases h.apart r hr r' hr' hlt.ne with h | h
  · exact h
  · rcases AddrRange.lt_iff.1 hlt with hlt | hlt
    · omega
    · omega

/-- The two neighbours of a range. -/
structure Neighbours (m : VirtMapper) (z : VirtRange) (prev next : Option VirtRange) : Prop where
  prev_eq : ((m.virtMap.below z).map Prod.fst)[0]? = prev
  next_eq : ((m.virtMap.onward z).map Prod.fst)[0]? = next

section Neighbours

variable {prev next : Option VirtRange} {e : ℕ}

theorem Neighbours.prev_mem (h : m.Neighbours z prev next) (hp : p ∈ prev) : p ∈ m.virtMap.keys ∧ p < z :=
  (SortedMap.head_below_iff.1 (h.prev_eq.trans hp)).1

theorem Neighbours.next_mem (h : m.Neighbours z prev next) (hq : q ∈ next) : q ∈ m.virtMap.keys ∧ z ≤ q :=
  (SortedMap.head_onward_iff.1 (h.next_eq.trans hq)).1

theorem rangeMap_of_end {α : Type} (hV : V.IsVirt) (hm : m.Regions) (hn : m.Neighbours z prev next)
    (hz : Canonical z.addr) (he : z.endAddr V.toAddrApi = some e) (hce : Canonical e)
    (f : VirtRange → Option (Option α)) :
    (EndsFound V prev next z.addr e → m.rangeMap V z f = f z) ∧
      (¬ EndsFound V prev next z.addr e → m.rangeMap V z f = some none) := by
  have hcontains : ∀ r ∈ m.virtMap.keys,
      r.fullContainsRange V.toAddrApi z = some (decide (r.Has z.addr ∧ r.Has e)) := fun r hr =>
    fullContainsRange_of (fun x hx => contains_half hV (hm.half r hr) hx) hz he hce
  unfold rangeMap EndsFound
  rw [hn.prev_eq, hn.next_eq]
  cases prev with
  | none =>
    cases next with
    | none => simp [optac]
    | some n =>
      have hinner := hcontains n (hn.next_mem rfl).1
      by_cases hin : n.Has z.addr ∧ n.Has e
      · simp [optac, hinner, hin]
      · simp [optac, hinner, hin]
  | some p =>
    obtain ⟨hp, hpz⟩ := hn.prev_mem rfl
    have hinner := hcontains p hp
    by_cases hin : p.Has z.addr ∧ p.Has e
    · simp [optac, hinner, hin]
    cases next with
    | none => simp [optac, hinner, hin]
    | some n =>
      obtain ⟨hnmem, hzn⟩ := hn.next_mem rfl
      have hinner' := hcontains n hnmem
      by_cases hin' : n.Has z.addr ∧ n.Has e
      · simp [optac, hinner, hin, hinner', hin']
      have hmerge := merge_behind hV (hm.half n hnmem) (hm.pos p hp)
        (hm.le_of_lt hp hnmem (hpz.trans_le hzn)) (hm.half p hp)
      by_cases htouch : p.endAddr V.toAddrApi = some n.addr
      · have hboth := @fullContainsRange_of V ⟨p.addr, (p.size + n.size) % usizeMod⟩ z
          (fun x => p.Has x ∨ n.Has x) _ e (fun x hx => contains_merged hV (hm.half p hp)
            (hm.half n hnmem) (hm.pos p hp) (hm.pos n hnmem) htouch hx) hz he hce
        rw [if_pos htouch] at hmerge
        by_cases hunion : (p.Has z.addr ∨ n.Has z.addr) ∧ (p.Has e ∨ n.Has e)
        · simp [optac, hinner, hin, hinner', hin', hmerge, htouch, hboth, hunion]
        · simp [optac, hinner, hin, hinner', hin', hmerge, htouch, hboth, hunion]
      · rw [if_neg htouch] at hmerge
        simp [optac, hinner, hin, hinner', hin', hmerge, htouch]

/-- A range without an end address is not found. -/
theorem rangeMap_of_no_end {α : Type} (he : z.endAddr V.toAddrApi = none)
    (f : VirtRange → Option (Option α)) (v : α) : m.rangeMap V z f ≠ some (some v) := by
  have hnot : ∀ r : VirtRange, r.fullContainsRange V.toAddrApi z ≠ some true := by
    intro r h
    unfold AddrRange.endAddr at he
    unfold AddrRange.fullContainsRange at h
    obtain ⟨b, -, h⟩ := Option.bind_eq_some_iff.1 h
    cases b <;> simp [he] at h
  have hoptac : ∀ o : Option VirtRange,
      optac o (fun r => r.fullContainsRange V.toAddrApi z) ≠ some true := by
    intro o
    cases o with
    | none => simp [optac]
    | some r => exact hnot r
  intro h
  obtain ⟨inPrev, hprev, h⟩ := Option.bind_eq_some_iff.1 h
  cases inPrev with
  | true => exact hoptac _ hprev
  | false =>
    obtain ⟨inOne, hone, h⟩ := Option.bind_eq_some_iff.1 h
    cases inOne with
    | true => exact hoptac _ hone
    | false =>
      simp only [Bool.false_eq_true, if_false] at h
      split at h
      · obtain ⟨merged, -, h⟩ := Option.bind_eq_some_iff.1 h
        cases merged with
        | none => simp at h
        | some range =>
          obtain ⟨b, hb, h⟩ := Option.bind_eq_some_iff.1 h
          cases b with
          | true => exact hnot _ hb
          | false => simp at h
      · simp at h

theorem inner_iff (hr : OneHalf r) (hend : z.addr + z.size ≠ 2 ^ 47 ∧ e = z.addr + z.size ∨
    z.addr + z.size = 2 ^ 47 ∧ e = 2 ^ 64 - 2 ^ 47) (hpos : 0 < z.size) :
    r.Has z.addr ∧ r.Has e ↔ Inner r z := by
  unfold OneHalf at hr
  unfold Block.Has
  omega

theorem inner_union_iff (hV : V.IsVirt) (hp : OneHalf p) (hq : OneHalf q) (hppos : 0 < p.size)
    (hqpos : 0 < q.size) (htouch : p.endAddr V.toAddrApi = some q.addr) (hz : OneHalf z)
    (hend : z.addr + z.size ≠ 2 ^ 47 ∧ e = z.addr + z.size ∨
      z.addr + z.size = 2 ^ 47 ∧ e = 2 ^ 64 - 2 ^ 47) (hpos : 0 < z.size) :
    (p.Has z.addr ∨ q.Has z.addr) ∧ (p.Has e ∨ q.Has e) ↔
      p.addr ≤ z.addr ∧ z.addr + z.size < q.addr + q.size := by
  obtain ⟨e', he', hpe⟩ := hp.endAddr hV
  obtain rfl : e' = q.addr := Option.some.inj (he'.symm.trans htouch)
  unfold OneHalf at hp hq hz
  unfold Block.Has
  omega

/-- The two ways to say where a range of one half is found. -/
theorem endsFound_iff (hV : V.IsVirt) (hm : m.Regions) (hn : m.Neighbours z prev next) (hz : OneHalf z)
    (hpos : 0 < z.size) (hend : z.addr + z.size ≠ 2 ^ 47 ∧ e = z.addr + z.size ∨
      z.addr + z.size = 2 ^ 47 ∧ e = 2 ^ 64 - 2 ^ 47) :
    EndsFound V prev next z.addr e ↔ Found V prev next z := by
  unfold EndsFound Found
  refine or_congr ?_ (or_congr ?_ ?_)
  · exact exists_congr fun p => and_congr_right fun hp =>
      inner_iff (hm.half p (hn.prev_mem hp).1) hend hpos
  · exact exists_congr fun q => and_congr_right fun hq =>
      inner_iff (hm.half q (hn.next_mem hq).1) hend hpos
  · refine exists_congr fun p => and_congr_right fun hp => exists_congr fun q => and_congr_right fun hq =>
      and_congr_right fun htouch => ?_
    have hpmem := (hn.prev_mem hp).1
    have hqmem := (hn.next_mem hq).1
    exact inner_union_iff hV (hm.half p hpmem) (hm.half q hqmem) (hm.pos p hpmem) (hm.pos q hqmem)
      htouch hz hend hpos

theorem canonical_of_half (hz : OneHalf z) (hpos : 0 < z.size) : Canonical z.addr := by
  unfold OneHalf at hz
  unfold Canonical
  omega

end Neighbours

theorem calls_iff_found {prev next : Option VirtRange} (hV : V.IsVirt) (hm : m.Regions)
    (hz : OneHalf z) (hpos : 0 < z.size) (hprev : ((m.virtMap.below z).map Prod.fst)[0]? = prev)
    (hnext : ((m.virtMap.onward z).map Prod.fst)[0]? = next) :
    m.Calls V z ↔ Found V prev next z := by
  obtain ⟨e, he, hend⟩ := hz.endAddr hV
  have hcanon : Canonical e := by
    unfold OneHalf at hz
    unfold Canonical
    omega
  have hn : m.Neighbours z prev next := ⟨hprev, hnext⟩
  rw [← endsFound_iff hV hm hn hz hpos hend]
  constructor
  · intro h
    by_contra hnot
    have hnone := (rangeMap_of_end hV hm hn (canonical_of_half hz hpos) he hcanon
      fun _ => (none : Option (Option Unit))).2 hnot
    rw [h] at hnone
    exact absurd hnone (by simp)
  · exact fun h _ f => (rangeMap_of_end hV hm hn (canonical_of_half hz hpos) he hcanon f).1 h

/-! ### Which ranges are found -/

/-- The range ends in the region, or in the one that follows it. -/
def ReachedFrom (m : VirtMapper) (z r : VirtRange) : Prop :=
  z.addr + z.size ≤ r.addr + r.size ∨
    ∃ q ∈ m.virtMap.keys, q.addr = r.addr + r.size ∧ r.addr + r.size < z.addr + z.size ∧
      z.addr + z.size ≤ q.addr + q.size

/-- The region in which a range begins. -/
theorem Covers.start (h : m.Covers z) (hm : m.Regions) (hpos : 0 < z.size) :
    ∃ r ∈ m.virtMap.keys, r.Has z.addr ∧ m.ReachedFrom z r := by
  have hgo : ∀ p ∈ m.virtMap.keys, ∀ q ∈ m.virtMap.keys, (∀ x, z.Has x → p.Has x ∨ q.Has x) →
      p.Has z.addr → ∃ r ∈ m.virtMap.keys, r.Has z.addr ∧ m.ReachedFrom z r := by
    intro p hp q hq hsub hstart
    refine ⟨p, hp, hstart, ?_⟩
    rcases le_or_gt (z.addr + z.size) (p.addr + p.size) with hle | hgt
    · exact Or.inl hle
    have hnext := hsub (p.addr + p.size) ⟨by omega, hgt⟩
    have hlast := hsub (z.addr + z.size - 1) ⟨by omega, by omega⟩
    have hne : p ≠ q := by
      rintro rfl
      omega
    have happ := hm.apart p hp q hq hne
    unfold Apart at happ
    exact Or.inr ⟨q, hq, by omega, hgt, by omega⟩
  obtain ⟨p, hp, q, hq, hsub⟩ := h
  rcases hsub z.addr ⟨le_rfl, by omega⟩ with hstart | hstart
  · exact hgo p hp q hq hsub hstart
  · exact hgo q hq p hp (fun x hx => (hsub x hx).symm) hstart

theorem ReachedFrom.oneHalf (h : m.ReachedFrom z r) (hm : m.Regions) (hr : r ∈ m.virtMap.keys)
    (hstart : r.Has z.addr) : OneHalf z := by
  have hhalf := hm.half r hr
  unfold OneHalf at hhalf ⊢
  rcases h with hle | ⟨q, hq, hqr, -, hle⟩
  · omega
  · have hhalf' := hm.half q hq
    have hpos' := hm.pos q hq
    unfold OneHalf at hhalf'
    omega

/-- The end of a region that another one follows. -/
theorem endAddr_eq_next (hV : V.IsVirt) (hm : m.Regions) (hr : r ∈ m.virtMap.keys)
    (hq : q ∈ m.virtMap.keys) (hqr : q.addr = r.addr + r.size) : r.endAddr V.toAddrApi = some q.addr := by
  obtain ⟨e, he, hre⟩ := (hm.half r hr).endAddr hV
  have hhalf := hm.half r hr
  have hhalf' := hm.half q hq
  have hpos := hm.pos q hq
  unfold OneHalf at hhalf hhalf'
  rw [he, Option.some.injEq]
  omega

/-- A region that the range begins in and that sorts before it is its predecessor. -/
theorem prev_of_start (hm : m.Regions) (hr : r ∈ m.virtMap.keys) (hstart : r.Has z.addr) (hrz : r < z) :
    ((m.virtMap.below z).map Prod.fst)[0]? = some r := by
  refine SortedMap.head_below_iff.2 ⟨⟨hr, hrz⟩, fun y hy => ?_⟩
  by_contra hlt
  have hend := hm.le_of_lt hr hy.1 (not_le.1 hlt)
  have hyz := AddrRange.lt_iff.1 hy.2
  omega

/-- Otherwise it begins with the range, and is its successor. -/
theorem next_of_start (hm : m.Regions) (hr : r ∈ m.virtMap.keys) (hstart : r.Has z.addr) (hzr : ¬ r < z) :
    ((m.virtMap.onward z).map Prod.fst)[0]? = some r ∧ r.addr = z.addr ∧ z.size ≤ r.size := by
  rw [AddrRange.lt_iff] at hzr
  have haddr : r.addr = z.addr := by omega
  refine ⟨SortedMap.head_onward_iff.2 ⟨⟨hr, ?_⟩, fun y hy => ?_⟩, haddr, by omega⟩
  · rw [← not_lt, AddrRange.lt_iff]
    exact hzr
  · by_contra hlt
    have hend := hm.le_of_lt hy.1 hr (not_le.1 hlt)
    have hpos := hm.pos y hy.1
    have hyz : z ≤ y := hy.2
    rw [← not_lt, AddrRange.lt_iff] at hyz
    omega

/-- The region that follows the one in which the range begins. -/
theorem next_of_touch (hV : V.IsVirt) (hm : m.Regions) (hr : r ∈ m.virtMap.keys)
    (hq : q ∈ m.virtMap.keys) (hstart : r.Has z.addr) (hrz : r < z)
    (htouch : r.endAddr V.toAddrApi = some q.addr) :
    ((m.virtMap.onward z).map Prod.fst)[0]? = some q := by
  obtain ⟨e, he, hre⟩ := (hm.half r hr).endAddr hV
  obtain rfl : e = q.addr := Option.some.inj (he.symm.trans htouch)
  refine SortedMap.head_onward_iff.2 ⟨⟨hq, ?_⟩, fun y hy => ?_⟩
  · rw [← not_lt, AddrRange.lt_iff]
    omega
  · by_contra hlt
    have hend := hm.le_of_lt hy.1 hq (not_le.1 hlt)
    have hend' := hm.le_of_lt hr hy.1 (hrz.trans_le hy.2)
    have hpos := hm.pos y hy.1
    have hhalf := hm.half y hy.1
    unfold OneHalf at hhalf
    omega

/-- A range that ends inside a region ends with none. -/
theorem endsInside_of_lt (hm : m.Regions) (hr : r ∈ m.virtMap.keys) (hlo : r.addr < z.addr + z.size)
    (hhi : z.addr + z.size < r.addr + r.size) : m.EndsInside V z := by
  intro k hk hend
  have hne : k ≠ r := by
    rintro rfl
    omega
  have happ := hm.apart k hk r hr hne
  have hpos := hm.pos k hk
  unfold Apart at happ
  omega

/-- Of a range that begins in its predecessor and does not end inside it, what is found ends inside of
the region that follows. -/
theorem endsInside_of_found (hV : V.IsVirt) (hm : m.Regions) (hr : r ∈ m.virtMap.keys)
    (hstart : r.Has z.addr) (hrz : r < z) (hge : r.addr + r.size ≤ z.addr + z.size)
    (hreach : m.ReachedFrom z r) (h : Found V (some r) ((m.virtMap.onward z).map Prod.fst)[0]? z) :
    m.EndsInside V z := by
  obtain ⟨e, he, hre⟩ := (hm.half r hr).endAddr hV
  rcases h with ⟨p, hp, hin⟩ | ⟨n, hn, hin⟩ | ⟨p, hp, n, hn, htouch, -, hend⟩
  · obtain rfl := Option.some.inj hp
    exact absurd hin.2 hge.not_gt
  · obtain ⟨⟨hnmem, hzn⟩, -⟩ := SortedMap.head_onward_iff.1 hn
    have hle := hm.le_of_lt hr hnmem (hrz.trans_le hzn)
    omega
  · obtain rfl := Option.some.inj hp
    obtain ⟨⟨hnmem, -⟩, -⟩ := SortedMap.head_onward_iff.1 hn
    obtain rfl : e = n.addr := Option.some.inj (he.symm.trans htouch)
    rcases hreach with hle | ⟨q, hq, hqr, hgt, -⟩
    · intro k hk hkend
      have hkr : k = r := by
        by_contra hne
        have happ := hm.apart k hk r hr hne
        have hkpos := hm.pos k hk
        unfold Apart at happ
        omega
      subst hkr
      rw [AddrRange.lt_iff] at hrz
      exact ⟨by omega, n, hnmem, htouch⟩
    · have hqn := Option.some.inj ((endAddr_eq_next hV hm hr hq hqr).symm.trans htouch)
      exact endsInside_of_lt hm hnmem (by omega) hend

/-- If such a range ends inside, another region follows its predecessor. -/
theorem found_of_endsInside (hV : V.IsVirt) (hm : m.Regions) (hr : r ∈ m.virtMap.keys)
    (hstart : r.Has z.addr) (hrz : r < z) (hge : r.addr + r.size ≤ z.addr + z.size)
    (hreach : m.ReachedFrom z r) (h : m.EndsInside V z) :
    Found V (some r) ((m.virtMap.onward z).map Prod.fst)[0]? z := by
  obtain ⟨q, hq, htouch, hend⟩ : ∃ q ∈ m.virtMap.keys, r.endAddr V.toAddrApi = some q.addr ∧
      z.addr + z.size < q.addr + q.size := by
    obtain ⟨e, he, hre⟩ := (hm.half r hr).endAddr hV
    rcases hreach with hle | ⟨q, hq, hqr, hgt, hle⟩
    · obtain ⟨-, q, hq, htouch⟩ := h r hr (by omega)
      have hqpos := hm.pos q hq
      have hqe := Option.some.inj (he.symm.trans htouch)
      exact ⟨q, hq, htouch, by omega⟩
    · have hne : q.addr + q.size ≠ z.addr + z.size := fun heq => by
        have hlo := (h q hq heq).1
        omega
      exact ⟨q, hq, endAddr_eq_next hV hm hr hq hqr, by omega⟩
  exact Or.inr (Or.inr ⟨r, rfl, q, next_of_touch hV hm hr hq hstart hrz htouch, htouch, hstart.1, hend⟩)

/-- A range that begins with its successor is found unless it is the whole region. -/
theorem found_next_iff (hm : m.Regions) (hr : r ∈ m.virtMap.keys) (hzr : ¬ r < z)
    (haddr : r.addr = z.addr) (hsize : z.size ≤ r.size) (hpos : 0 < z.size) :
    Found V ((m.virtMap.below z).map Prod.fst)[0]? (some r) z ↔ m.EndsInside V z := by
  rcases hsize.eq_or_lt with heq | hlt
  · constructor
    · rintro (⟨p, hp, hin⟩ | ⟨n, hn, hin⟩ | ⟨p, -, n, hn, -, -, hend⟩)
      · obtain ⟨⟨hpmem, hpz⟩, -⟩ := SortedMap.head_below_iff.1 hp
        have hle := hm.le_of_lt hpmem hr (hpz.trans_le (not_lt.1 hzr))
        omega
      · obtain rfl := Option.some.inj hn
        omega
      · obtain rfl := Option.some.inj hn
        omega
    · intro h
      have hlo := (h r hr (by omega)).1
      omega
  · exact ⟨fun _ => endsInside_of_lt hm hr (by omega) (by omega),
      fun _ => Or.inr (Or.inl ⟨r, rfl, haddr.le, by omega⟩)⟩

/-- **`range_map` calls its closure on a range that is covered** exactly if the range ends inside. -/
theorem calls_iff (hV : V.IsVirt) (hm : m.Regions) (hpos : 0 < z.size) (hc : m.Covers z) :
    m.Calls V z ↔ m.EndsInside V z := by
  obtain ⟨r, hr, hstart, hreach⟩ := hc.start hm hpos
  rw [calls_iff_found hV hm (hreach.oneHalf hm hr hstart) hpos rfl rfl]
  by_cases hrz : r < z
  · rw [prev_of_start hm hr hstart hrz]
    by_cases hlt : z.addr + z.size < r.addr + r.size
    · exact ⟨fun _ => endsInside_of_lt hm hr (by omega) hlt, fun _ => Or.inl ⟨r, rfl, hstart.1, hlt⟩⟩
    · exact ⟨endsInside_of_found hV hm hr hstart hrz (by omega) hreach,
        found_of_endsInside hV hm hr hstart hrz (by omega) hreach⟩
  · obtain ⟨hnext, haddr, hsize⟩ := next_of_start hm hr hstart hrz
    rw [hnext]
    exact found_next_iff hm hr hrz haddr hsize hpos

/-- Over disjoint regions, `range_map` calls its closure on what they cover if and only if a range that
ends with a region begins behind its start and has a region that follows. -/
theorem rangeMap_calls_iff (hV : V.IsVirt) (hm : m.Regions) (hpos : 0 < z.size) :
    (m.Covers z → m.Calls V z) ↔ (m.Covers z → m.EndsInside V z) :=
  imp_congr_right (calls_iff hV hm hpos)

/-- Two reserved pages, and one that follows. -/
abbrev threePages : VirtMapper where
  virtMap :=
    { entries := [(⟨0x1000, 0x2000⟩, .ofVec [⟨.empty 0x2000, 0x2000, .NONE, 0⟩] .virtMem),
        (⟨0x3000, 0x1000⟩, .ofVec [⟨.empty 0x1000, 0x1000, .NONE, 0⟩] .virtMem)]
      sorted := by simp [AddrRange.lt_iff] }

theorem threePages_regions : threePages.Regions := by
  have hkeys : threePages.virtMap.keys = [⟨0x1000, 0x2000⟩, ⟨0x3000, 0x1000⟩] := rfl
  refine ⟨?_, ?_, ?_⟩
  · rw [hkeys]
    decide
  · rw [hkeys]
    simp [OneHalf]
  · rw [hkeys]
    simp [Apart]

/-- The second page, which ends with the first region. -/
theorem rangeMap_calls_iff_sample :
    (threePages.Covers ⟨0x2000, 0x1000⟩ → threePages.Calls virtAddr ⟨0x2000, 0x1000⟩) ↔
      (threePages.Covers ⟨0x2000, 0x1000⟩ → threePages.EndsInside virtAddr ⟨0x2000, 0x1000⟩) :=
  rangeMap_calls_iff virtAddr_isVirt threePages_regions (by decide)

/-- The first two pages are a region, and the closure is not called on them. -/
theorem not_calls_region :
    threePages.Regions ∧ threePages.Covers ⟨0x1000, 0x2000⟩ ∧
      ¬ threePages.Calls virtAddr ⟨0x1000, 0x2000⟩ := by
  refine ⟨threePages_regions, ?_, fun h => ?_⟩
  · have hkey : (⟨0x1000, 0x2000⟩ : VirtRange) ∈ threePages.virtMap.keys := List.mem_cons_self
    exact ⟨_, hkey, _, hkey, fun x hx => Or.inl hx⟩
  · have hnone : threePages.rangeMap virtAddr ⟨0x1000, 0x2000⟩ (fun _ => some (some ())) = some none := by
      decide +kernel
    rw [h Unit] at hnone
    exact absurd hnone (by simp)

end VirtMapper
end AuroraOs
