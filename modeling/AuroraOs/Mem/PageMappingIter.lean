import AuroraOs.Lib.Machine
import AuroraOs.Mem.AllocSize
import AuroraOs.Mem.PageMapping
import AuroraOs.Mem.VirtAllocRevert

/-!
# What a layout maps

The elements of a layout lie one after the other from an address on.  An element with memory behind it is
mapped there frame by frame; the others only take up room.  `PageMappingIterator::new` goes from what is
mapped to what the layout is, and `new_unmapper` takes away what is mapped.

The addresses are values of `VirtAddr`.  Where a sum leaves its half of the canonical addresses it is moved
to the other half, or `VirtAddr::new` panics.
-/

namespace AuroraOs

open Machine Pages

/-! ### Elements one after the other -/

namespace VirtLayoutElement

variable (P : AddrApi) (e : VirtLayoutElement)

/-- An element of whole pages whose memory, if it has any, is a range of physical addresses. -/
structure Layable : Prop where
  dvd : PAGE_SIZE ∣ e.mapSize
  lt : e.mapSize < usizeMod
  zone : ∃ z, e.asPhysZone P = some z

variable {P e} {σ : Type*} {M : MemApi σ} {s s' : σ} {mem : ZoneAllocation} {range : AddrRange} {size : ℕ}
  {flags : PageMappingFlags}

theorem asPhysZone_alloced (h : (virtToPhys P mem.mem.addr).isSome)
    (he : e.physData = .allocedMem mem) : ∃ z, e.asPhysZone P = some z := by
  obtain ⟨addr, haddr⟩ := Option.isSome_iff_exists.1 h
  unfold asPhysZone
  split_ifs
  · exact ⟨none, rfl⟩
  · exact ⟨some (.new addr e.mapSize), by simp only [he, haddr, Option.map_some]⟩

/-- `new` makes such elements of what a zone manager returns. -/
theorem layable_new (hM : M.AllocSizes s)
    (haddr : ∀ s' mem, M.alloc s (alignUp size PAGE_SIZE) = some (s', some mem) →
      (virtToPhys P mem.mem.addr).isSome)
    (h : VirtLayoutElement.new M s size flags = some (s', some e)) : e.Layable P := by
  unfold VirtLayoutElement.new at h
  by_cases hexists : flags.exists_ = true
  · rw [if_pos hexists] at h
    obtain ⟨⟨s₁, mem⟩, halloc, h⟩ := Option.bind_eq_some_iff.1 h
    obtain ⟨rfl, hmap⟩ := Prod.mk.inj (Option.some.inj h)
    obtain ⟨mem, rfl, rfl⟩ := Option.map_eq_some_iff.1 hmap
    obtain ⟨-, -, hle, hdvd⟩ := hM _ alignUp_lt _ _ halloc
    refine ⟨?_, ?_, asPhysZone_alloced (haddr _ _ halloc) rfl⟩
    · simp only
      split_ifs
      exacts [dvd_alignUp, hdvd]
    · simp only
      split_ifs
      exacts [alignUp_lt, hle.trans_lt (by decide)]
  · rw [if_neg hexists] at h
    obtain ⟨-, he⟩ := Prod.mk.inj (Option.some.inj h)
    obtain rfl := Option.some.inj he
    refine ⟨dvd_alignUp, alignUp_lt, none, ?_⟩
    unfold asPhysZone
    split_ifs <;> rfl

theorem layable_fromMem (hdvd : PAGE_SIZE ∣ mem.mem.size) (hlt : mem.mem.size < usizeMod)
    (haddr : (virtToPhys P mem.mem.addr).isSome) : (fromMem mem size flags).Layable P := by
  refine ⟨?_, ?_, asPhysZone_alloced haddr rfl⟩
  · unfold fromMem
    simp only
    split_ifs
    · rcases min_choice mem.mem.size (alignUp size PAGE_SIZE) with hmin | hmin <;> rw [hmin]
      exacts [hdvd, dvd_alignUp]
    · exact hdvd
  · unfold fromMem
    simp only
    split_ifs
    · exact (min_le_left _ _).trans_lt hlt
    · exact hlt

theorem layable_fromRange (h : fromRange P range flags = some e) : e.Layable P := by
  obtain ⟨r, hr, he⟩ := Option.bind_eq_some_iff.1 h
  obtain rfl := Option.some.inj he
  obtain ⟨a, -, hr⟩ := Option.bind_eq_some_iff.1 hr
  obtain ⟨d, -, hr⟩ := Option.bind_eq_some_iff.1 hr
  obtain rfl := Option.some.inj hr
  refine ⟨dvd_alignUp, alignUp_lt, ?_⟩
  unfold asPhysZone
  split_ifs
  exacts [⟨none, rfl⟩, ⟨_, rfl⟩]

end VirtLayoutElement

namespace VirtLayout

open VirtLayoutElement

section Zones

variable (P : AddrApi) (flags : VirtLayoutElement → PageTableFlags)

/-- The zone of an element at an address, if it has memory. -/
def pieceAt (a : ℕ) (e : VirtLayoutElement) : List Pmit :=
  match e.asPhysZone P with
  | some (some r) => [⟨⟨r.addr, e.size⟩, ⟨a, e.size⟩, flags e⟩]
  | _ => []

/-- The zones of elements that lie one after the other from an address on. -/
def zonesAt : ℕ → List VirtLayoutElement → List Pmit
  | _, [] => []
  | a, e :: elems => pieceAt P flags a e ++ zonesAt (a + e.size) elems

/-- The frames of a zone, and what they are mapped to. -/
def zoneFrames (z : Pmit) : List (Frame × Frame × PageTableFlags) :=
  (cut PageSize.bytes PageSize.all z.physZone.addr z.virtZone.addr z.virtZone.size).map fun a =>
    (⟨a.size, a.virt⟩, ⟨a.size, a.phys⟩, z.flags)

/-- The frames of elements that are laid out from an address on. -/
def installed (a : ℕ) (elems : List VirtLayoutElement) : List (Frame × Frame × PageTableFlags) :=
  (zonesAt P VirtLayoutElement.flags a elems).flatMap zoneFrames

/-- What is mapped of a layout. -/
def mapped (self : VirtLayout) : List VirtLayoutElement := self.cleanSlice ++ self.deallocQue.reverse

/-- An element lies at a canonical address.  If it has memory it lies in one half, and the memory ends
below `2 ^ 52`. -/
def Straight : ℕ → List VirtLayoutElement → Prop
  | _, [] => True
  | a, e :: elems => Canonical a ∧
      (∀ r, e.asPhysZone P = some (some r) → r.addr + e.size < 2 ^ 52 ∧ InHalf a e.size) ∧
      Straight (a + e.size) elems

end Zones

variable {P : AddrApi} {V : VirtAddrApi} {flags : VirtLayoutElement → PageTableFlags} {a b : ℕ}
  {e : VirtLayoutElement} {elems xs ys : List VirtLayoutElement} {z : Pmit} {zones zones' : List Pmit}

theorem zonesAt_append : zonesAt P flags a (xs ++ ys) =
    zonesAt P flags a xs ++ zonesAt P flags (a + total xs) ys := by
  induction xs generalizing a with
  | nil => simp [zonesAt]
  | cons e xs ih => simp [zonesAt, ih, Nat.add_assoc]

theorem installed_append :
    installed P a (xs ++ ys) = installed P a xs ++ installed P (a + total xs) ys := by
  rw [installed, zonesAt_append, List.flatMap_append, installed, installed]

theorem straight_append : Straight P a (xs ++ ys) ↔ Straight P a xs ∧ Straight P (a + total xs) ys := by
  induction xs generalizing a with
  | nil => simp [Straight]
  | cons e xs ih => simp [Straight, ih, Nat.add_assoc, and_assoc]

/-- A zone is that of an element, at the sum of the sizes before it. -/
theorem mem_zonesAt : z ∈ zonesAt P flags a elems ↔
    ∃ xs e ys, elems = xs ++ e :: ys ∧ z ∈ pieceAt P flags (a + total xs) e := by
  induction elems generalizing a with
  | nil => simp [zonesAt]
  | cons e elems ih =>
    rw [zonesAt, List.mem_append, ih]
    constructor
    · rintro (hz | ⟨xs, e', ys, rfl, hz⟩)
      · exact ⟨[], e, elems, rfl, by simpa using hz⟩
      · exact ⟨e :: xs, e', ys, rfl, by simpa [Nat.add_assoc] using hz⟩
    · rintro ⟨xs, e', ys, he, hz⟩
      rcases List.cons_eq_append_iff.1 he with ⟨rfl, he⟩ | ⟨xs', rfl, rfl⟩
      · obtain ⟨rfl, rfl⟩ := List.cons.inj he
        exact Or.inl (by simpa using hz)
      · exact Or.inr ⟨xs', e', ys, rfl, by simpa [Nat.add_assoc] using hz⟩

theorem mem_pieceAt : z ∈ pieceAt P flags a e ↔
    ∃ r, e.asPhysZone P = some (some r) ∧ z = ⟨⟨r.addr, e.size⟩, ⟨a, e.size⟩, flags e⟩ := by
  unfold pieceAt
  split
  · next r hr => simp [hr]
  · next hnone =>
    simp only [List.not_mem_nil, false_iff, not_exists, not_and]
    exact fun r hr => absurd hr (hnone r)

/-! ### The zones that the constructors make -/

theorem asPhysZone_spec {r : AddrRange} (h : e.asPhysZone P = some (some r)) :
    e.flags.present = true ∧ PAGE_SIZE ∣ r.addr ∧ r.size = alignUp e.mapSize PAGE_SIZE := by
  unfold asPhysZone at h
  by_cases hpresent : (!e.flags.present) = true
  · rw [if_pos hpresent] at h
    cases h
  rw [if_neg hpresent] at h
  refine ⟨by simpa using hpresent, ?_⟩
  split at h
  · obtain ⟨addr, -, he⟩ := Option.map_eq_some_iff.1 h
    obtain rfl := Option.some.inj he
    exact ⟨dvd_alignDown, rfl⟩
  · obtain rfl := Option.some.inj (Option.some.inj h)
    exact ⟨dvd_alignDown, rfl⟩
  · cases h

theorem pmit_eq {f : PageTableFlags} (hl : e.Layable P) (hd : PAGE_SIZE ∣ a) (ha : a < usizeMod) :
    pmit P a e f = some (pieceAt P (fun _ => f) a e) := by
  obtain ⟨z, hz⟩ := hl.zone
  cases z with
  | none => simp [pmit, pieceAt, hz]
  | some r =>
    obtain ⟨-, -, hsize⟩ := asPhysZone_spec hz
    have hup : alignUp e.mapSize PAGE_SIZE = e.mapSize :=
      alignUp_of_page (n := 0) hl.dvd (by simpa using hl.lt)
    have hvirt : AddrRange.new a e.size = ⟨a, e.size⟩ := by
      rw [AddrRange.new, alignDown_of_dvd ha hd, VirtLayoutElement.size, hup]
    have hphys : r = ⟨r.addr, e.size⟩ := by
      rw [VirtLayoutElement.size, ← hup, ← hsize]
    have hnew : Pmit.new r (.new a e.size) f = some ⟨⟨r.addr, e.size⟩, ⟨a, e.size⟩, f⟩ := by
      rw [hvirt, hphys, Pmit.new, if_pos rfl]
    simp only [pmit, pieceAt, hz, hnew, Option.bind_eq_bind, Option.bind_some]

theorem pmits_append {f : VirtLayoutElement → PageTableFlags} :
    pmits P V.toAddrApi f a zones (xs ++ ys) =
      (pmits P V.toAddrApi f a zones xs).bind fun r => pmits P V.toAddrApi f r.1 r.2 ys := by
  induction xs generalizing a zones with
  | nil => rfl
  | cons e xs ih =>
    simp only [List.cons_append, pmits, Option.bind_eq_bind, Option.bind_assoc, ih]

/-- Upward from an address: the zones are those of the elements, and the address behind them is their end
if it is canonical. -/
theorem pmits_eq (flags : VirtLayoutElement → PageTableFlags) (zones : List Pmit) (hV : V.IsVirt)
    (hl : ∀ e ∈ elems, e.Layable P) (hd : PAGE_SIZE ∣ a) (hs : Straight P a elems)
    (hend : elems = [] ∨ Accepted (a + total elems)) :
    ∃ b, pmits P V.toAddrApi flags a zones elems = some (b, zones ++ zonesAt P flags a elems) ∧
      (Canonical (a + total elems) → b = a + total elems) := by
  induction elems generalizing a zones with
  | nil => exact ⟨a, by simp [pmits, zonesAt], fun _ => rfl⟩
  | cons e elems ih =>
    obtain ⟨hc, -, hs'⟩ := hs
    have he := hl e List.mem_cons_self
    have hlt : a < usizeMod := by
      unfold Canonical at hc
      simp only [usizeMod]
      omega
    have hnext : Accepted (a + e.size) ∧ (elems ≠ [] → Canonical (a + e.size)) := by
      cases elems with
      | nil => exact ⟨by simpa using hend, fun h => absurd rfl h⟩
      | cons e' elems => exact ⟨accepted_of_canonical hs'.1, fun _ => hs'.1⟩
    obtain ⟨b, hadd, hb⟩ := add_of_accepted hV hnext.1
    have hpmit : pmit P a e (flags e) = some (pieceAt P flags a e) := pmit_eq he hd hlt
    simp only [pmits, hpmit, hadd, Option.bind_eq_bind, Option.bind_some, total_cons, zonesAt]
    rcases eq_or_ne elems [] with rfl | hne
    · exact ⟨b, by simp [pmits, zonesAt], by simpa using hb⟩
    · obtain rfl := hb (hnext.2 hne)
      have hd' : PAGE_SIZE ∣ a + e.size := hd.add he.dvd
      obtain ⟨c, hc, hceq⟩ := ih (zones ++ pieceAt P flags a e) (fun e' he' => hl e' (List.mem_cons_of_mem _ he'))
        hd' hs' (Or.inr (by simpa [Nat.add_assoc] using hend))
      exact ⟨c, by rw [hc, List.append_assoc], by rwa [← Nat.add_assoc]⟩

theorem pieceAt_reverse : (pieceAt P flags a e).reverse = pieceAt P flags a e := by
  unfold pieceAt
  split <;> rfl

theorem dvd_total (hl : ∀ e ∈ elems, e.Layable P) : PAGE_SIZE ∣ total elems := by
  induction elems with
  | nil => exact dvd_zero _
  | cons e elems ih =>
    rw [total_cons]
    exact (hl e List.mem_cons_self).dvd.add (ih fun e' he' => hl e' (List.mem_cons_of_mem _ he'))

/-- Downward from the end of what is mapped. -/
theorem pmitsDown_eq (que : List VirtLayoutElement) (zones : List Pmit) (hV : V.IsVirt)
    (hl : ∀ e ∈ que, e.Layable P) (hd : PAGE_SIZE ∣ a) (hs : Straight P a que.reverse) :
    pmitsDown P V.toAddrApi (a + total que) zones que =
      some (a, zones ++ (zonesAt P (fun _ => .NONE) a que.reverse).reverse) := by
  induction que generalizing zones with
  | nil => simp [pmitsDown, zonesAt]
  | cons e que ih =>
    rw [List.reverse_cons, straight_append, total_reverse] at hs
    obtain ⟨hs, hc, -⟩ := hs
    have he := hl e List.mem_cons_self
    have hl' : ∀ e' ∈ que, e'.Layable P := fun e' he' => hl e' (List.mem_cons_of_mem _ he')
    have hlt : a + total que < usizeMod := by
      unfold Canonical at hc
      simp only [usizeMod]
      omega
    have hsub : V.sub (a + total (e :: que)) e.size = some (a + total que) := by
      rw [total_cons, hV.sub_eq, if_pos (by omega), show a + (e.size + total que) - e.size = a + total que by omega,
        hV.new_of_canonical hc]
    have hpmit : pmit P (a + total que) e .NONE = some (pieceAt P (fun _ => .NONE) (a + total que) e) :=
      pmit_eq he (hd.add (dvd_total hl')) hlt
    simp only [pmitsDown, hsub, hpmit, Option.bind_eq_bind, Option.bind_some]
    rw [ih _ hl' hs, List.reverse_cons, zonesAt_append, total_reverse, List.reverse_append, List.append_assoc]
    simp [zonesAt, pieceAt_reverse]

/-! ### Frames of zones -/

/-- A zone of whole pages in one half, with memory below `2 ^ 52`. -/
structure Whole (z : Pmit) : Prop where
  size_eq : z.physZone.size = z.virtZone.size
  dvd_phys : PAGE_SIZE ∣ z.physZone.addr
  dvd_virt : PAGE_SIZE ∣ z.virtZone.addr
  dvd_size : PAGE_SIZE ∣ z.virtZone.size

theorem whole_zonesAt (hl : ∀ e ∈ elems, e.Layable P) (hd : PAGE_SIZE ∣ a)
    (hz : z ∈ zonesAt P flags a elems) : Whole z := by
  obtain ⟨xs, e, ys, rfl, hpiece⟩ := mem_zonesAt.1 hz
  obtain ⟨r, hr, rfl⟩ := mem_pieceAt.1 hpiece
  have hxs : ∀ e' ∈ xs, e'.Layable P := fun e' he' => hl e' (by simp [he'])
  exact ⟨rfl, (asPhysZone_spec hr).2.1, hd.add (dvd_total hxs), (hl e (by simp)).dvd⟩

/-- The action for a frame. -/
def entryAction (entry : Frame × Frame × PageTableFlags) : PageMappingAction :=
  if entry.2.2.present then .map entry.2.1 entry.1 entry.2.2 else .unmap entry.1

/-- A loop over zones acts on their frames, if each of them lies in one half. -/
theorem yields_zones (zones : List Pmit) (hP : P.IsPhys) (hV : V.IsVirt) (hw : ∀ z ∈ zones, Whole z)
    (hfit : ∀ z ∈ zones, z.physZone.addr + z.virtZone.size < 2 ^ 52 ∧ InHalf z.virtZone.addr z.virtZone.size) :
    PageMappingIterator.Yields P V.toAddrApi zones ((zones.flatMap zoneFrames).map entryAction) := by
  induction zones with
  | nil => exact .done rfl
  | cons z zones ih =>
    obtain ⟨⟨p, n⟩, ⟨v, n'⟩, f⟩ := z
    obtain ⟨hsize, hdp, hdv, hdn⟩ := hw _ List.mem_cons_self
    obtain ⟨hbelow, hhalf⟩ := hfit _ List.mem_cons_self
    simp only at hsize hdp hdv hdn hbelow hhalf
    subst hsize
    have hrest := ih (fun z hz => hw z (List.mem_cons_of_mem _ hz)) fun z hz => hfit z (List.mem_cons_of_mem _ hz)
    have hzone := yields_zone (f := f) hP hV hdp hdv hdn hbelow hhalf hrest
    rw [List.flatMap_cons, List.map_append, zoneFrames, List.map_map]
    exact hzone

/-- The zones of elements are as they lie, one after the other. -/
theorem zonesAt_pairwise :
    (zonesAt P flags a elems).Pairwise fun z z' => z.virtZone.addr + z.virtZone.size ≤ z'.virtZone.addr := by
  induction elems generalizing a with
  | nil => exact .nil
  | cons e elems ih =>
    rw [zonesAt, List.pairwise_append]
    refine ⟨?_, ih, fun z hz z' hz' => ?_⟩
    · unfold pieceAt
      split <;> simp
    · obtain ⟨r, -, rfl⟩ := mem_pieceAt.1 hz
      obtain ⟨xs, e', ys, rfl, hpiece⟩ := mem_zonesAt.1 hz'
      obtain ⟨r', -, rfl⟩ := mem_pieceAt.1 hpiece
      exact Nat.le_add_right _ _

/-- A frame of a zone is aligned on both sides, and lies in the zone. -/
theorem zoneFrames_mem {v p : Frame} {f : PageTableFlags} (hw : Whole z) (h : (v, p, f) ∈ zoneFrames z) :
    p.size = v.size ∧ v.size.bytes ∣ p.addr ∧ v.size.bytes ∣ v.addr ∧ f = z.flags ∧
      z.virtZone.addr ≤ v.addr ∧ v.addr + v.size.bytes ≤ z.virtZone.addr + z.virtZone.size := by
  obtain ⟨c, hc, he⟩ := List.mem_map.1 h
  simp only [Prod.mk.injEq] at he
  obtain ⟨rfl, rfl, rfl⟩ := he
  obtain ⟨-, hp, hv, hlo, hhi⟩ := cut_mem PageSize.units hw.dvd_phys hw.dvd_virt hw.dvd_size hc
  exact ⟨rfl, hp, hv, rfl, hlo, hhi⟩

theorem installed_pairwise (hl : ∀ e ∈ elems, e.Layable P) (hd : PAGE_SIZE ∣ a) :
    (installed P a elems).Pairwise fun x y => x.1.addr + x.1.size.bytes ≤ y.1.addr := by
  rw [installed, List.pairwise_flatMap]
  have hw : ∀ z ∈ zonesAt P VirtLayoutElement.flags a elems, Whole z := fun z hz => whole_zonesAt hl hd hz
  refine ⟨fun z hz => ?_, zonesAt_pairwise.imp_of_mem fun {z z'} hz hz' hle x hx y hy => ?_⟩
  · rw [zoneFrames, List.pairwise_map]
    exact cut_pairwise PageSize.units (hw z hz).dvd_phys (hw z hz).dvd_virt (hw z hz).dvd_size
  · have hxz := zoneFrames_mem (hw z hz) hx
    have hyz := zoneFrames_mem (hw z' hz') hy
    omega

/-- No frame is mapped twice. -/
theorem installed_unique (hl : ∀ e ∈ elems, e.Layable P) (hd : PAGE_SIZE ∣ a) :
    ((installed P a elems).map Prod.fst).Nodup := by
  rw [List.Nodup, List.pairwise_map]
  refine (installed_pairwise hl hd).imp fun {x y} hle heq => ?_
  have hpos := PageSize.units.bytes_pos x.1.size (PageSize.mem_all _)
  rw [heq] at hle hpos
  omega

/-- The frames are the same with other flags. -/
theorem fst_frames (flags : VirtLayoutElement → PageTableFlags) : ((zonesAt P flags a elems).flatMap zoneFrames).map Prod.fst =
    (installed P a elems).map Prod.fst := by
  induction elems generalizing a with
  | nil => rfl
  | cons e elems ih =>
    have hpiece : ((pieceAt P flags a e).flatMap zoneFrames).map Prod.fst =
        ((pieceAt P VirtLayoutElement.flags a e).flatMap zoneFrames).map Prod.fst := by
      unfold pieceAt
      split <;> simp [zoneFrames]
    simp only [installed, zonesAt, List.flatMap_append, List.map_append, hpiece] at ih ⊢
    rw [ih]

theorem flags_zonesAt {f : PageTableFlags} (hz : z ∈ zonesAt P (fun _ => f) a elems) : z.flags = f := by
  obtain ⟨xs, e, ys, -, hpiece⟩ := mem_zonesAt.1 hz
  obtain ⟨r, -, rfl⟩ := mem_pieceAt.1 hpiece
  rfl

theorem map_entryAction_unmap (h : ∀ z ∈ zones, z.flags = .NONE) :
    (zones.flatMap zoneFrames).map entryAction = ((zones.flatMap zoneFrames).map Prod.fst).map .unmap := by
  rw [List.map_map]
  refine List.map_congr_left fun x hx => ?_
  obtain ⟨z, hz, hx⟩ := List.mem_flatMap.1 hx
  obtain ⟨c, -, rfl⟩ := List.mem_map.1 hx
  refine if_neg ?_
  simp only [h z hz]
  decide

theorem map_entryAction_map : (installed P a elems).map entryAction =
    (installed P a elems).map fun x => .map x.2.1 x.1 x.2.2 := by
  refine List.map_congr_left fun x hx => ?_
  obtain ⟨z, hz, hx⟩ := List.mem_flatMap.1 hx
  obtain ⟨c, -, rfl⟩ := List.mem_map.1 hx
  obtain ⟨xs, e, ys, -, hpiece⟩ := mem_zonesAt.1 hz
  obtain ⟨r, hr, rfl⟩ := mem_pieceAt.1 hpiece
  simp only [entryAction, (asPhysZone_spec hr).1, if_true]

theorem mem_fst_installed_reverse {v : Frame} :
    v ∈ (((zonesAt P (fun _ => .NONE) a elems).reverse).flatMap zoneFrames).map Prod.fst ↔
      v ∈ (installed P a elems).map Prod.fst := by
  rw [← fst_frames fun _ => .NONE]
  simp [List.mem_flatMap]

/-! ### The iterators -/

variable {l : VirtLayout} {virtZone : VirtRange}

/-- The sizes are counted, and the elements can be laid out. -/
structure Counted (P : AddrApi) (l : VirtLayout) : Prop where
  size : l.cleanSize = total l.mapped % usizeMod
  data : ∀ e ∈ l.data, e.Layable P
  que : ∀ e ∈ l.deallocQue, e.Layable P

/-- No address that the iterators compute with is moved. -/
structure Unmoved (P : AddrApi) (l : VirtLayout) (a : ℕ) : Prop where
  mapped : Straight P a l.mapped
  mappedEnd : Accepted (a + total l.mapped)
  data : Straight P a l.data
  dataEnd : Accepted (a + total l.data)
  top : l.deallocQue ≠ [] → Canonical (a + total l.mapped)

theorem clean_append_dirty (l : VirtLayout) : l.cleanSlice ++ l.dirtySlice = l.data :=
  List.take_append_drop _ _

theorem Counted.mapped (h : Counted P l) : ∀ e ∈ l.mapped, e.Layable P := by
  intro e he
  rcases List.mem_append.1 he with he | he
  · exact h.data e (List.mem_of_mem_take he)
  · exact h.que e (List.mem_reverse.1 he)

theorem add_cleanSize (h : Counted P l) (hV : V.IsVirt) (a : ℕ) :
    V.add a l.cleanSize = V.add a (total l.mapped) := by
  rw [hV.add_eq, hV.add_eq, h.size, Nat.add_mod_mod]

theorem unmappingIter_eq (hV : V.IsVirt) (h : Counted P l) (hd : PAGE_SIZE ∣ virtZone.addr)
    (hu : Unmoved P l virtZone.addr) : l.unmappingIter P V.toAddrApi virtZone =
      some (zonesAt P (fun _ => .NONE) virtZone.addr l.mapped) := by
  obtain ⟨b, hb, -⟩ := pmits_eq (fun _ => .NONE) [] hV h.mapped hd hu.mapped (Or.inr hu.mappedEnd)
  rw [VirtLayout.mapped, pmits_append, List.nil_append] at hb
  obtain ⟨⟨c, zones⟩, hclean, hque⟩ := Option.bind_eq_some_iff.1 hb
  simp only [unmappingIter, hclean, hque, Option.bind_eq_bind, Option.bind_some, VirtLayout.mapped]

/-- The downward part of `new` ends where the dirty elements begin, unless there are none. -/
theorem down_eq (hV : V.IsVirt) (h : Counted P l) (hd : PAGE_SIZE ∣ virtZone.addr)
    (hu : Unmoved P l virtZone.addr) : ∃ top mid, V.add virtZone.addr l.cleanSize = some top ∧
      pmitsDown P V.toAddrApi top [] l.deallocQue = some (mid,
        (zonesAt P (fun _ => .NONE) (virtZone.addr + total l.cleanSlice) l.deallocQue.reverse).reverse) ∧
      (l.dirtySlice ≠ [] → mid = virtZone.addr + total l.cleanSlice) := by
  obtain ⟨b, hadd, hb⟩ := add_of_accepted hV hu.mappedEnd
  rw [← add_cleanSize h hV] at hadd
  rcases eq_or_ne l.deallocQue [] with hnil | hne
  · refine ⟨b, b, hadd, by rw [hnil]; rfl, fun hne => ?_⟩
    have htop : total l.mapped = total l.cleanSlice := by
      rw [VirtLayout.mapped, hnil, List.reverse_nil, List.append_nil]
    have hsplit := hu.data
    rw [← clean_append_dirty, straight_append] at hsplit
    obtain ⟨e, ys, he⟩ := List.exists_cons_of_ne_nil hne
    rw [he] at hsplit
    rw [htop] at hb
    exact hb hsplit.2.1
  · have htop : virtZone.addr + total l.mapped = virtZone.addr + total l.cleanSlice + total l.deallocQue := by
      rw [VirtLayout.mapped, total_append, total_reverse, Nat.add_assoc]
    have hclean : ∀ e ∈ l.cleanSlice, e.Layable P := fun e he => h.data e (List.mem_of_mem_take he)
    have hdown := pmitsDown_eq l.deallocQue [] hV h.que (hd.add (dvd_total hclean)) (straight_append.1 hu.mapped).2
    refine ⟨b, _, hadd, ?_, fun _ => rfl⟩
    rw [hb (hu.top hne), htop, hdown, List.nil_append]

theorem mappingIter_eq (hV : V.IsVirt) (h : Counted P l) (hd : PAGE_SIZE ∣ virtZone.addr)
    (hu : Unmoved P l virtZone.addr) : l.mappingIter P V.toAddrApi virtZone =
      some ((zonesAt P (fun _ => .NONE) (virtZone.addr + total l.cleanSlice) l.deallocQue.reverse).reverse ++
        zonesAt P VirtLayoutElement.flags (virtZone.addr + total l.cleanSlice) l.dirtySlice) := by
  have hsplit := hu.data
  have hdata := hu.dataEnd
  rw [← clean_append_dirty, straight_append] at hsplit
  rw [← clean_append_dirty, total_append, ← Nat.add_assoc] at hdata
  have hclean : ∀ e ∈ l.cleanSlice, e.Layable P := fun e he => h.data e (List.mem_of_mem_take he)
  have hdirty : ∀ e ∈ l.dirtySlice, e.Layable P := fun e he => h.data e (List.mem_of_mem_drop he)
  obtain ⟨top, mid, hadd, hdown, hmid⟩ := down_eq hV h hd hu
  simp only [mappingIter, hadd, hdown, Option.bind_eq_bind, Option.bind_some]
  rcases eq_or_ne l.dirtySlice [] with hnil | hne
  · simp [hnil, pmits, zonesAt]
  · obtain rfl := hmid hne
    obtain ⟨c, hc, -⟩ := pmits_eq VirtLayoutElement.flags ((zonesAt P (fun _ => .NONE)
      (virtZone.addr + total l.cleanSlice) l.deallocQue.reverse).reverse) hV hdirty (hd.add (dvd_total hclean))
      hsplit.2 (Or.inr hdata)
    rw [hc, Option.bind_some]

/-- The zones of elements that no address moves lie in one half, with memory below `2 ^ 52`. -/
theorem fit_of_straight (hs : Straight P a elems) (hz : z ∈ zonesAt P flags a elems) :
    z.physZone.addr + z.virtZone.size < 2 ^ 52 ∧ InHalf z.virtZone.addr z.virtZone.size := by
  obtain ⟨xs, e, ys, rfl, hpiece⟩ := mem_zonesAt.1 hz
  obtain ⟨r, hr, rfl⟩ := mem_pieceAt.1 hpiece
  exact (straight_append.1 hs).2.2.1 r hr

/-- What the iterators do is what the layout asks for. -/
structure IterCorrect (P : AddrApi) (V : VirtAddrApi) (l : VirtLayout) (virtZone : VirtRange) : Prop where
  /-- From what is mapped, `new` goes to the elements of the layout. -/
  maps : ∀ t : Tables, Holds t (installed P virtZone.addr l.mapped) → ∃ zones acts,
    l.mappingIter P V.toAddrApi virtZone = some zones ∧ PageMappingIterator.Yields P V.toAddrApi zones acts ∧
      (∀ act ∈ acts, act.Aligned) ∧ Holds (t.perform acts) (installed P virtZone.addr l.data)
  /-- `new_unmapper` goes through the frames that are mapped. -/
  unmaps : ∃ zones acts, l.unmappingIter P V.toAddrApi virtZone = some zones ∧
    PageMappingIterator.Yields P V.toAddrApi zones acts ∧ (∀ act ∈ acts, act.Aligned) ∧
      acts = ((installed P virtZone.addr l.mapped).map Prod.fst).map .unmap
  /-- Each element that is mapped is found behind those before it. -/
  mappedAt : ∀ xs e ys, l.mapped = xs ++ e :: ys → ∃ zones,
    pmits P V.toAddrApi (fun _ => .NONE) virtZone.addr [] xs = some (virtZone.addr + total xs, zones)
  /-- The elements that were removed are found in front of those behind them. -/
  queAt : ∀ xs e ys, l.deallocQue = xs ++ e :: ys → ∃ top zones,
    V.add virtZone.addr l.cleanSize = some top ∧ pmitsDown P V.toAddrApi top [] (xs ++ [e]) =
      some (virtZone.addr + total l.cleanSlice + total ys, zones)
  /-- The elements that are to be mapped are found behind those before them. -/
  dirtyAt : ∀ xs e ys, l.dirtySlice = xs ++ e :: ys → ∃ top mid zones zones',
    V.add virtZone.addr l.cleanSize = some top ∧
    pmitsDown P V.toAddrApi top [] l.deallocQue = some (mid, zones) ∧
    pmits P V.toAddrApi VirtLayoutElement.flags mid zones xs =
      some (virtZone.addr + total l.cleanSlice + total xs, zones')

theorem aligned_unmap (hl : ∀ e ∈ elems, e.Layable P) (hd : PAGE_SIZE ∣ a) {act : PageMappingAction}
    (h : act ∈ ((installed P a elems).map Prod.fst).map .unmap) : act.Aligned := by
  obtain ⟨v, hv, rfl⟩ := List.mem_map.1 h
  obtain ⟨⟨v, p, f⟩, hx, rfl⟩ := List.mem_map.1 hv
  obtain ⟨z, hz, hx⟩ := List.mem_flatMap.1 hx
  exact (zoneFrames_mem (whole_zonesAt hl hd hz) hx).2.2.1

theorem aligned_map (hl : ∀ e ∈ elems, e.Layable P) (hd : PAGE_SIZE ∣ a) {act : PageMappingAction}
    (h : act ∈ (installed P a elems).map fun x => PageMappingAction.map x.2.1 x.1 x.2.2) : act.Aligned := by
  obtain ⟨⟨v, p, f⟩, hx, rfl⟩ := List.mem_map.1 h
  obtain ⟨z, hz, hx⟩ := List.mem_flatMap.1 hx
  obtain ⟨hsize, hp, hv, -⟩ := zoneFrames_mem (whole_zonesAt hl hd hz) hx
  exact ⟨hsize, hp, hv⟩

theorem data_eq_mapped (l : VirtLayout) :
    installed P a l.data = installed P a l.cleanSlice ++ installed P (a + total l.cleanSlice) l.dirtySlice := by
  rw [← installed_append, clean_append_dirty]

/-- `new` maps what the layout asks for. -/
theorem maps_of_unmoved (hP : P.IsPhys) (hV : V.IsVirt) (h : Counted P l) (hd : PAGE_SIZE ∣ virtZone.addr)
    (hu : Unmoved P l virtZone.addr) {t : Tables} (ht : Holds t (installed P virtZone.addr l.mapped)) :
    ∃ zones acts, l.mappingIter P V.toAddrApi virtZone = some zones ∧
      PageMappingIterator.Yields P V.toAddrApi zones acts ∧ (∀ act ∈ acts, act.Aligned) ∧
        Holds (t.perform acts) (installed P virtZone.addr l.data) := by
  have hiter := mappingIter_eq hV h hd hu
  have hclean : ∀ e ∈ l.cleanSlice, e.Layable P := fun e he => h.data e (List.mem_of_mem_take he)
  have hdirty : ∀ e ∈ l.dirtySlice, e.Layable P := fun e he => h.data e (List.mem_of_mem_drop he)
  have hque : ∀ e ∈ l.deallocQue.reverse, e.Layable P := fun e he => h.que e (List.mem_reverse.1 he)
  have hmid := hd.add (dvd_total hclean)
  generalize hmideq : virtZone.addr + total l.cleanSlice = mid at hiter hmid
  have hsque : Straight P mid l.deallocQue.reverse := hmideq ▸ (straight_append.1 hu.mapped).2
  have hsdirty : Straight P mid l.dirtySlice := by
    have hdata := hu.data
    rw [← clean_append_dirty, straight_append, hmideq] at hdata
    exact hdata.2
  have hyields := yields_zones ((zonesAt P (fun _ => .NONE) mid l.deallocQue.reverse).reverse ++
      zonesAt P VirtLayoutElement.flags mid l.dirtySlice) hP hV
    (fun z hz => (List.mem_append.1 hz).elim (fun hz => whole_zonesAt hque hmid (List.mem_reverse.1 hz))
      fun hz => whole_zonesAt hdirty hmid hz)
    (fun z hz => (List.mem_append.1 hz).elim (fun hz => fit_of_straight hsque (List.mem_reverse.1 hz))
      fun hz => fit_of_straight hsdirty hz)
  rw [List.flatMap_append, List.map_append, map_entryAction_unmap fun z hz => flags_zonesAt (List.mem_reverse.1 hz),
    ← installed, map_entryAction_map] at hyields
  refine ⟨_, _, hiter, hyields, fun act hact => ?_, ?_⟩
  · rcases List.mem_append.1 hact with hact | hact
    · obtain ⟨v, hv, rfl⟩ := List.mem_map.1 hact
      exact aligned_unmap hque hmid (List.mem_map_of_mem (mem_fst_installed_reverse.1 hv))
    · exact aligned_map hdirty hmid hact
  · have hmapped := installed_unique h.mapped hd
    have hdata := installed_unique h.data hd
    rw [VirtLayout.mapped, installed_append, hmideq] at ht hmapped
    rw [data_eq_mapped, hmideq] at hdata ⊢
    rw [Tables.perform_append, Tables.perform_unmap, Tables.perform_map]
    exact (ht.clear hmapped fun v => mem_fst_installed_reverse).set hdata

/-- `new_unmapper` goes through what is mapped. -/
theorem unmaps_of_unmoved (hP : P.IsPhys) (hV : V.IsVirt) (h : Counted P l) (hd : PAGE_SIZE ∣ virtZone.addr)
    (hu : Unmoved P l virtZone.addr) : ∃ zones acts, l.unmappingIter P V.toAddrApi virtZone = some zones ∧
      PageMappingIterator.Yields P V.toAddrApi zones acts ∧ (∀ act ∈ acts, act.Aligned) ∧
        acts = ((installed P virtZone.addr l.mapped).map Prod.fst).map .unmap := by
  have hyields := yields_zones (zonesAt P (fun _ => .NONE) virtZone.addr l.mapped) hP hV
    (fun z hz => whole_zonesAt h.mapped hd hz) fun z hz => fit_of_straight hu.mapped hz
  rw [map_entryAction_unmap fun z hz => flags_zonesAt hz, fst_frames] at hyields
  exact ⟨_, _, unmappingIter_eq hV h hd hu, hyields, fun act hact => aligned_unmap h.mapped hd hact, rfl⟩

/-- **If no address is moved** the iterators are correct. -/
theorem iterCorrect_of_unmoved (hP : P.IsPhys) (hV : V.IsVirt) (h : Counted P l) (hd : PAGE_SIZE ∣ virtZone.addr)
    (hu : Unmoved P l virtZone.addr) : IterCorrect P V l virtZone := by
  have hclean : ∀ e ∈ l.cleanSlice, e.Layable P := fun e he => h.data e (List.mem_of_mem_take he)
  refine ⟨fun t ht => maps_of_unmoved hP hV h hd hu ht, unmaps_of_unmoved hP hV h hd hu, ?_, ?_, ?_⟩
  · intro xs e ys he
    have hl := h.mapped
    have hs := hu.mapped
    rw [he] at hl hs
    obtain ⟨hxs, hc, -⟩ := straight_append.1 hs
    obtain ⟨b, hb, hbeq⟩ := pmits_eq (fun _ => .NONE) [] hV (fun e' he' => hl e' (by simp [he'])) hd hxs
      (Or.inr (accepted_of_canonical hc))
    exact ⟨_, by rw [hb, hbeq hc]⟩
  · intro xs e ys he
    have hne : l.deallocQue ≠ [] := by simp [he]
    have hl := h.que
    have hs := (straight_append.1 hu.mapped).2
    have hrev : l.deallocQue.reverse = ys.reverse ++ (xs ++ [e]).reverse := by simp [he]
    rw [hrev, straight_append, total_reverse] at hs
    have hdown := pmitsDown_eq (xs ++ [e]) [] hV (fun e' he' => hl e' (by
      rw [he]
      simp only [List.mem_append, List.mem_cons] at he' ⊢
      tauto)) ((hd.add (dvd_total hclean)).add (dvd_total fun e' he' => hl e' (by simp [he, he']))) hs.2
    obtain ⟨b, hadd, hb⟩ := add_of_accepted hV hu.mappedEnd
    have htop : virtZone.addr + total l.mapped =
        virtZone.addr + total l.cleanSlice + total ys + total (xs ++ [e]) := by
      rw [VirtLayout.mapped, total_append, total_reverse, he]
      simp only [total_append, total_cons, total_nil]
      omega
    obtain rfl := hb (hu.top hne)
    rw [← htop] at hdown
    exact ⟨_, _, (add_cleanSize h hV _).trans hadd, hdown⟩
  · intro xs e ys he
    have hdirty : ∀ e ∈ l.dirtySlice, e.Layable P := fun e he => h.data e (List.mem_of_mem_drop he)
    have hs := hu.data
    rw [← clean_append_dirty, straight_append, he, straight_append] at hs
    obtain ⟨-, hxs, hc, -⟩ := hs
    obtain ⟨top, mid, hadd, hdown, hmid⟩ := down_eq hV h hd hu
    obtain rfl := hmid (by simp [he])
    obtain ⟨b, hb, hbeq⟩ := pmits_eq VirtLayoutElement.flags _ hV (fun e' he' => hdirty e' (by simp [he, he']))
      (hd.add (dvd_total hclean)) hxs (Or.inr (accepted_of_canonical hc))
    exact ⟨top, _, _, _, hadd, hdown, by rw [hb, hbeq hc]⟩

/-- Below `2 ^ 47` no address is moved. -/
theorem straight_of_lt (hbelow : ∀ e ∈ elems, ∀ r, e.asPhysZone P = some (some r) → r.addr + e.size < 2 ^ 52)
    (h : a + total elems < 2 ^ 47) : Straight P a elems := by
  induction elems generalizing a with
  | nil => trivial
  | cons e elems ih =>
    rw [total_cons] at h
    refine ⟨Or.inl (by omega), fun r hr => ⟨hbelow e List.mem_cons_self r hr, Or.inl (by omega)⟩, ?_⟩
    exact ih (fun e' he' => hbelow e' (List.mem_cons_of_mem _ he')) (by omega)

theorem unmoved_of_lt (hbelow : ∀ e ∈ l.mapped ++ l.data, ∀ r, e.asPhysZone P = some (some r) →
    r.addr + e.size < 2 ^ 52) (hmapped : a + total l.mapped < 2 ^ 47) (hdata : a + total l.data < 2 ^ 47) :
    Unmoved P l a where
  mapped := straight_of_lt (fun e he => hbelow e (List.mem_append_left _ he)) hmapped
  mappedEnd := accepted_of_canonical (Or.inl hmapped)
  data := straight_of_lt (fun e he => hbelow e (List.mem_append_right _ he)) hdata
  dataEnd := accepted_of_canonical (Or.inl hdata)
  top := fun _ => Or.inl hmapped

end VirtLayout
end AuroraOs
