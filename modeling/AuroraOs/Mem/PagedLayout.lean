import AuroraOs.Mem.HalfRun
import AuroraOs.Mem.MapInternal
import AuroraOs.Mem.PageMappingRun

/-!
# Layouts on page tables

The pages of a layout are the frames that it maps, from an address on.  When the actions of an iterator are
carried out on tables that show what is mapped of a layout, the tables show what the layout is afterwards;
and when those of the unmapper are, the pages of the layout are gone.

The tables show the pages of other layouts too, which lie outside of the range.
-/

namespace AuroraOs

open PageEntry

/-- A range in one half of the address space that does not come to the entry of the kernel. -/
def OutsideKernel (a n : ℕ) : Prop := WithinHalf a n ∧ a + n ≤ KERNEL_VMA

instance (a n : ℕ) : Decidable (OutsideKernel a n) := inferInstanceAs (Decidable (_ ∧ _))

theorem OutsideKernel.part {a b n k : ℕ} (h : OutsideKernel a n) (hlo : a ≤ b) (hhi : b + k ≤ a + n) :
    OutsideKernel b k := by
  obtain ⟨hhalf, hend⟩ := h
  refine ⟨?_, hhi.trans hend⟩
  unfold WithinHalf at hhalf ⊢
  omega

/-- `VirtRange::new` rounds the size up, and stays outside. -/
theorem OutsideKernel.new {a n : ℕ} (h : OutsideKernel a n) (hd : PAGE_SIZE ∣ a) :
    (AddrRange.new a n).addr = a ∧ OutsideKernel (AddrRange.new a n).addr (AddrRange.new a n).size := by
  obtain ⟨haddr, hhalf⟩ := h.1.new hd
  refine ⟨haddr, hhalf, ?_⟩
  have hend := h.2
  have hvma : KERNEL_VMA + PAGE_SIZE ≤ usizeMod := by decide
  have hup : alignUp n PAGE_SIZE ≤ KERNEL_VMA - a :=
    alignUp_le (by omega) (by omega) (Nat.dvd_sub (by decide) hd)
  rw [haddr]
  simp only [AddrRange.new]
  omega

/-! ### Elements with their flags -/

namespace VirtLayoutElement

/-- An element that a constructor makes, with memory below `2 ^ 52`. -/
structure Backed (P : AddrApi) (e : VirtLayoutElement) : Prop where
  layable : e.Layable P
  flags : e.flags = .fromMappingFlags e.mappingFlags
  below : ∀ r, e.asPhysZone P = some (some r) → r.addr + e.size < 2 ^ 52

end VirtLayoutElement

theorem isFlags_fromMappingFlags (flags : PageMappingFlags) : IsFlags (.fromMappingFlags flags) := by
  have hall : ∀ flags : BitVec 5, IsFlags (.fromMappingFlags flags) := by decide
  exact hall flags

namespace VirtLayout

section Pages

variable {P : AddrApi} {a n : ℕ} {x : PageEntry} {e : VirtLayoutElement} {elems : List VirtLayoutElement}

theorem straight_of_outside (hb : ∀ e ∈ elems, e.Backed P) (h : OutsideKernel a (total elems)) :
    Straight P a elems := by
  induction elems generalizing a with
  | nil => trivial
  | cons e elems ih =>
    rw [total_cons] at h
    have hfirst : OutsideKernel a e.size := h.part le_rfl (by omega)
    obtain ⟨hstart, -, hhalf⟩ := hfirst.1.canonical
    refine ⟨hstart, fun r hr => ⟨(hb e List.mem_cons_self).below r hr, hhalf⟩, ?_⟩
    exact ih (fun e' he' => hb e' (List.mem_cons_of_mem _ he')) (h.part (by omega) (by omega))

/-- The pages of elements from an address on. -/
def pagesAt (P : AddrApi) (a : ℕ) (elems : List VirtLayoutElement) : Set PageEntry := {x | x ∈ installed P a elems}

@[simp] theorem pagesAt_nil : pagesAt P a [] = ∅ := by
  ext x
  simp [pagesAt, installed, zonesAt]

theorem pagesAt_append {elems' : List VirtLayoutElement} :
    pagesAt P a (elems ++ elems') = pagesAt P a elems ∪ pagesAt P (a + total elems) elems' := by
  ext x
  simp only [pagesAt, installed_append, List.mem_append, Set.mem_union, Set.mem_ofPred_eq]

/-- A page belongs to an element with memory, and has the memory at its distance from the start. -/
theorem mem_pagesAt (hb : ∀ e ∈ elems, e.Backed P) (hd : PAGE_SIZE ∣ a) (h : x ∈ pagesAt P a elems) :
    ∃ xs e ys r, elems = xs ++ e :: ys ∧ e.asPhysZone P = some (some r) ∧ x.2.1.size = x.1.size ∧
      x.1.size.bytes ∣ x.2.1.addr ∧ x.1.size.bytes ∣ x.1.addr ∧ x.2.2 = e.flags ∧
      x.2.1.addr + (a + total xs) = x.1.addr + r.addr ∧ a + total xs ≤ x.1.addr ∧
      x.1.addr + x.1.size.bytes ≤ a + total xs + e.size := by
  obtain ⟨z, hz, hx⟩ := List.mem_flatMap.1 h
  have hw : Whole z := whole_zonesAt (fun e he => (hb e he).layable) hd hz
  obtain ⟨xs, e, ys, rfl, hpiece⟩ := mem_zonesAt.1 hz
  obtain ⟨r, hr, rfl⟩ := mem_pieceAt.1 hpiece
  obtain ⟨v, p, f⟩ := x
  obtain ⟨hsize, hp, hv, hf, hlo, hhi⟩ := zoneFrames_mem hw hx
  obtain ⟨c, hc, heq⟩ := List.mem_map.1 hx
  have hoffset := Pages.cut_offset PageSize.units hw.dvd_phys hw.dvd_virt hw.dvd_size hc
  obtain ⟨rfl, rfl, -⟩ := by simpa using heq
  exact ⟨xs, e, ys, r, rfl, hr, hsize, hp, hv, hf, hoffset, hlo, hhi⟩

/-- An address in an element with memory is in a page, which has the memory at its distance from the start. -/
theorem pagesAt_covers {xs ys : List VirtLayoutElement} {r : AddrRange} {b : ℕ} (hb : ∀ e' ∈ xs ++ e :: ys, e'.Backed P)
    (hd : PAGE_SIZE ∣ a) (hr : e.asPhysZone P = some (some r)) (hlo : a + total xs ≤ b)
    (hhi : b < a + total xs + e.size) :
    ∃ x ∈ pagesAt P a (xs ++ e :: ys), x.1.addr ≤ b ∧ b < x.1.addr + x.1.size.bytes ∧
      x.2.1.addr + (a + total xs) = x.1.addr + r.addr ∧ x.2.2 = e.flags := by
  have hz : (⟨⟨r.addr, e.size⟩, ⟨a + total xs, e.size⟩, e.flags⟩ : Pmit) ∈
      zonesAt P VirtLayoutElement.flags a (xs ++ e :: ys) :=
    mem_zonesAt.2 ⟨xs, e, ys, rfl, mem_pieceAt.2 ⟨r, hr, rfl⟩⟩
  have hw : Whole _ := whole_zonesAt (fun e he => (hb e he).layable) hd hz
  obtain ⟨c, hc, hin⟩ := Pages.cut_covers PageSize.units hw.dvd_phys hw.dvd_virt hw.dvd_size hlo hhi
  have hoffset := Pages.cut_offset PageSize.units hw.dvd_phys hw.dvd_virt hw.dvd_size hc
  exact ⟨_, List.mem_flatMap.2 ⟨_, hz, List.mem_map_of_mem hc⟩, hin.1, hin.2, hoffset, rfl⟩

/-- The pages lie in the range of the elements. -/
theorem pagesAt_within (hb : ∀ e ∈ elems, e.Backed P) (hd : PAGE_SIZE ∣ a) (h : x ∈ pagesAt P a elems) :
    a ≤ x.1.addr ∧ x.1.addr + x.1.size.bytes ≤ a + total elems := by
  obtain ⟨xs, e, ys, r, rfl, -, -, -, -, -, -, hlo, hhi⟩ := mem_pagesAt hb hd h
  simp only [total_append, total_cons]
  omega

theorem isPage_pagesAt (hb : ∀ e ∈ elems, e.Backed P) (hd : PAGE_SIZE ∣ a) (hout : OutsideKernel a (total elems))
    (h : x ∈ pagesAt P a elems) : x.IsPage := by
  obtain ⟨hlo, hhi⟩ := pagesAt_within hb hd h
  obtain ⟨xs, e, ys, r, rfl, hr, -, hp, hv, hf, hoffset, hlo', hhi'⟩ := mem_pagesAt hb hd h
  have he := hb e (by simp)
  have hpos := PageSize.units.bytes_pos x.1.size (PageSize.mem_all _)
  refine ⟨⟨hv, ?_⟩, ⟨(PageSize.units.dvd _ (PageSize.mem_all _)).trans hp, ?_⟩, ?_⟩
  · obtain ⟨hhalf, hend⟩ := hout.part hlo hhi
    unfold WithinHalf at hhalf
    omega
  · have hbelow := he.below r hr
    omega
  · rw [hf, he.flags]
    exact isFlags_fromMappingFlags _

theorem pagesAt_of_total (hb : ∀ e ∈ elems, e.Backed P) (hd : PAGE_SIZE ∣ a) (hzero : total elems = 0) :
    pagesAt P a elems = ∅ := by
  refine Set.eq_empty_of_forall_notMem fun x hx => ?_
  have hpos := PageSize.units.bytes_pos x.1.size (PageSize.mem_all _)
  obtain ⟨hlo, hhi⟩ := pagesAt_within hb hd hx
  omega

/-- **The pages of elements lie beside each other.** -/
theorem spread_pagesAt (hb : ∀ e ∈ elems, e.Backed P) (hd : PAGE_SIZE ∣ a) (hout : OutsideKernel a (total elems)) :
    Spread (pagesAt P a elems) where
  page _ hx := isPage_pagesAt hb hd hout hx
  beside := by
    have hordered := installed_pairwise (fun e he => (hb e he).layable) hd
    have hpairs : (installed P a elems).Pairwise fun x y => x ≠ y → Beside x y :=
      hordered.imp fun hle _ => Or.inl hle
    have : Std.Symm fun x y : PageEntry => x ≠ y → Beside x y := ⟨fun x y h hne => (h hne.symm).symm⟩
    exact fun x hx y hy => hpairs.forall_of_forall (fun x _ hne => absurd rfl hne) hx hy

end Pages

/-! ### Layouts whose bookkeeping is right -/

/-- The size of what is mapped is counted, and the elements are those that constructors make. -/
structure Sound (P : AddrApi) (l : VirtLayout) : Prop where
  size : l.cleanSize = total l.mapped % usizeMod
  data : ∀ e ∈ l.data, e.Backed P
  que : ∀ e ∈ l.deallocQue, e.Backed P

section Sound

variable {σ : Type} {M : MemApi σ} {s s' : σ} {P : AddrApi} {l l' : VirtLayout} {ed : Edit} {es : List Edit}

theorem Sound.counted (h : Sound P l) : Counted P l :=
  ⟨h.size, fun e he => (h.data e he).layable, fun e he => (h.que e he).layable⟩

theorem Sound.mapped (h : Sound P l) : ∀ e ∈ l.mapped, e.Backed P := by
  intro e he
  rcases List.mem_append.1 he with he | he
  · exact h.data e (List.mem_of_mem_take he)
  · exact h.que e (List.mem_reverse.1 he)

theorem Sound.clean (h : Sound P l) : ∀ e ∈ l.cleanSlice, e.Backed P :=
  fun e he => h.data e (List.mem_of_mem_take he)

theorem Sound.dirty (h : Sound P l) : ∀ e ∈ l.dirtySlice, e.Backed P :=
  fun e he => h.data e (List.mem_of_mem_drop he)

theorem sound_ofVec {vec : List VirtLayoutElement} (hvec : ∀ e ∈ vec, e.Backed P) (atype : AllocType) :
    Sound P (ofVec vec atype) := ⟨rfl, hvec, fun _ he => absurd he List.not_mem_nil⟩

theorem Sound.edit (h : Sound P l) (hed : ∀ e, ed = .push e → e.Backed P) :
    Sound P (l.edit ed) ∧ (l.edit ed).mapped = l.mapped := by
  cases ed with
  | push e =>
    refine ⟨⟨by rw [edit, mapped_push]; exact h.size, fun e' he' => ?_, h.que⟩, mapped_push⟩
    rcases List.mem_append.1 he' with he' | he'
    · exact h.data e' he'
    · obtain rfl := List.mem_singleton.1 he'
      exact hed e' rfl
  | popDelete =>
    rcases List.eq_nil_or_concat l.data with hnil | ⟨init, a, hconcat⟩
    · rw [edit, popDelete_nil hnil]
      exact ⟨h, rfl⟩
    rw [List.concat_eq_append] at hconcat
    obtain ⟨hdata, hsize, -, -, hque⟩ := popDelete_concat hconcat
    refine ⟨⟨by rw [edit, mapped_popDelete, hsize]; exact h.size, fun e he => ?_, fun e he => ?_⟩, mapped_popDelete⟩
    · rw [edit, hdata] at he
      exact h.data e (by rw [hconcat]; exact List.mem_append_left _ he)
    · rw [edit, hque] at he
      rcases List.mem_append.1 he with he | he
      · exact h.que e he
      · refine h.data e ?_
        rw [hconcat]
        split_ifs at he
        · exact List.mem_append_right _ he
        · cases he

/-- What a closure does to a layout keeps what is mapped of it. -/
theorem Sound.edits (h : Sound P l) (hes : ∀ e ∈ pushed es, e.Backed P) :
    Sound P (l.edits es) ∧ (l.edits es).mapped = l.mapped := by
  induction es generalizing l with
  | nil => exact ⟨h, rfl⟩
  | cons ed es ih =>
    obtain ⟨hone, hmapped⟩ : Sound P (l.edit ed) ∧ (l.edit ed).mapped = l.mapped :=
      h.edit fun e he => hes e (by simp [pushed, he])
    obtain ⟨hall, hmapped'⟩ := ih hone fun e he => hes e (by
      cases ed with
      | push e' => exact List.mem_cons_of_mem _ he
      | popDelete => exact he)
    exact ⟨hall, hmapped'.trans hmapped⟩

theorem Sound.syncMem (h : Sound P l) (hs : l.syncMem M s = some (s', l')) :
    Sound P l' ∧ l'.mapped = l.data ∧ l'.data = l.data := by
  have hdata := (syncMem_same hs).data
  have hmapped := mapped_syncMem hs
  refine ⟨⟨?_, by rw [hdata]; exact h.data, ?_⟩, hmapped, hdata⟩
  · rw [hmapped]
    exact h.counted.cleanSize_syncMem hs
  · obtain ⟨_, -, hs⟩ := Option.bind_eq_some_iff.1 hs
    rw [← (Prod.mk.inj (Option.some.inj hs)).2]
    exact fun _ he => absurd he List.not_mem_nil

theorem Sound.markUnmapped (h : Sound P l) (hs : l.markUnmapped M s = some (s', l')) :
    Sound P l' ∧ l'.mapped = [] ∧ l'.data = l.data := by
  have hdata := (markUnmapped_same hs).data
  obtain ⟨hmapped, hsize, hque⟩ := mapped_markUnmapped hs
  refine ⟨⟨by rw [hmapped, hsize]; rfl, by rw [hdata]; exact h.data, ?_⟩, hmapped, hdata⟩
  rw [hque]
  exact fun _ he => absurd he List.not_mem_nil

/-- A layout that nothing mapped was removed from goes back to what is mapped of it. -/
theorem Sound.revert (h : Sound P l) (hque : l.deallocQue = []) (hs : l.revert M s = some (s', l')) :
    Sound P l' ∧ l'.mapped = l.mapped := by
  obtain ⟨hdata, hque', hdirty, hclean, -⟩ := revert_spec hs
  rw [hque, List.reverse_nil, List.append_nil] at hdata
  have hmapped : l'.mapped = l.mapped := by
    rw [VirtLayout.mapped, VirtLayout.mapped, hque, hque', cleanSlice, hdata, hdirty]
    simp only [cleanSlice, List.take_take, min_self]
  refine ⟨⟨by rw [hmapped, hclean]; exact h.size, ?_, ?_⟩, hmapped⟩
  · rw [hdata]
    exact h.clean
  · rw [hque']
    exact fun _ he => absurd he List.not_mem_nil

end Sound

/-- The ranges of what is mapped and of what is to be mapped lie outside of the kernel. -/
theorem unmoved_of_outside {P : AddrApi} {l : VirtLayout} {a n : ℕ} (h : Sound P l) (hout : OutsideKernel a n)
    (hmapped : total l.mapped ≤ n) (hdata : total l.data ≤ n) : Unmoved P l a := by
  have hmappedOut : OutsideKernel a (total l.mapped) := hout.part le_rfl (by omega)
  have hdataOut : OutsideKernel a (total l.data) := hout.part le_rfl (by omega)
  have htop := hmappedOut.1.canonical.2.1
  exact ⟨straight_of_outside h.mapped hmappedOut, accepted_of_canonical htop, straight_of_outside h.data hdataOut,
    accepted_of_canonical hdataOut.1.canonical.2.1, fun _ => htop⟩

/-- **The actions of `new`**: the pages that were removed are unmapped, and those of the elements that are not
mapped yet are mapped. -/
theorem mappingIter_acts {P : AddrApi} {V : VirtAddrApi} {l : VirtLayout} {virtZone : VirtRange} {zones : List Pmit}
    (hP : P.IsPhys) (hV : V.IsVirt) (h : Counted P l) (hd : PAGE_SIZE ∣ virtZone.addr)
    (hu : Unmoved P l virtZone.addr) (hiter : l.mappingIter P V.toAddrApi virtZone = some zones) :
    ∃ vframes : List Frame, vframes.Perm
        ((installed P (virtZone.addr + total l.cleanSlice) l.deallocQue.reverse).map Prod.fst) ∧
      PageMappingIterator.Yields P V.toAddrApi zones (vframes.map .unmap ++
        (installed P (virtZone.addr + total l.cleanSlice) l.dirtySlice).map fun x => .map x.2.1 x.1 x.2.2) := by
  rw [mappingIter_eq hV h hd hu] at hiter
  obtain rfl := Option.some.inj hiter
  have hclean : ∀ e ∈ l.cleanSlice, e.Layable P := fun e he => h.data e (List.mem_of_mem_take he)
  have hdirty : ∀ e ∈ l.dirtySlice, e.Layable P := fun e he => h.data e (List.mem_of_mem_drop he)
  have hque : ∀ e ∈ l.deallocQue.reverse, e.Layable P := fun e he => h.que e (List.mem_reverse.1 he)
  have hmid := hd.add (dvd_total hclean)
  have hsque := (straight_append.1 hu.mapped).2
  have hsdirty := hu.data
  rw [← clean_append_dirty, straight_append] at hsdirty
  replace hsdirty := hsdirty.2
  generalize virtZone.addr + total l.cleanSlice = mid at hmid hsque hsdirty ⊢
  have hyields := yields_zones ((zonesAt P (fun _ => .NONE) mid l.deallocQue.reverse).reverse ++
      zonesAt P VirtLayoutElement.flags mid l.dirtySlice) hP hV
    (fun z hz => (List.mem_append.1 hz).elim (fun hz => whole_zonesAt hque hmid (List.mem_reverse.1 hz))
      fun hz => whole_zonesAt hdirty hmid hz)
    (fun z hz => (List.mem_append.1 hz).elim (fun hz => fit_of_straight hsque (List.mem_reverse.1 hz))
      fun hz => fit_of_straight hsdirty hz)
  rw [List.flatMap_append, List.map_append, map_entryAction_unmap fun z hz => flags_zonesAt (List.mem_reverse.1 hz),
    ← installed, map_entryAction_map] at hyields
  refine ⟨_, ?_, hyields⟩
  rw [← fst_frames fun _ => .NONE]
  exact ((List.reverse_perm _).flatMap_right _).map _

/-- **The actions of the unmapper** go through what is mapped, wherever the rest of the layout would lie. -/
theorem unmappingIter_acts {P : AddrApi} {V : VirtAddrApi} {l : VirtLayout} {virtZone : VirtRange} {zones : List Pmit}
    (hP : P.IsPhys) (hV : V.IsVirt) (h : Counted P l) (hd : PAGE_SIZE ∣ virtZone.addr)
    (hs : Straight P virtZone.addr l.mapped) (hend : Accepted (virtZone.addr + total l.mapped))
    (hiter : l.unmappingIter P V.toAddrApi virtZone = some zones) :
    PageMappingIterator.Yields P V.toAddrApi zones (((installed P virtZone.addr l.mapped).map Prod.fst).map .unmap) := by
  obtain ⟨b, hb, -⟩ := pmits_eq (fun _ => .NONE) [] hV h.mapped hd hs (Or.inr hend)
  rw [VirtLayout.mapped, pmits_append, List.nil_append] at hb
  obtain ⟨⟨c, clean⟩, hclean, hque⟩ := Option.bind_eq_some_iff.1 hb
  simp only [unmappingIter, hclean, hque, Option.bind_eq_bind, Option.bind_some] at hiter
  obtain rfl := Option.some.inj hiter
  have hyields := yields_zones (zonesAt P (fun _ => .NONE) virtZone.addr l.mapped) hP hV
    (fun z hz => whole_zonesAt h.mapped hd hz) fun z hz => fit_of_straight hs hz
  rwa [map_entryAction_unmap fun z hz => flags_zonesAt hz, fst_frames] at hyields

/-! ### On page tables -/

/-- The pages lie outside of a range. -/
def ClearOf (pages : Set PageEntry) (a n : ℕ) : Prop :=
  ∀ x ∈ pages, x.1.addr + x.1.size.bytes ≤ a ∨ a + n ≤ x.1.addr

section Tables

variable {ρ : Type} {F : FrameAllocator ρ} {live : ρ → Set ℕ} {kzone cr3 : ℕ} {P : AddrApi} {V : VirtAddrApi}
  {s s' : PagedMem ρ} {l : VirtLayout} {a n : ℕ} {elems : List VirtLayoutElement} {others : Set PageEntry}
  {virtZone : VirtRange} {zones : List Pmit}

/-- The pages of elements beside other pages. -/
theorem spread_beside (hothers : Spread others) (hclear : ClearOf others a n) (hb : ∀ e ∈ elems, e.Backed P)
    (hd : PAGE_SIZE ∣ a) (hout : OutsideKernel a n) (hn : total elems ≤ n) :
    Spread (others ∪ pagesAt P a elems) := by
  refine hothers.union (spread_pagesAt hb hd (hout.part le_rfl (by omega))) fun x hx y hy => ?_
  obtain ⟨hlo, hhi⟩ := pagesAt_within hb hd hy
  have hclear := hclear x hx
  unfold Beside
  omega

/-- No frame of the elements is one of the other pages. -/
theorem fst_ne_of_clear (hclear : ClearOf others a n) (hb : ∀ e ∈ elems, e.Backed P) (hd : PAGE_SIZE ∣ a)
    (hn : total elems ≤ n) {x y : PageEntry} (hx : x ∈ others) (hy : y ∈ pagesAt P a elems) : x.1 ≠ y.1 := by
  intro heq
  obtain ⟨hlo, hhi⟩ := pagesAt_within hb hd hy
  have hclear := hclear x hx
  have hpos := PageSize.units.bytes_pos x.1.size (PageSize.mem_all _)
  rw [heq] at hclear hpos
  omega

/-- **Pages that are unmapped** beside others. -/
theorem unmap_beside (hF : F.Fresh live) (hclear : ClearOf others a n) (hothers : Spread others)
    (hb : ∀ e ∈ elems, e.Backed P) (hd : PAGE_SIZE ∣ a) (hout : OutsideKernel a n) (hn : total elems ≤ n)
    {kept gone : List VirtLayoutElement} (hsplit : elems = kept ++ gone) {vframes : List Frame}
    (hperm : vframes.Perm ((installed P (a + total kept) gone).map Prod.fst))
    (h : ShowsPages live kzone cr3 s.mem (others ∪ pagesAt P a elems))
    (he : s.performAll F cr3 (vframes.map .unmap) = some s') (htidy : s'.tidy = true) :
    ShowsPages live kzone cr3 s'.mem (others ∪ pagesAt P a kept) ∧ Within live cr3 s.mem s'.mem := by
  subst hsplit
  have hspread := spread_beside hothers hclear hb hd hout hn
  have hunique := installed_unique (fun e he => (hb e he).layable) hd
  rw [installed_append, List.map_append, List.nodup_append'] at hunique
  obtain ⟨-, hnodup, hdisjoint⟩ := hunique
  obtain ⟨hshows, hwithin⟩ := h.performAll_unmap hF hspread (hperm.nodup_iff.2 hnodup) (fun v hv => by
    obtain ⟨x, hx, rfl⟩ := List.mem_map.1 (hperm.mem_iff.1 hv)
    exact ⟨x, Or.inr (by rw [pagesAt_append]; exact Or.inr hx), rfl⟩) he htidy
  refine ⟨?_, hwithin⟩
  convert hshows using 1
  ext x
  rw [Set.mem_sep_iff, hperm.mem_iff, pagesAt_append, Set.mem_union, Set.mem_union, Set.mem_union]
  constructor
  · rintro (hx | hx)
    · refine ⟨Or.inl hx, fun hmem => ?_⟩
      obtain ⟨y, hy, heq⟩ := List.mem_map.1 hmem
      exact fst_ne_of_clear hclear hb hd hn hx (by rw [pagesAt_append]; exact Or.inr hy) heq.symm
    · exact ⟨Or.inr (Or.inl hx), fun hmem => hdisjoint (List.mem_map_of_mem hx) hmem⟩
  · rintro ⟨hx | hx | hx, hnot⟩
    · exact Or.inl hx
    · exact Or.inr hx
    · exact absurd (List.mem_map_of_mem hx) hnot

/-- What is done to the memory takes tables under `cr3` that show some pages to tables that show other ones, and
leaves everything else as it is, as long as every table that is given back is empty. -/
structure Turns (live : ρ → Set ℕ) (kzone cr3 : ℕ) (s s' : PagedMem ρ) (pages pages' : Set PageEntry) : Prop where
  tidy : s'.tidy = true → s.tidy = true
  shows : s'.tidy = true → ShowsPages live kzone cr3 s.mem pages →
    ShowsPages live kzone cr3 s'.mem pages' ∧ Within live cr3 s.mem s'.mem

variable {s₁ : PagedMem ρ} {pages pages₁ pages' : Set PageEntry}

theorem Turns.refl : Turns live kzone cr3 s s pages pages :=
  ⟨id, fun _ h => ⟨h, .refl h.separated h.inUse⟩⟩

theorem Turns.trans (h : Turns live kzone cr3 s s₁ pages pages₁) (h' : Turns live kzone cr3 s₁ s' pages₁ pages') :
    Turns live kzone cr3 s s' pages pages' where
  tidy htidy := h.tidy (h'.tidy htidy)
  shows htidy hshows := by
    obtain ⟨hshows₁, hwithin⟩ := h.shows (h'.tidy htidy) hshows
    obtain ⟨hshows', hwithin'⟩ := h'.shows htidy hshows₁
    exact ⟨hshows', hwithin.trans hwithin'⟩

/-- **From what is mapped to what the layout is.** -/
theorem turns_mappingIter (hF : F.Fresh live) (hP : P.IsPhys) (hV : V.IsVirt) (h : Sound P l) (hothers : Spread others)
    (hclear : ClearOf others virtZone.addr n) (hd : PAGE_SIZE ∣ virtZone.addr) (hout : OutsideKernel virtZone.addr n)
    (hmapped : total l.mapped ≤ n) (hdata : total l.data ≤ n)
    (hiter : l.mappingIter P V.toAddrApi virtZone = some zones)
    (he : s.mapInternal F P V.toAddrApi cr3 zones = some s') :
    Turns live kzone cr3 s s' (others ∪ pagesAt P virtZone.addr l.mapped) (others ∪ pagesAt P virtZone.addr l.data) := by
  obtain ⟨vframes, hperm, hyields⟩ :=
    mappingIter_acts hP hV h.counted hd (unmoved_of_outside h hout hmapped hdata) hiter
  rw [PagedMem.mapInternal_of_yields hyields, PagedMem.performAll_append] at he
  obtain ⟨s₁, hs₁, he⟩ := Option.bind_eq_some_iff.1 he
  refine ⟨fun htidy => PagedMem.tidy_of_performAll hs₁ (PagedMem.tidy_of_performAll he htidy), fun htidy hshows => ?_⟩
  obtain ⟨hkept, hwithin⟩ := unmap_beside hF hclear hothers h.mapped hd hout hmapped rfl hperm hshows hs₁
    (PagedMem.tidy_of_performAll he htidy)
  -- then the elements that are not mapped yet are mapped behind those that are
  have hspread := spread_beside hothers hclear h.data hd hout hdata
  have hunique := installed_unique (fun e he => (h.data e he).layable) hd
  rw [data_eq_mapped, List.map_append, List.nodup_append'] at hunique
  obtain ⟨-, hnodup, hdisjoint⟩ := hunique
  have hsplit : pagesAt P virtZone.addr l.data = pagesAt P virtZone.addr l.cleanSlice ∪
      {x | x ∈ installed P (virtZone.addr + total l.cleanSlice) l.dirtySlice} := by
    rw [← pagesAt, ← pagesAt_append, clean_append_dirty]
  rw [hsplit, ← Set.union_assoc] at hspread ⊢
  obtain ⟨hall, hwithin'⟩ := hkept.performAll_map hF hspread (List.Nodup.of_map _ hnodup) (fun x hx hmem => by
    rcases hmem with hmem | hmem
    · exact fst_ne_of_clear hclear h.data hd hdata hmem (by rw [hsplit]; exact Or.inr hx) rfl
    · exact hdisjoint (List.mem_map_of_mem hmem) (List.mem_map_of_mem hx)) he
  exact ⟨hall, hwithin.trans hwithin'⟩

/-- **The unmapper takes the pages of the layout away.** -/
theorem turns_unmappingIter (hF : F.Fresh live) (hP : P.IsPhys) (hV : V.IsVirt) (h : Sound P l)
    (hothers : Spread others) (hclear : ClearOf others virtZone.addr n) (hd : PAGE_SIZE ∣ virtZone.addr)
    (hout : OutsideKernel virtZone.addr n) (hmapped : total l.mapped ≤ n)
    (hiter : l.unmappingIter P V.toAddrApi virtZone = some zones)
    (he : s.mapInternal F P V.toAddrApi cr3 zones = some s') :
    Turns live kzone cr3 s s' (others ∪ pagesAt P virtZone.addr l.mapped) others := by
  have hrange : OutsideKernel virtZone.addr (total l.mapped) := hout.part le_rfl (by omega)
  have hyields := unmappingIter_acts hP hV h.counted hd (straight_of_outside h.mapped hrange)
    (accepted_of_canonical hrange.1.canonical.2.1) hiter
  rw [PagedMem.mapInternal_of_yields hyields] at he
  refine ⟨fun htidy => PagedMem.tidy_of_performAll he htidy, fun htidy hshows => ?_⟩
  have hsplit : l.mapped = [] ++ l.mapped := rfl
  obtain ⟨hnone, hwithin⟩ :=
    unmap_beside hF hclear hothers h.mapped hd hout hmapped hsplit (by simp) hshows he htidy
  rw [pagesAt_nil, Set.union_empty] at hnone
  exact ⟨hnone, hwithin⟩

end Tables
end VirtLayout
end AuroraOs
