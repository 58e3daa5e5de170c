import AuroraOs.Mem.PageMappingIter
import AuroraOs.Mem.PageTree

/-!
# `map_internal`

The loop of `kernel/src/mem/virt_alloc.rs` that carries the actions of a `PageMappingIterator` out on the page
tables.  The indices of a frame are read from its address; a large frame ends one or two levels higher.

Beside the tables the state says whether every table that was given back to the frame allocator was empty.
As long as it was, the tables show the pages that were mapped and not unmapped, and the entry of the kernel.
-/

namespace AuroraOs

open PageTableFlags Radix.Node

/-! ### The loop -/

/-- `nums`. -/
def tableIndices (addr : ℕ) : List (Fin 512) :=
  [Fin.ofNat 512 (getBits addr 39 48), Fin.ofNat 512 (getBits addr 30 39),
    Fin.ofNat 512 (getBits addr 21 30), Fin.ofNat 512 (getBits addr 12 21)]

/-- `depth`. -/
def PageSize.depth : PageSize → ℕ
  | .k4 => 4
  | .m2 => 3
  | .g1 => 2

/-- `hf`. -/
def PageSize.hf : PageSize → PageTableFlags
  | .k4 => NONE
  | .m2 => HUGE
  | .g1 => HUGE

/-- The indices that lead to a frame. -/
def Frame.path (vframe : Frame) : List (Fin 512) := (tableIndices vframe.addr).take vframe.size.depth

/-- Page tables, and whether every table that was given back had no entries. -/
structure PagedMem (ρ : Type) where
  mem : PageMem ρ
  tidy : Bool

namespace PagedMem

variable {ρ : Type} (F : FrameAllocator ρ) (P V : AddrApi) (cr3 : ℕ) (s : PagedMem ρ)

/-- One turn of the loop. -/
def perform : PageMappingAction → Option (PagedMem ρ)
  | .map pframe vframe flags =>
      let flags := flags ||| PRESENT ||| vframe.size.hf
      (s.mem.mapFrom F (.new pframe.addr flags) cr3 vframe.path).map fun mem => ⟨mem, s.tidy⟩
  | .unmap vframe =>
      (s.mem.unmapFrom F cr3 vframe.path).map fun r =>
        ⟨r.1, s.tidy && decide ((PageTree.read s.mem.table 3 cr3).Tidy vframe.path)⟩

/-- The turns of the loop, one after the other. -/
def performAll : PagedMem ρ → List PageMappingAction → Option (PagedMem ρ)
  | s, [] => some s
  | s, act :: acts => (s.perform F cr3 act).bind fun s => performAll s acts

end PagedMem

/-- The bytes of zones. -/
def zoneBytes (zones : List Pmit) : ℕ := (zones.map fun z => z.physZone.size).sum

theorem AddrRange.take_lt {A : AddrApi} {self rest : AddrRange} {k : PageSize} {frame : Frame}
    (h : self.take A k = some (some (rest, frame))) : rest.size < self.size := by
  unfold take at h
  rw [AddrRange.getTakeSize_eq] at h
  cases hsize : sizeUpTo (min self.size (alignOf self.addr)) with
  | none => simp [hsize] at h
  | some takeSize =>
    simp only [hsize] at h
    split_ifs at h with hgt
    · simp at h
    · obtain ⟨b, -, h⟩ := Option.bind_eq_some_iff.1 h
      obtain ⟨rfl, -⟩ := by simpa using h
      have hle : takeSize.bytes ≤ min self.size (alignOf self.addr) := by
        have := List.find?_some hsize
        simpa using this
      have hk : k.bytes ≤ takeSize.bytes := not_lt.1 hgt
      have hpos := PageSize.units.bytes_pos k (PageSize.mem_all k)
      simp only
      omega

/-- A turn takes a frame from the zones. -/
theorem next_lt {P V : AddrApi} {zones zones' : List Pmit} {act : PageMappingAction}
    (h : PageMappingIterator.next P V zones = some (some (act, zones'))) : zoneBytes zones' < zoneBytes zones := by
  induction zones with
  | nil => cases h
  | cons z zones ih =>
    rw [PageMappingIterator.next] at h
    cases hsize : z.getTakeSize with
    | none =>
      simp only [hsize] at h
      have hlt := ih h
      simp only [zoneBytes, List.map_cons, List.sum_cons] at hlt ⊢
      omega
    | some k =>
      simp only [hsize, Option.bind_eq_bind] at h
      obtain ⟨taken, htaken, h⟩ := Option.bind_eq_some_iff.1 h
      obtain ⟨⟨rest, pframe, vframe⟩, rfl, h⟩ := Option.bind_eq_some_iff.1 h
      obtain ⟨-, rfl⟩ := by simpa using h
      rw [Pmit.take, hsize] at htaken
      simp only [gt_iff_lt, lt_irrefl, if_false, Option.bind_eq_bind] at htaken
      obtain ⟨phys, hphys, htaken⟩ := Option.bind_eq_some_iff.1 htaken
      obtain ⟨⟨prest, pf⟩, rfl, hvirt⟩ := Option.bind_eq_some_iff.1 htaken
      obtain ⟨virt, -, hvirt⟩ := Option.bind_eq_some_iff.1 hvirt
      obtain ⟨⟨vrest, vf⟩, rfl, hrest⟩ := Option.bind_eq_some_iff.1 hvirt
      obtain ⟨rfl, -, -⟩ := by simpa using hrest
      have hlt := AddrRange.take_lt hphys
      simp only [zoneBytes, List.map_cons, List.sum_cons]
      omega

namespace PagedMem

variable {ρ : Type} (F : FrameAllocator ρ) (P V : AddrApi) (cr3 : ℕ)

/-- `map_internal`. -/
def mapInternal (s : PagedMem ρ) (zones : List Pmit) : Option (PagedMem ρ) :=
  match _hnext : PageMappingIterator.next P V zones with
  | none => none
  | some none => some s
  | some (some (action, zones)) => (s.perform F cr3 action).bind fun s => mapInternal s zones
termination_by zoneBytes zones
decreasing_by exact next_lt _hnext

variable {F P V cr3} {s s' : PagedMem ρ} {zones : List Pmit} {acts acts' : List PageMappingAction}

/-- The loop carries out the actions of the iterator. -/
theorem mapInternal_of_yields (h : PageMappingIterator.Yields P V zones acts) :
    s.mapInternal F P V cr3 zones = s.performAll F cr3 acts := by
  induction h generalizing s with
  | done hdone =>
    rw [mapInternal]
    split
    · next h => simp [hdone] at h
    · rfl
    · next h => simp [hdone] at h
  | next hnext hrest ih =>
    rw [mapInternal, performAll]
    split
    · next h => simp [hnext] at h
    · next h => simp [hnext] at h
    · next action zones h =>
      obtain ⟨rfl, rfl⟩ := by simpa [hnext] using h
      simp only [ih]

theorem performAll_append : s.performAll F cr3 (acts ++ acts') =
    (s.performAll F cr3 acts).bind fun s => s.performAll F cr3 acts' := by
  induction acts generalizing s with
  | nil => rfl
  | cons act acts ih =>
    rw [List.cons_append, performAll, performAll, Option.bind_assoc]
    exact congrArg _ (funext fun s => ih)

/-- What was not tidy stays so. -/
theorem tidy_of_perform {act : PageMappingAction} (h : s.perform F cr3 act = some s') (htidy : s'.tidy = true) :
    s.tidy = true := by
  cases act with
  | map pframe vframe flags =>
    obtain ⟨mem, -, rfl⟩ := Option.map_eq_some_iff.1 h
    exact htidy
  | unmap vframe =>
    obtain ⟨r, -, rfl⟩ := Option.map_eq_some_iff.1 h
    exact (Bool.and_eq_true_iff.1 htidy).1

theorem tidy_of_performAll (h : s.performAll F cr3 acts = some s') (htidy : s'.tidy = true) : s.tidy = true := by
  induction acts generalizing s with
  | nil => exact Option.some.inj h ▸ htidy
  | cons act acts ih =>
    obtain ⟨s₁, hs₁, h⟩ := Option.bind_eq_some_iff.1 h
    exact tidy_of_perform hs₁ (ih h)

end PagedMem

/-! ### The path to an address -/

section Path

variable {a b n k : ℕ} {v : Frame}

/-- A frame that can be mapped, apart from the part of the address space that the kernel shares. -/
structure Frame.Mappable (v : Frame) : Prop where
  dvd : v.size.bytes ∣ v.addr
  half : v.addr + v.size.bytes ≤ 2 ^ 47 ∨ 2 ^ 64 - 2 ^ 47 ≤ v.addr ∧ v.addr + v.size.bytes ≤ KERNEL_VMA

theorem tableIndices_eq (a : ℕ) : tableIndices a = [Fin.ofNat 512 (a / 2 ^ 39), Fin.ofNat 512 (a / 2 ^ 30),
    Fin.ofNat 512 (a / 2 ^ 21), Fin.ofNat 512 (a / 2 ^ 12)] := by
  have hmod : ∀ n, Fin.ofNat 512 (n % 512) = Fin.ofNat 512 n := fun n => Fin.ext (Nat.mod_mod _ _)
  unfold tableIndices
  rw [getBits_eq (by decide) (by decide), getBits_eq (by decide) (by decide), getBits_eq (by decide) (by decide),
    getBits_eq (by decide) (by decide)]
  simp only [Nat.reduceSub, Nat.reducePow, hmod]

/-- One index more. -/
theorem index_iff : a / 2 ^ (k + 9) % 2 ^ n = b / 2 ^ (k + 9) % 2 ^ n ∧
    Fin.ofNat 512 (a / 2 ^ k) = Fin.ofNat 512 (b / 2 ^ k) ↔ a / 2 ^ k % 2 ^ (n + 9) = b / 2 ^ k % 2 ^ (n + 9) := by
  have hsplit : ∀ x : ℕ, x / 2 ^ k % 2 ^ (n + 9) = x / 2 ^ k % 512 + 512 * (x / 2 ^ (k + 9) % 2 ^ n) := by
    intro x
    rw [Nat.add_comm n, pow_add, Nat.mod_mul, Nat.div_div_eq_div_mul, ← pow_add]
    rfl
  rw [hsplit, hsplit, Fin.ext_iff]
  simp only [Fin.val_ofNat]
  omega

theorem take_indices_iff {d : ℕ} (hd : d < 4) : (tableIndices a).take (d + 1) = (tableIndices b).take (d + 1) ↔
    a / 2 ^ (39 - 9 * d) % 2 ^ (9 + 9 * d) = b / 2 ^ (39 - 9 * d) % 2 ^ (9 + 9 * d) := by
  have hfirst : Fin.ofNat 512 (a / 2 ^ 39) = Fin.ofNat 512 (b / 2 ^ 39) ↔
      a / 2 ^ 39 % 2 ^ 9 = b / 2 ^ 39 % 2 ^ 9 := by
    rw [Fin.ext_iff]
    rfl
  have hsecond := @index_iff a b 9 30
  have hthird := @index_iff a b 18 21
  have hfourth := @index_iff a b 27 12
  rw [tableIndices_eq, tableIndices_eq]
  interval_cases d
  · simpa using hfirst
  · rw [← hsecond, ← hfirst]
    simp
  · rw [← hthird, ← hsecond, ← hfirst]
    simp [and_assoc]
  · rw [← hfourth, ← hthird, ← hsecond, ← hfirst]
    simp [and_assoc]

theorem length_tableIndices (a : ℕ) : (tableIndices a).length = 4 := rfl

/-- The entry of the kernel is above the address that it is for. -/
theorem not_kernel_of_lt (ha : Canonical a) (hlt : a < KERNEL_VMA) : ¬ [511] <+: tableIndices a := by
  intro hp
  rw [tableIndices_eq, List.cons_prefix_cons, Fin.ext_iff] at hp
  have hindex : 511 = a / 2 ^ 39 % 512 := hp.1
  simp only [KERNEL_VMA] at hlt
  unfold Canonical at ha
  omega

namespace Frame.Mappable

theorem canonical (h : v.Mappable) : Canonical v.addr := by
  have hpos := PageSize.units.bytes_pos v.size (PageSize.mem_all _)
  have hhalf := h.half
  simp only [KERNEL_VMA] at hhalf
  unfold Canonical
  omega

/-- The path of a frame leads to the addresses in it. -/
theorem path_prefix_iff (h : v.Mappable) (ha : Canonical a) :
    v.path <+: tableIndices a ↔ v.addr ≤ a ∧ a < v.addr + v.size.bytes := by
  have hd := h.dvd
  have hv := h.canonical
  have hdepth : ∀ d, d < 4 → v.size.depth = d + 1 → (v.path <+: tableIndices a ↔
      v.addr / 2 ^ (39 - 9 * d) % 2 ^ (9 + 9 * d) = a / 2 ^ (39 - 9 * d) % 2 ^ (9 + 9 * d)) := by
    intro d hlt hdepth
    rw [List.prefix_iff_eq_take, Frame.path, hdepth, List.length_take, length_tableIndices,
      min_eq_left (by omega), take_indices_iff hlt]
  unfold Canonical at ha hv
  cases hsize : v.size with
  | k4 =>
    rw [hdepth 3 (by decide) (by rw [hsize]; rfl)]
    rw [hsize] at hd
    simp only [PageSize.bytes] at hd ⊢
    omega
  | m2 =>
    rw [hdepth 2 (by decide) (by rw [hsize]; rfl)]
    rw [hsize] at hd
    simp only [PageSize.bytes] at hd ⊢
    omega
  | g1 =>
    rw [hdepth 1 (by decide) (by rw [hsize]; rfl)]
    rw [hsize] at hd
    simp only [PageSize.bytes] at hd ⊢
    omega

/-- A frame whose path begins with that of another one lies in it. -/
theorem mem_of_prefix {w : Frame} (h : v.Mappable) (hw : w.Mappable) (hp : v.path <+: w.path) :
    v.addr ≤ w.addr ∧ w.addr < v.addr + v.size.bytes :=
  (h.path_prefix_iff hw.canonical).1 (hp.trans (List.take_prefix _ _))

/-- It is not below the entry of the kernel. -/
theorem not_kernel (h : v.Mappable) : ¬ [511] <+: v.path := by
  intro hp
  have hpos := PageSize.units.bytes_pos v.size (PageSize.mem_all _)
  have hlt : v.addr < KERNEL_VMA := by
    have hhalf := h.half
    simp only [KERNEL_VMA] at hhalf ⊢
    omega
  exact not_kernel_of_lt h.canonical hlt (hp.trans (List.take_prefix _ _))

theorem path_ne_nil (v : Frame) : v.path ≠ [] := by
  unfold Frame.path
  cases v.size <;> exact List.cons_ne_nil _ _

end Frame.Mappable

end Path

/-! ### The pages that the tables show -/

/-- A frame, what it is mapped to, and with which flags. -/
abbrev PageEntry := Frame × Frame × PageTableFlags

namespace PageEntry

/-- The entry of a page table. -/
def word (x : PageEntry) : PageTablePointer := .new x.2.1.addr (x.2.2 ||| PRESENT ||| x.1.size.hf)

/-- A page that can be mapped. -/
structure IsPage (x : PageEntry) : Prop where
  virt : x.1.Mappable
  phys : IsFrame x.2.1.addr
  flags : IsFlags x.2.2

theorem IsPage.isFlags {x : PageEntry} (h : x.IsPage) : IsFlags (x.2.2 ||| PRESENT ||| x.1.size.hf) := by
  have hpresent := h.flags.present
  unfold IsFlags at hpresent ⊢
  rw [BitVec.and_or_distrib_right, hpresent]
  cases x.1.size <;> decide

theorem IsPage.isEntry {x : PageEntry} (h : x.IsPage) : IsEntry x.word := by
  refine h.phys.isEntry_new h.isFlags ?_
  rw [BitVec.or_assoc, BitVec.or_comm PRESENT, ← BitVec.or_assoc]
  exact present_or

theorem IsPage.addr_word {x : PageEntry} (h : x.IsPage) : x.word.addr = x.2.1.addr := h.phys.addr_new h.isFlags

/-- A page with the flag is a large one to the processor. -/
theorem IsPage.huge {x : PageEntry} (h : x.IsPage) (hhuge : x.1.size.hf = HUGE) : x.word &&& HUGE ≠ 0 := by
  rw [word, h.phys.new_and (by decide), hhuge, BitVec.and_or_distrib_right]
  intro hzero
  have hbit : (((x.2.2 ||| PRESENT) &&& HUGE) ||| (HUGE &&& HUGE)).getLsbD 7 = true := by
    rw [BitVec.getLsbD_or, show (HUGE &&& HUGE).getLsbD 7 = true by decide, Bool.or_true]
  rw [hzero] at hbit
  exact absurd hbit (by decide)

/-- The tree ends at a large page. -/
theorem IsPage.ends {x : PageEntry} (h : x.IsPage) : x.1.path.length = 3 + 1 ∨ EndsTree x.word := by
  have hends : x.1.size.hf = HUGE → EndsTree x.word := by
    intro hhuge hzero
    refine h.huge hhuge ?_
    rw [show HUGE = (HUGE ||| GLOBAL) &&& HUGE by decide, ← BitVec.and_assoc, hzero]
    exact BitVec.zero_and
  cases hsize : x.1.size with
  | k4 =>
    refine Or.inl ?_
    rw [Frame.path, hsize]
    rfl
  | m2 => exact Or.inr (hends (by rw [hsize]; rfl))
  | g1 => exact Or.inr (hends (by rw [hsize]; rfl))

/-- Where the page is found in the tables. -/
def leaf (x : PageEntry) : List (Fin 512) × PageTablePointer := (x.1.path, x.word)

/-- One page ends before the other begins. -/
def Beside (x y : PageEntry) : Prop := x.1.addr + x.1.size.bytes ≤ y.1.addr ∨ y.1.addr + y.1.size.bytes ≤ x.1.addr

theorem Beside.symm {x y : PageEntry} (h : x.Beside y) : y.Beside x := Or.symm h

/-- Pages beside each other. -/
structure Spread (pages : Set PageEntry) : Prop where
  page : ∀ x ∈ pages, x.IsPage
  beside : ∀ x ∈ pages, ∀ y ∈ pages, x ≠ y → x.Beside y

variable {pages pages' : Set PageEntry} {x y : PageEntry}

theorem Spread.subset (h : Spread pages) (hsub : pages' ⊆ pages) : Spread pages' :=
  ⟨fun x hx => h.page x (hsub hx), fun x hx y hy => h.beside x (hsub hx) y (hsub hy)⟩

theorem Spread.union (h : Spread pages) (h' : Spread pages') (hbeside : ∀ x ∈ pages, ∀ y ∈ pages', x.Beside y) :
    Spread (pages ∪ pages') where
  page x hx := hx.elim (h.page x) (h'.page x)
  beside := by
    rintro x (hx | hx) y (hy | hy) hne
    · exact h.beside x hx y hy hne
    · exact hbeside x hx y hy
    · exact (hbeside y hy x hx).symm
    · exact h'.beside x hx y hy hne

/-- No path begins with another one. -/
theorem Spread.eq_of_prefix (h : Spread pages) (hx : x ∈ pages) (hy : y ∈ pages) (hp : x.1.path <+: y.1.path) :
    x = y := by
  by_contra hne
  obtain ⟨hle, hlt⟩ := (h.page x hx).virt.mem_of_prefix (h.page y hy).virt hp
  have hpos := PageSize.units.bytes_pos y.1.size (PageSize.mem_all _)
  have hbeside := h.beside x hx y hy hne
  unfold Beside at hbeside
  omega

end PageEntry

/-- `HIGHER_HALF_PAGE_POINTER`. -/
def higherHalfPagePointer (kzone : ℕ) : PageTablePointer := .new kzone (PRESENT ||| WRITABLE ||| GLOBAL)

open PageEntry PageTree

/-- The leaves for pages, and the entry of the kernel. -/
def leavesOf (kzone : ℕ) (pages : Set PageEntry) : Set (List (Fin 512) × PageTablePointer) :=
  insert ([511], higherHalfPagePointer kzone) (PageEntry.leaf '' pages)

section ShowsPages

variable {ρ : Type} {F : FrameAllocator ρ} {live : ρ → Set ℕ} {kzone cr3 : ℕ} {s s' : PagedMem ρ}
  {pages new : Set PageEntry} {x : PageEntry}

/-- The tables under `cr3` show these pages, and the entry of the kernel. -/
structure ShowsPages (live : ρ → Set ℕ) (kzone cr3 : ℕ) (s : PageMem ρ) (pages : Set PageEntry) : Prop where
  separated : (read s.table 3 cr3).Separated
  inUse : (read s.table 3 cr3).places ⊆ live s.frames
  leaves : (read s.table 3 cr3).Shows (leavesOf kzone pages)

/-- Nothing but the tables under `cr3` changes. -/
abbrev Within (live : ρ → Set ℕ) (cr3 : ℕ) (s s' : PageMem ρ) : Prop :=
  Local live s s' (read s.table 3 cr3) (read s'.table 3 cr3)

theorem length_path (v : Frame) : v.path.length ≤ 3 + 1 := by
  rw [Frame.path, List.length_take]
  exact min_le_right _ _

/-- **A page that is mapped.** -/
theorem ShowsPages.perform_map (hF : F.Fresh live) (h : ShowsPages live kzone cr3 s.mem pages)
    (hspread : Spread (insert x pages)) (hx : x ∉ pages)
    (he : s.perform F cr3 (.map x.2.1 x.1 x.2.2) = some s') :
    ShowsPages live kzone cr3 s'.mem (insert x pages) ∧ Within live cr3 s.mem s'.mem := by
  obtain ⟨mem, hmem, rfl⟩ := Option.map_eq_some_iff.1 he
  have hpage := hspread.page x (Set.mem_insert x pages)
  have hother : ∀ y ∈ leavesOf kzone pages, ¬ y.1 <+: x.1.path := by
    rintro y (rfl | ⟨z, hz, rfl⟩) hp
    · exact hpage.virt.not_kernel hp
    · exact hx (hspread.eq_of_prefix (Set.mem_insert_of_mem x hz) (Set.mem_insert x pages) hp ▸ hz)
  obtain ⟨hlocal, hleaf⟩ := mapFrom_grows hF hpage.isEntry (Frame.Mappable.path_ne_nil _) (length_path _) hpage.ends
    h.separated h.inUse (h.leaves.way fun y hy hp => absurd hp (hother y hy)) hmem
  refine ⟨⟨hlocal.separated, hlocal.inUse, ?_⟩, hlocal⟩
  have hadded := h.leaves.added (fun y hy heq => hother y hy (heq ▸ List.prefix_rfl)) hleaf
  rw [leavesOf, Set.image_insert_eq, Set.insert_comm]
  exact hadded

/-- **A page that is unmapped.** -/
theorem ShowsPages.perform_unmap (hF : F.Fresh live) (h : ShowsPages live kzone cr3 s.mem pages)
    (hspread : Spread pages) (hx : x ∈ pages) (he : s.perform F cr3 (.unmap x.1) = some s') (htidy : s'.tidy = true) :
    ShowsPages live kzone cr3 s'.mem (pages \ {x}) ∧ Within live cr3 s.mem s'.mem := by
  obtain ⟨⟨mem, dropped⟩, hmem, rfl⟩ := Option.map_eq_some_iff.1 he
  have hdecide := (Bool.and_eq_true_iff.1 htidy).2
  have hroot := of_decide_eq_true hdecide
  have hpage := hspread.page x hx
  have hleaf := h.leaves.isSome (Set.mem_insert_of_mem _ (Set.mem_image_of_mem _ hx))
  obtain ⟨hlocal, hdropped, hleaves⟩ := unmapFrom_shrinks hF (Frame.Mappable.path_ne_nil _) (length_path _)
    h.separated h.inUse hleaf hmem
  -- the entry of the kernel is in the top table, which therefore stays
  have hkeeps : dropped = false := by
    refine Bool.eq_false_iff.2 fun hgone => ?_
    have hgoes := hdropped.1 hgone
    have hkernel := h.leaves.isSome (Set.mem_insert ([511], higherHalfPagePointer kzone) _)
    obtain ⟨i, path, hpath⟩ := List.exists_cons_of_ne_nil (Frame.Mappable.path_ne_nil x.1)
    rw [hpath] at hgoes hroot
    have hhead := head_of_goes hroot hgoes hkernel
    refine hpage.virt.not_kernel ?_
    rw [hpath, ← hhead]
    exact List.cons_prefix_cons.2 ⟨rfl, List.nil_prefix⟩
  subst hkeeps
  refine ⟨⟨hlocal.separated, hlocal.inUse, ?_⟩, hlocal⟩
  have hremoved := h.leaves.removed (hleaves hroot)
  have hset : {y ∈ leavesOf kzone pages | y.1 ≠ x.1.path} = leavesOf kzone (pages \ {x}) := by
    ext y
    simp only [leavesOf, Set.mem_insert_iff, Set.mem_image, Set.mem_sdiff, Set.mem_singleton_iff]
    constructor
    · rintro ⟨rfl | ⟨z, hz, rfl⟩, hne⟩
      · exact Or.inl rfl
      · refine Or.inr ⟨z, ⟨hz, ?_⟩, rfl⟩
        rintro rfl
        exact hne rfl
    · rintro (rfl | ⟨z, ⟨hz, hne⟩, rfl⟩)
      · exact ⟨Or.inl rfl, fun heq => hpage.virt.not_kernel (heq ▸ List.prefix_rfl)⟩
      · exact ⟨Or.inr ⟨z, hz, rfl⟩, fun heq => hne (hspread.eq_of_prefix hz hx (heq ▸ List.prefix_rfl))⟩
  rw [← hset]
  exact hremoved

/-- **Pages that are unmapped**, one after the other. -/
theorem ShowsPages.performAll_unmap (hF : F.Fresh live) {vframes : List Frame}
    (h : ShowsPages live kzone cr3 s.mem pages) (hspread : Spread pages) (hnodup : vframes.Nodup)
    (hmem : ∀ v ∈ vframes, ∃ x ∈ pages, x.1 = v)
    (he : s.performAll F cr3 (vframes.map .unmap) = some s') (htidy : s'.tidy = true) :
    ShowsPages live kzone cr3 s'.mem {x ∈ pages | x.1 ∉ vframes} ∧ Within live cr3 s.mem s'.mem := by
  induction vframes generalizing s pages with
  | nil =>
    obtain rfl := Option.some.inj he
    have hall : {x ∈ pages | x.1 ∉ ([] : List Frame)} = pages := by
      ext x
      simp
    rw [hall]
    exact ⟨h, .refl h.separated h.inUse⟩
  | cons v vframes ih =>
    obtain ⟨s₁, hs₁, hrest⟩ := Option.bind_eq_some_iff.1 he
    obtain ⟨hv, hnodup'⟩ := List.nodup_cons.1 hnodup
    obtain ⟨x, hx, rfl⟩ := hmem v List.mem_cons_self
    have hdiff : pages \ {x} = {y ∈ pages | y.1 ≠ x.1} := by
      ext y
      refine and_congr_right fun hy => not_congr ⟨fun heq => heq ▸ rfl, fun heq => ?_⟩
      exact hspread.eq_of_prefix hy hx (by rw [heq])
    obtain ⟨hshows, hwithin⟩ := h.perform_unmap hF hspread hx hs₁ (PagedMem.tidy_of_performAll hrest htidy)
    rw [hdiff] at hshows
    obtain ⟨hshows', hwithin'⟩ := ih hshows (hspread.subset (Set.sep_subset _ _)) hnodup' (fun w hw => by
      obtain ⟨y, hy, rfl⟩ := hmem w (List.mem_cons_of_mem _ hw)
      exact ⟨y, ⟨hy, fun heq => hv (heq ▸ hw)⟩, rfl⟩) hrest
    refine ⟨?_, hwithin.trans hwithin'⟩
    convert hshows' using 1
    ext y
    simp only [Set.mem_sep_iff, List.mem_cons, not_or, and_assoc, ne_eq]

/-- **Pages that are mapped**, one after the other. -/
theorem ShowsPages.performAll_map (hF : F.Fresh live) {new : List PageEntry}
    (h : ShowsPages live kzone cr3 s.mem pages) (hspread : Spread (pages ∪ {x | x ∈ new})) (hnodup : new.Nodup)
    (hnew : ∀ x ∈ new, x ∉ pages)
    (he : s.performAll F cr3 (new.map fun x => .map x.2.1 x.1 x.2.2) = some s') :
    ShowsPages live kzone cr3 s'.mem (pages ∪ {x | x ∈ new}) ∧ Within live cr3 s.mem s'.mem := by
  induction new generalizing s pages with
  | nil =>
    obtain rfl := Option.some.inj he
    have hall : pages ∪ {x | x ∈ ([] : List PageEntry)} = pages := by simp
    rw [hall]
    exact ⟨h, .refl h.separated h.inUse⟩
  | cons x new ih =>
    obtain ⟨s₁, hs₁, he⟩ := Option.bind_eq_some_iff.1 he
    obtain ⟨hx, hnodup'⟩ := List.nodup_cons.1 hnodup
    have hset : pages ∪ {y | y ∈ x :: new} = insert x pages ∪ {y | y ∈ new} := by
      ext y
      simp only [Set.mem_union, Set.mem_insert_iff, List.mem_cons, Set.mem_ofPred_eq]
      tauto
    rw [hset] at hspread ⊢
    obtain ⟨hshows, hwithin⟩ := h.perform_map hF (hspread.subset Set.subset_union_left)
      (hnew x List.mem_cons_self) hs₁
    obtain ⟨hshows', hwithin'⟩ := ih hshows hspread hnodup' (fun y hy hmem => by
      rcases hmem with rfl | hmem
      · exact hx hy
      · exact hnew y (List.mem_cons_of_mem _ hy) hmem) he
    exact ⟨hshows', hwithin.trans hwithin'⟩

end ShowsPages

end AuroraOs
