import AuroraOs.Mem.PagedSpace

/-!
# Address spaces and the processor

The processor finds the memory behind an address in the page tables; the kernel finds it in the layouts of the
regions.  In every run of any number of address spaces both find the same, and no address space has a table of
another one, as long as every table that was given back to the frame allocator was empty.
-/

namespace AuroraOs

open Machine PageEntry PageTableFlags VirtLayout VirtMapper Radix.Node

/-! ### The walk of the processor -/

/-- The flags that decide on an access. -/
def PageTablePointer.accessFlags (self : PageTablePointer) : PageTableFlags :=
  self &&& (PRESENT ||| WRITABLE ||| USER ||| NO_EXEC)

namespace PageTree

/-- The word that maps a page, and the levels of tables that are left below it.  The processor goes on unless
the page is a large one. -/
def mmu (tables : ℕ → PageTable) : ℕ → ℕ → List (Fin 512) → Option (ℕ × PageTablePointer)
  | _, _, [] => none
  | 0, frame, i :: _ => ((tables frame).entry i).map fun w => (0, w)
  | depth + 1, frame, i :: path =>
      ((tables frame).entry i).bind fun w =>
        if w &&& HUGE = 0 then mmu tables depth w.addr path else some (depth + 1, w)

/-- The physical address of a byte, with the flags of its page. -/
def translate (tables : ℕ → PageTable) (cr3 a : ℕ) : Option (ℕ × PageTableFlags) :=
  (mmu tables 3 cr3 (tableIndices a)).map fun r => (r.2.addr + a % (PAGE_SIZE * 512 ^ r.1), r.2.accessFlags)

variable {tables : ℕ → PageTable} {depth frame k : ℕ} {q : List (Fin 512)} {w : PageTablePointer}
  {e : Option PageTablePointer}

theorem leafAt_nil_node : (node tables depth e).leafAt [] = some w → e = some w := by
  intro h
  cases e with
  | none =>
    rw [node_none, leafAt_absent] at h
    cases h
  | some w' =>
    cases depth with
    | zero =>
      rw [node_zero, leafAt_leaf, if_pos rfl] at h
      exact h
    | succ depth =>
      by_cases hends : EndsTree w'
      · rw [node_ends hends, leafAt_leaf, if_pos rfl] at h
        exact h
      · rw [node_table hends, read, leafAt_table_nil] at h
        cases h

/-- **The processor comes to a leaf of the tree**, if all leaves above the last level on its way are large pages. -/
theorem mmu_eq_some_iff (hhuge : ∀ p w, p <+: q → (read tables depth frame).leafAt p = some w → p.length ≤ depth →
      w &&& HUGE ≠ 0) : mmu tables depth frame q = some (k, w) ↔
    ∃ p, p <+: q ∧ (read tables depth frame).leafAt p = some w ∧ p.length + k = depth + 1 := by
  induction q generalizing depth frame with
  | nil =>
    have hnone : mmu tables depth frame [] = none := by cases depth <;> rfl
    rw [hnone]
    refine iff_of_false (by simp) ?_
    rintro ⟨p, hp, hleaf, -⟩
    obtain rfl := List.prefix_nil.1 hp
    rw [read, leafAt_table_nil] at hleaf
    cases hleaf
  | cons i q ih =>
    -- a leaf on the way is below the entry
    have hbelow : (∃ p, p <+: i :: q ∧ (read tables depth frame).leafAt p = some w ∧ p.length + k = depth + 1) ↔
        ∃ p, p <+: q ∧ (node tables depth ((tables frame).entry i)).leafAt p = some w ∧ p.length + k = depth := by
      constructor
      · rintro ⟨_ | ⟨j, p⟩, hp, hleaf, hlen⟩
        · rw [read, leafAt_table_nil] at hleaf
          cases hleaf
        · obtain ⟨rfl, hrest⟩ := List.cons_prefix_cons.1 hp
          rw [List.length_cons] at hlen
          exact ⟨p, hrest, hleaf, by omega⟩
      · rintro ⟨p, hp, hleaf, hlen⟩
        exact ⟨i :: p, List.cons_prefix_cons.2 ⟨rfl, hp⟩, hleaf, by rw [List.length_cons]; omega⟩
    rw [hbelow]
    cases hw : (tables frame).entry i with
    | none =>
      have hnone : mmu tables depth frame (i :: q) = none := by
        cases depth <;> rw [mmu, hw] <;> rfl
      rw [hnone]
      simp
    | some w' =>
      cases depth with
      | zero =>
        rw [mmu, hw, node_zero]
        simp only [leafAt_leaf, Option.map_some, Option.some.injEq, Prod.mk.injEq]
        constructor
        · rintro ⟨rfl, rfl⟩
          exact ⟨[], List.nil_prefix, if_pos rfl, rfl⟩
        · rintro ⟨p, -, hleaf, hlen⟩
          split_ifs at hleaf
          exact ⟨by omega, Option.some.inj hleaf⟩
      | succ depth =>
        rw [mmu, hw, Option.bind_some]
        by_cases hends : EndsTree w'
        · have hleaf : (read tables (depth + 1) frame).leafAt [i] = some w' := by
            rw [read, leafAt_table_cons, hw, node_ends hends, leafAt_leaf, if_pos rfl]
          have hlarge := hhuge [i] w' (List.cons_prefix_cons.2 ⟨rfl, List.nil_prefix⟩) hleaf (by simp)
          rw [if_neg hlarge, node_ends hends]
          simp only [leafAt_leaf, Option.some.injEq, Prod.mk.injEq]
          constructor
          · rintro ⟨rfl, rfl⟩
            exact ⟨[], List.nil_prefix, if_pos rfl, by simp⟩
          · rintro ⟨p, -, hleaf, hlen⟩
            split_ifs at hleaf with hp
            subst hp
            exact ⟨by simpa using hlen.symm, Option.some.inj hleaf⟩
        · have hsmall : w' &&& HUGE = 0 := by
            have hzero : w' &&& (HUGE ||| GLOBAL) = 0 := not_not.1 hends
            rw [show HUGE = (HUGE ||| GLOBAL) &&& HUGE by decide, ← BitVec.and_assoc, hzero]
            exact BitVec.zero_and
          rw [if_pos hsmall, node_table hends]
          refine ih fun p w'' hp hleaf hlen => ?_
          refine hhuge (i :: p) w'' (List.cons_prefix_cons.2 ⟨rfl, hp⟩) ?_ (by rw [List.length_cons]; omega)
          rw [read, leafAt_table_cons, hw, node_table hends]
          exact hleaf

end PageTree

/-! ### What the tables of an address space mean -/

section Translation

variable {ρ : Type} {live : ρ → Set ℕ} {kzone cr3 a pa : ℕ} {s : PageMem ρ} {pages : Set PageEntry} {x : PageEntry}
  {P : AddrApi} {m : VirtMapper} {flags : PageTableFlags}

theorem bytes_mul (v : Frame) : PAGE_SIZE * 512 ^ (4 - v.path.length) = v.size.bytes := by
  rw [Frame.path, List.length_take, length_tableIndices]
  cases v.size <;> rfl

/-- A page above the last level is a large one. -/
theorem huge_of_length (hx : x.IsPage) (hlen : x.1.path.length ≤ 3) : x.word &&& HUGE ≠ 0 := by
  refine hx.huge ?_
  rw [Frame.path, List.length_take, length_tableIndices] at hlen
  cases hsize : x.1.size with
  | k4 =>
    rw [hsize] at hlen
    exact absurd hlen (by decide)
  | m2 => rfl
  | g1 => rfl

/-- **The processor translates the addresses in the pages** that the tables show, and no others below the kernel. -/
theorem ShowsPages.translate_iff (h : ShowsPages live kzone cr3 s pages) (hspread : Spread pages) (ha : Canonical a)
    (hlt : a < KERNEL_VMA) : PageTree.translate s.table cr3 a = some (pa, flags) ↔
      ∃ x ∈ pages, x.1.addr ≤ a ∧ a < x.1.addr + x.1.size.bytes ∧ pa = x.2.1.addr + (a - x.1.addr) ∧
        flags = x.word.accessFlags := by
  have hleaf : ∀ p w, p <+: tableIndices a → (PageTree.read s.table 3 cr3).leafAt p = some w →
      ∃ x ∈ pages, p = x.1.path ∧ w = x.word := by
    intro p w hp hw
    rcases (h.leaves p w).1 hw with heq | ⟨x, hx, heq⟩
    · rw [(Prod.mk.inj heq).1] at hp
      exact absurd hp (not_kernel_of_lt ha hlt)
    · obtain ⟨rfl, rfl⟩ := Prod.mk.inj heq
      exact ⟨x, hx, rfl, rfl⟩
  have hmmu : ∀ k w, PageTree.mmu s.table 3 cr3 (tableIndices a) = some (k, w) ↔
      ∃ x ∈ pages, x.1.path <+: tableIndices a ∧ w = x.word ∧ x.1.path.length + k = 4 := by
    intro k w
    rw [PageTree.mmu_eq_some_iff fun p w hp hw hlen => by
      obtain ⟨x, hx, rfl, rfl⟩ := hleaf p w hp hw
      exact huge_of_length (hspread.page x hx) hlen]
    constructor
    · rintro ⟨p, hp, hw, hlen⟩
      obtain ⟨x, hx, rfl, rfl⟩ := hleaf p w hp hw
      exact ⟨x, hx, hp, rfl, hlen⟩
    · rintro ⟨x, hx, hp, rfl, hlen⟩
      exact ⟨x.1.path, hp, (h.leaves _ _).2 (Or.inr ⟨x, hx, rfl⟩), hlen⟩
  have hoffset : ∀ x ∈ pages, x.1.addr ≤ a → a < x.1.addr + x.1.size.bytes →
      x.word.addr + a % (PAGE_SIZE * 512 ^ (4 - x.1.path.length)) = x.2.1.addr + (a - x.1.addr) := by
    intro x hx hlo hhi
    have hpage := hspread.page x hx
    obtain ⟨c, hc⟩ := hpage.virt.dvd
    have hrest : a % x.1.size.bytes = a - x.1.addr := by
      rw [show a = (a - x.1.addr) + x.1.size.bytes * c by omega, Nat.add_mul_mod_self_left,
        Nat.mod_eq_of_lt (by omega)]
      omega
    rw [bytes_mul, hrest, hpage.addr_word]
  constructor
  · intro htranslate
    obtain ⟨⟨k, w⟩, hkw, heq⟩ := Option.map_eq_some_iff.1 htranslate
    obtain ⟨rfl, rfl⟩ := Prod.mk.inj heq
    obtain ⟨x, hx, hp, rfl, hlen⟩ := (hmmu k w).1 hkw
    obtain ⟨hlo, hhi⟩ := ((hspread.page x hx).virt.path_prefix_iff ha).1 hp
    refine ⟨x, hx, hlo, hhi, ?_, rfl⟩
    rw [← hoffset x hx hlo hhi, show 4 - x.1.path.length = k by omega]
  · rintro ⟨x, hx, hlo, hhi, rfl, rfl⟩
    have hp := ((hspread.page x hx).virt.path_prefix_iff ha).2 ⟨hlo, hhi⟩
    have hlen := length_path x.1
    rw [PageTree.translate, (hmmu (4 - x.1.path.length) x.word).2 ⟨x, hx, hp, rfl, by omega⟩, Option.map_some,
      hoffset x hx hlo hhi]

/-- The access flags of a page are those of the mapping flags. -/
theorem accessFlags_word {mappingFlags : PageMappingFlags} (hx : x.IsPage)
    (hflags : x.2.2 = .fromMappingFlags mappingFlags) (hpresent : x.2.2.present = true) :
    x.word.accessFlags = .fromMappingFlags mappingFlags := by
  have hsmall : ∀ mappingFlags : BitVec 5, (PageTableFlags.fromMappingFlags mappingFlags).present = true →
      (.fromMappingFlags mappingFlags ||| PRESENT ||| NONE) &&& (PRESENT ||| WRITABLE ||| USER ||| NO_EXEC) =
        PageTableFlags.fromMappingFlags mappingFlags := by
    decide +kernel
  have hlarge : ∀ mappingFlags : BitVec 5, (PageTableFlags.fromMappingFlags mappingFlags).present = true →
      (.fromMappingFlags mappingFlags ||| PRESENT ||| HUGE) &&& (PRESENT ||| WRITABLE ||| USER ||| NO_EXEC) =
        PageTableFlags.fromMappingFlags mappingFlags := by
    decide +kernel
  rw [hflags] at hpresent
  rw [PageTablePointer.accessFlags, word, hx.phys.new_and (by decide), hflags]
  cases x.1.size with
  | k4 => exact hsmall mappingFlags hpresent
  | m2 => exact hlarge mappingFlags hpresent
  | g1 => exact hlarge mappingFlags hpresent

/-- What the layouts of the regions say about an address: it lies in an element with memory, and this is its
distance from the start of the element. -/
def VirtMapper.Translates (P : AddrApi) (m : VirtMapper) (a pa : ℕ) (flags : PageTableFlags) : Prop :=
  ∃ r l xs e ys z, (r, l) ∈ m.virtMap.entries ∧ l.mapped = xs ++ e :: ys ∧ e.asPhysZone P = some (some z) ∧
    r.addr + total xs ≤ a ∧ a < r.addr + total xs + e.size ∧ pa = z.addr + (a - (r.addr + total xs)) ∧
    flags = .fromMappingFlags e.mappingFlags

/-- **The page tables of an orderly address space mean what its layouts say.** -/
theorem VirtMapper.Orderly.translate_iff (hm : m.Orderly P) (h : ShowsPages live kzone cr3 s (pagesOf P m))
    (ha : Canonical a) (hlt : a < KERNEL_VMA) :
    PageTree.translate s.table cr3 a = some (pa, flags) ↔ m.Translates P a pa flags := by
  have hspread := hm.spread
  rw [h.translate_iff hspread ha hlt]
  constructor
  · rintro ⟨x, ⟨⟨r, l⟩, he, hx⟩, hlo, hhi, rfl, rfl⟩
    have hlaid := hm.laid _ he
    have hdvd := (hm.placed.range r (SortedMap.mem_keys_of_mem he)).dvd_addr
    obtain ⟨xs, e, ys, z, hsplit, hz, -, -, -, hf, hoffset, hstart, hend⟩ := mem_pagesAt hlaid.sound.mapped hdvd hx
    have hpresent := (asPhysZone_spec hz).1
    have hbacked := hlaid.sound.mapped e (by rw [hsplit]; simp)
    refine ⟨r, l, xs, e, ys, z, he, hsplit, hz, by omega, by omega, by omega, ?_⟩
    exact accessFlags_word (hspread.page x ⟨_, he, hx⟩) (hf.trans hbacked.flags) (hf ▸ hpresent)
  · rintro ⟨r, l, xs, e, ys, z, he, hsplit, hz, hlo, hhi, rfl, rfl⟩
    have hlaid := hm.laid _ he
    have hdvd := (hm.placed.range r (SortedMap.mem_keys_of_mem he)).dvd_addr
    have hmapped := hlaid.sound.mapped
    simp only [hsplit] at hmapped
    obtain ⟨x, hx, hxlo, hxhi, hoffset, hf⟩ := pagesAt_covers hmapped hdvd hz hlo hhi
    rw [← hsplit] at hx
    have hpresent := (asPhysZone_spec hz).1
    have hbacked := hlaid.sound.mapped e (by rw [hsplit]; simp)
    refine ⟨x, ⟨_, he, hx⟩, hxlo, hxhi, by omega, ?_⟩
    exact (accessFlags_word (hspread.page x ⟨_, he, hx⟩) (hf.trans hbacked.flags) (hf ▸ hpresent)).symm

end Translation

/-! ### A new address space -/

/-- `VirtMapper::new`, on the page tables: the top table, and its entry for the kernel. -/
def newTables {ρ : Type} (K : PagingEnv ρ) (kzone : ℕ) (s : PagedMem ρ) : Option (PagedMem ρ × ℕ) := do
  let (mem, pml4Table) ← s.mem.newTable K.frames NONE false
  let cr3 ← pml4Table.asRef
  let mem ← mem.set cr3 511 (higherHalfPagePointer kzone)
  some (⟨mem, s.tidy⟩, cr3)

section New

variable {ρ : Type} {K : PagingEnv ρ} {live : ρ → Set ℕ} {kzone cr3 : ℕ} {s s' : PagedMem ρ} {pages : Set PageEntry}

theorem isEntry_higherHalf (hkzone : IsFrame kzone) : IsEntry (higherHalfPagePointer kzone) :=
  hkzone.isEntry_new (by decide) (by decide)

theorem endsTree_higherHalf (hkzone : IsFrame kzone) : EndsTree (higherHalfPagePointer kzone) := by
  rw [EndsTree, higherHalfPagePointer, hkzone.new_and (by decide)]
  decide

/-- **A new address space** has a table that was not in use, with the entry of the kernel only. -/
theorem newTables_spec (hK : K.Sound live) (hkzone : IsFrame kzone) (h : newTables K kzone s = some (s', cr3)) :
    s'.tidy = s.tidy ∧ ShowsPages live kzone cr3 s'.mem ∅ ∧
      PageTree.Local live s.mem s'.mem .absent (PageTree.read s'.mem.table 3 cr3) := by
  obtain ⟨⟨mem, pml4Table⟩, hnew, h⟩ := Option.bind_eq_some_iff.1 h
  obtain ⟨ref, href, h⟩ := Option.bind_eq_some_iff.1 h
  obtain ⟨mem', hset, h⟩ := Option.bind_eq_some_iff.1 h
  obtain ⟨rfl, rfl⟩ := Prod.mk.inj (Option.some.inj h)
  obtain ⟨f, hfresh, hlive, hf, rfl, htable⟩ := PageMem.newTable_spec hK.fresh (by decide) hnew
  have hentry := hf.isEntry_new (by decide) (@present_or NONE)
  rw [PageTablePointer.asRef, if_neg hentry.present, hf.addr_new (by decide)] at href
  obtain rfl := Option.some.inj href
  obtain ⟨t, ht, rfl⟩ := PageMem.set_eq_some hset
  rw [htable, Function.update_self] at ht
  obtain ⟨-, hentries, -⟩ := PageTable.set_spec (isEntry_higherHalf hkzone) ht
  rw [PageTable.entry_cleared] at hentries
  -- the tree of the new table
  have hself : (mem.write f t).table f = t := by rw [PageMem.write_table, if_pos rfl]
  have hread : PageTree.read (mem.write f t).table 3 f =
      .table f t.count fun i => if i = 511 then .leaf (higherHalfPagePointer kzone) else .absent := by
    rw [PageTree.read, hself, hentries]
    congr 1
    funext i
    by_cases hi : i = 511
    · rw [hi, Function.update_self, if_pos rfl, PageTree.node_ends (endsTree_higherHalf hkzone)]
    · rw [Function.update_of_ne hi, if_neg hi, PageTree.node_none]
  have hplaces : (PageTree.read (mem.write f t).table 3 f).places = {f} := by
    rw [hread]
    ext x
    rw [mem_places, Set.mem_singleton_iff]
    refine ⟨fun hx => ?_, Or.inl⟩
    rcases hx with hx | ⟨i, hi⟩
    · exact hx
    · split_ifs at hi <;> cases hi
  have hsep : (PageTree.read (mem.write f t).table 3 f).Separated := by
    have hnone : ∀ i : Fin 512,
        (if i = 511 then .leaf (higherHalfPagePointer kzone) else .absent : PageTree).places = ∅ := by
      intro i
      split_ifs <;> rfl
    rw [hread]
    refine ⟨fun i => ?_, fun i j _ => ?_, fun i => ?_⟩
    · rw [hnone]
      exact Set.notMem_empty _
    · rw [hnone]
      exact Set.empty_disjoint _
    · dsimp only
      split_ifs <;> trivial
  have hframes : live (mem.write f t).frames = insert f (live s.mem.frames) := hlive
  have hinUse : (PageTree.read (mem.write f t).table 3 f).places ⊆ live (mem.write f t).frames := by
    rw [hplaces, hframes]
    exact Set.singleton_subset_iff.2 (Set.mem_insert _ _)
  refine ⟨rfl, ⟨hsep, hinUse, fun p w => ?_⟩, ⟨hsep, hinUse, fun g hg => ?_, fun g hg _ => ⟨?_, ?_⟩⟩⟩
  · rw [hread, leavesOf, Set.image_empty, Set.mem_insert_iff, Prod.ext_iff]
    simp only [Set.mem_empty_iff_false, or_false]
    cases p with
    | nil => simp
    | cons i p =>
      rw [leafAt_table_cons]
      split_ifs with hi
      · rw [leafAt_leaf]
        constructor
        · intro hw
          split_ifs at hw with hp
          exact ⟨by rw [hi, hp], (Option.some.inj hw).symm⟩
        · rintro ⟨hp, rfl⟩
          rw [if_pos (List.cons.inj hp).2]
      · rw [leafAt_absent]
        exact iff_of_false (by simp) fun hp => hi (List.cons.inj hp.1).1
  · rw [hplaces] at hg
    obtain rfl := hg
    exact Or.inr hfresh
  · rw [hframes]
    exact Set.mem_insert_of_mem _ hg
  · have hne : g ≠ f := by
      rintro rfl
      exact hfresh hg
    rw [PageMem.write_table, if_neg hne, htable, Function.update_of_ne hne]

end New

/-! ### A call on an address space -/

namespace VirtMapper

variable {σ ρ : Type}

/-- A call, with the memory afterwards. -/
def call (E : MemEnv σ) (s : σ) (m : VirtMapper) : Call σ → Option (σ × VirtMapper)
  | .map physZones => (m.map E s physZones).map fun r => (r.1, r.2.1)
  | .mapAt physZones virtZone => (m.mapAt E s physZones virtZone).map fun r => (r.1, r.2.1)
  | .remap virtZone atype f => (m.remap E s virtZone atype f).map fun r => (r.1, r.2.1)
  | .remapAt virtZone target atype f => (m.remapAt E s virtZone target atype f).map fun r => (r.1, r.2.1)
  | .unmap virtZone atype => (m.unmap E s virtZone atype).map fun r => (r.1, r.2.1)

/-- A layout that nothing is mapped of. -/
structure Unused (P : AddrApi) (l : VirtLayout) : Prop where
  sound : l.Sound P
  unmapped : l.mapped = []
  lt : total l.data < usizeMod

/-- Calls are made with layouts that nothing is mapped of, and with closures that push and pop. -/
def Call.Proper (P : AddrApi) (live : ρ → Set ℕ) : Call (PagedMem ρ) → Prop
  | .map physZones => Unused P physZones
  | .mapAt physZones _ => Unused P physZones
  | .remap _ _ f => Resizes P live f
  | .remapAt _ _ _ f => Resizes P live f
  | .unmap _ _ => True

/-- The ranges that are taken lie outside of the kernel. -/
def CallOutside (V : VirtAddrApi) (s : PagedMem ρ) (m : VirtMapper) : Call (PagedMem ρ) → Prop
  | .map physZones => m.GapOutside physZones.size
  | .mapAt physZones virtZone => AtOutside V m physZones.size virtZone
  | .remap virtZone atype f => RemapOutside V s m virtZone atype f
  | .remapAt virtZone target atype f => RemapAtOutside V s m virtZone target atype f
  | .unmap _ _ => True

instance {V : VirtAddrApi} {s : PagedMem ρ} {m : VirtMapper} : (c : Call (PagedMem ρ)) → Decidable (CallOutside V s m c)
  | .map physZones => inferInstanceAs (Decidable (m.GapOutside physZones.size))
  | .mapAt physZones virtZone => inferInstanceAs (Decidable (AtOutside V m physZones.size virtZone))
  | .remap virtZone atype f => inferInstanceAs (Decidable (RemapOutside V s m virtZone atype f))
  | .remapAt virtZone target atype f => inferInstanceAs (Decidable (RemapAtOutside V s m virtZone target atype f))
  | .unmap _ _ => isTrue trivial

/-- **Every call** takes tables that show the pages of the layouts to tables that show those of the layouts
afterwards. -/
theorem call_turns {K : PagingEnv ρ} {live : ρ → Set ℕ} {kzone cr3 : ℕ} {s s' : PagedMem ρ} {m m' : VirtMapper}
    {c : Call (PagedMem ρ)} (hK : K.Sound live) (hm : m.Orderly K.phys) (hproper : c.Proper K.phys live)
    (hout : CallOutside K.virt s m c) (h : m.call (K.env cr3) s c = some (s', m')) :
    Turns live kzone cr3 s s' (pagesOf K.phys m) (pagesOf K.phys m') ∧ m'.Orderly K.phys := by
  cases c with
  | map physZones =>
    obtain ⟨⟨s₁, m₁, res⟩, hcall, heq⟩ := Option.map_eq_some_iff.1 h
    obtain ⟨rfl, rfl⟩ := Prod.mk.inj heq
    exact map_turns hK hm hproper.sound hproper.unmapped hproper.lt hout hcall
  | mapAt physZones virtZone =>
    obtain ⟨⟨s₁, m₁, res⟩, hcall, heq⟩ := Option.map_eq_some_iff.1 h
    obtain ⟨rfl, rfl⟩ := Prod.mk.inj heq
    exact mapAt_turns hK hm hproper.sound hproper.unmapped hproper.lt hout hcall
  | remap virtZone atype f =>
    obtain ⟨⟨s₁, m₁, res⟩, hcall, heq⟩ := Option.map_eq_some_iff.1 h
    obtain ⟨rfl, rfl⟩ := Prod.mk.inj heq
    exact remap_turns hK hm hproper hout hcall
  | remapAt virtZone target atype f =>
    obtain ⟨⟨s₁, m₁, res⟩, hcall, heq⟩ := Option.map_eq_some_iff.1 h
    obtain ⟨rfl, rfl⟩ := Prod.mk.inj heq
    exact remapAt_turns hK hm hproper hout hcall
  | unmap virtZone atype =>
    obtain ⟨⟨s₁, m₁, res⟩, hcall, heq⟩ := Option.map_eq_some_iff.1 h
    obtain ⟨rfl, rfl⟩ := Prod.mk.inj heq
    exact unmap_turns hK hm hcall

end VirtMapper

/-! ### Any number of address spaces -/

/-- The memory of the tables, and for every address space its top table and its regions. -/
structure Spaces (ρ : Type) where
  mem : PagedMem ρ
  spaces : List (ℕ × VirtMapper)

namespace Spaces

variable {ρ : Type}

/-- `VirtMapper::new`, a call on one of the address spaces, and whatever else happens to the memory. -/
inductive Op (ρ : Type)
  | new
  | call (i : ℕ) (c : Call (PagedMem ρ))
  | rest (mem : PageMem ρ)

def step (K : PagingEnv ρ) (kzone : ℕ) (w : Spaces ρ) : Op ρ → Option (Spaces ρ)
  | .new => (newTables K kzone w.mem).map fun r => ⟨r.1, w.spaces ++ [(r.2, VirtMapper.new)]⟩
  | .call i c =>
      match w.spaces[i]? with
      | none => some w
      | some (cr3, m) => (m.call (K.env cr3) w.mem c).map fun r => ⟨r.1, w.spaces.set i (cr3, r.2)⟩
  | .rest mem => some ⟨⟨mem, w.mem.tidy⟩, w.spaces⟩

/-- No address space yet. -/
def start (mem : PageMem ρ) : Spaces ρ := ⟨⟨mem, true⟩, []⟩

/-- The frames of the tables of an address space. -/
def tables (w : Spaces ρ) (cr3 : ℕ) : Set ℕ := (PageTree.read w.mem.mem.table 3 cr3).places

def Op.Proper (P : AddrApi) (live : ρ → Set ℕ) : Op ρ → Prop
  | .call _ c => c.Proper P live
  | _ => True

def Outside (V : VirtAddrApi) (w : Spaces ρ) : Op ρ → Prop
  | .call i c => ∀ e ∈ w.spaces[i]?, CallOutside V w.mem e.2 c
  | _ => True

/-- What else happens leaves the tables in use, and does not write to them. -/
def SparesTables (live : ρ → Set ℕ) (w : Spaces ρ) : Op ρ → Prop
  | .rest mem => ∀ e ∈ w.spaces, ∀ g ∈ w.tables e.1, g ∈ live mem.frames ∧ mem.table g = w.mem.mem.table g
  | _ => True

instance {V : VirtAddrApi} {w : Spaces ρ} : (op : Op ρ) → Decidable (Outside V w op)
  | .call i c => inferInstanceAs (Decidable (∀ e ∈ w.spaces[i]?, CallOutside V w.mem e.2 c))
  | .new => isTrue trivial
  | .rest _ => isTrue trivial

/-- The address spaces are orderly.  If every table that was given back was empty, then the tables of each show
its pages, and no two have a table in common. -/
structure Separate (P : AddrApi) (live : ρ → Set ℕ) (kzone : ℕ) (w : Spaces ρ) : Prop where
  orderly : ∀ e ∈ w.spaces, e.2.Orderly P
  shows : w.mem.tidy = true → ∀ e ∈ w.spaces, ShowsPages live kzone e.1 w.mem.mem (pagesOf P e.2)
  disjoint : w.mem.tidy = true → ∀ (i j : ℕ) (e e' : ℕ × VirtMapper), i ≠ j →
    w.spaces[i]? = some e → w.spaces[j]? = some e' → Disjoint (w.tables e.1) (w.tables e'.1)

variable {K : PagingEnv ρ} {P : AddrApi} {live : ρ → Set ℕ} {kzone cr3 c : ℕ} {w w' : Spaces ρ}
  {s s' : PagedMem ρ} {m m' : VirtMapper} {pages : Set PageEntry} {old new : PageTree}

/-- Tables that nothing was written to show what they showed. -/
theorem shows_congr (h : ShowsPages live kzone cr3 s.mem pages)
    (hkeeps : ∀ g ∈ (PageTree.read s.mem.table 3 cr3).places, g ∈ live s'.mem.frames ∧ s'.mem.table g = s.mem.table g) :
    PageTree.read s'.mem.table 3 cr3 = PageTree.read s.mem.table 3 cr3 ∧ ShowsPages live kzone cr3 s'.mem pages := by
  have hread := PageTree.read_congr fun g hg => (hkeeps g hg).2
  refine ⟨hread, ⟨hread ▸ h.separated, fun g hg => ?_, hread ▸ h.leaves⟩⟩
  rw [hread] at hg
  exact (hkeeps g hg).1

/-- **Another address space** shows what it showed, and gets no table that the changed one has now. -/
theorem shows_other (h : ShowsPages live kzone cr3 s.mem pages) (hlocal : PageTree.Local live s.mem s'.mem old new)
    (hdisjoint : Disjoint (PageTree.read s.mem.table 3 cr3).places old.places) :
    PageTree.read s'.mem.table 3 cr3 = PageTree.read s.mem.table 3 cr3 ∧ ShowsPages live kzone cr3 s'.mem pages ∧
      Disjoint (PageTree.read s'.mem.table 3 cr3).places new.places := by
  obtain ⟨hread, hshows⟩ : _ ∧ ShowsPages live kzone cr3 s'.mem pages :=
    shows_congr h fun g hg => hlocal.keeps g (h.inUse hg) (Set.disjoint_left.1 hdisjoint hg)
  refine ⟨hread, hshows, Set.disjoint_left.2 fun g hg hnew => ?_⟩
  rw [hread] at hg
  rcases hlocal.places g hnew with hold | hnot
  · exact Set.disjoint_left.1 hdisjoint hg hold
  · exact hnot (h.inUse hg)

theorem separate_start (mem : PageMem ρ) : (start mem).Separate P live kzone where
  orderly _ he := absurd he List.not_mem_nil
  shows _ _ he := absurd he List.not_mem_nil
  disjoint _ _ _ _ _ _ he := nomatch he

/-- Another space is added, with tables of its own. -/
theorem Separate.add (h : w.Separate P live kzone) (htidy : s'.tidy = w.mem.tidy) (hm : m.Orderly P)
    (hshows : ShowsPages live kzone c s'.mem (pagesOf P m))
    (hlocal : PageTree.Local live w.mem.mem s'.mem .absent (PageTree.read s'.mem.table 3 c)) :
    Separate P live kzone ⟨s', w.spaces ++ [(c, m)]⟩ := by
  have hother : w.mem.tidy = true → ∀ e ∈ w.spaces, _ := fun ht e he =>
    shows_other (h.shows ht e he) hlocal (Set.disjoint_empty _)
  have hcases : ∀ (i : ℕ) e, (w.spaces ++ [(c, m)])[i]? = some e →
      w.spaces[i]? = some e ∨ i = w.spaces.length ∧ e = (c, m) := by
    intro i e he
    rw [List.getElem?_append] at he
    split_ifs at he with hlt
    · exact Or.inl he
    · rw [List.getElem?_singleton] at he
      split_ifs at he with hzero
      exact Or.inr ⟨by omega, (Option.some.inj he).symm⟩
  refine ⟨fun e he => ?_, fun ht e he => ?_, fun ht i j e e' hne he he' => ?_⟩
  · rcases List.mem_append.1 he with he | he
    · exact h.orderly e he
    · obtain rfl := List.mem_singleton.1 he
      exact hm
  · rcases List.mem_append.1 he with he | he
    · exact (hother (htidy ▸ ht) e he).2.1
    · obtain rfl := List.mem_singleton.1 he
      exact hshows
  · rw [htidy] at ht
    rcases hcases i e he with hi | ⟨hi, rfl⟩ <;> rcases hcases j e' he' with hj | ⟨hj, rfl⟩
    · rw [tables, tables, (hother ht e (List.mem_of_getElem? hi)).1, (hother ht e' (List.mem_of_getElem? hj)).1]
      exact h.disjoint ht i j e e' hne hi hj
    · exact (hother ht e (List.mem_of_getElem? hi)).2.2
    · exact (hother ht e' (List.mem_of_getElem? hj)).2.2.symm
    · exact absurd (hi.trans hj.symm) hne

/-- One space changes. -/
theorem Separate.change {i : ℕ} (h : w.Separate P live kzone) (hi : w.spaces[i]? = some (c, m))
    (hturns : Turns live kzone c w.mem s' (pagesOf P m) (pagesOf P m')) (hm' : m'.Orderly P) :
    Separate P live kzone ⟨s', w.spaces.set i (c, m')⟩ := by
  have hself := List.mem_of_getElem? hi
  have hother : s'.tidy = true → ∀ j e, j ≠ i → w.spaces[j]? = some e → _ := fun ht j e hne he =>
    shows_other (h.shows (hturns.tidy ht) e (List.mem_of_getElem? he))
      (hturns.shows ht (h.shows (hturns.tidy ht) _ hself)).2 (h.disjoint (hturns.tidy ht) j i e _ hne he hi)
  have hcases : ∀ (j : ℕ) e, (w.spaces.set i (c, m'))[j]? = some e →
      j = i ∧ e = (c, m') ∨ j ≠ i ∧ w.spaces[j]? = some e := by
    intro j e he
    rw [List.getElem?_set] at he
    split_ifs at he with heq hlt
    · exact Or.inl ⟨heq.symm, (Option.some.inj he).symm⟩
    · exact Or.inr ⟨fun hji => heq hji.symm, he⟩
  refine ⟨fun e he => ?_, fun ht e he => ?_, fun ht j k e e' hne he he' => ?_⟩
  · obtain ⟨j, he⟩ := List.mem_iff_getElem?.1 he
    rcases hcases j e he with ⟨-, rfl⟩ | ⟨-, he⟩
    · exact hm'
    · exact h.orderly e (List.mem_of_getElem? he)
  · obtain ⟨j, he⟩ := List.mem_iff_getElem?.1 he
    rcases hcases j e he with ⟨-, rfl⟩ | ⟨hne, he⟩
    · exact (hturns.shows ht (h.shows (hturns.tidy ht) _ hself)).1
    · exact (hother ht j e hne he).2.1
  · rcases hcases j e he with ⟨hji, rfl⟩ | ⟨hj, hje⟩ <;> rcases hcases k e' he' with ⟨hki, rfl⟩ | ⟨hk, hke⟩
    · exact absurd (hji.trans hki.symm) hne
    · exact (hother ht k e' hk hke).2.2.symm
    · exact (hother ht j e hj hje).2.2
    · rw [tables, tables, (hother ht j e hj hje).1, (hother ht k e' hk hke).1]
      exact h.disjoint (hturns.tidy ht) j k e e' hne hje hke

/-- **Every step keeps the address spaces apart.** -/
theorem step_separate (hK : K.Sound live) (hkzone : IsFrame kzone) {op : Op ρ} (h : w.Separate K.phys live kzone)
    (hproper : op.Proper K.phys live) (hout : Outside K.virt w op) (hspares : SparesTables live w op)
    (he : step K kzone w op = some w') : w'.Separate K.phys live kzone := by
  cases op with
  | new =>
    obtain ⟨⟨s', c⟩, hnew, rfl⟩ := Option.map_eq_some_iff.1 he
    obtain ⟨htidy, hshows, hlocal⟩ := newTables_spec hK hkzone hnew
    exact h.add htidy orderly_new (by rw [pagesOf_new]; exact hshows) hlocal
  | call i op =>
    rw [step] at he
    cases hi : w.spaces[i]? with
    | none =>
      rw [hi] at he
      exact Option.some.inj he ▸ h
    | some e =>
      obtain ⟨c, m⟩ := e
      rw [hi] at he
      obtain ⟨⟨s', m'⟩, hcall, rfl⟩ := Option.map_eq_some_iff.1 he
      have hm := h.orderly _ (List.mem_of_getElem? hi)
      obtain ⟨hturns, hm'⟩ : Turns live kzone c w.mem s' _ _ ∧ _ := call_turns hK hm hproper (hout _ hi) hcall
      exact h.change hi hturns hm'
  | rest mem =>
    obtain rfl := Option.some.inj he
    have hsame : w.mem.tidy = true → ∀ e ∈ w.spaces, _ := fun ht e he =>
      @shows_congr _ _ _ _ _ ⟨mem, w.mem.tidy⟩ _ (h.shows ht e he) (hspares e he)
    refine ⟨h.orderly, fun ht e he => (hsame ht e he).2, fun ht i j e e' hne hi hj => ?_⟩
    have hread := (hsame ht e (List.mem_of_getElem? hi)).1
    have hread' := (hsame ht e' (List.mem_of_getElem? hj)).1
    rw [tables, tables]
    simp only [hread, hread']
    exact h.disjoint ht i j e e' hne hi hj

/-- **In every run the processor finds what the regions say**, below the kernel; the top table has the entry of the
kernel, and no two address spaces have a table in common. -/
theorem run_translates (hK : K.Sound live) (hkzone : IsFrame kzone) (mem : PageMem ρ) (ops : List (Op ρ))
    (hproper : ∀ op ∈ ops, op.Proper K.phys live) (hout : Along (step K kzone) (Outside K.virt) (start mem) ops)
    (hspares : Along (step K kzone) (SparesTables live) (start mem) ops)
    (hrun : run (step K kzone) (start mem) ops = some w) (htidy : w.mem.tidy = true) :
    (∀ cr3 m, (cr3, m) ∈ w.spaces → (w.mem.mem.table cr3).entry 511 = some (higherHalfPagePointer kzone) ∧
      ∀ a pa flags, Canonical a → a < KERNEL_VMA →
        (PageTree.translate w.mem.mem.table cr3 a = some (pa, flags) ↔ m.Translates K.phys a pa flags)) ∧
    ∀ (i j : ℕ) (e e' : ℕ × VirtMapper), i ≠ j → w.spaces[i]? = some e → w.spaces[j]? = some e' →
      Disjoint (w.tables e.1) (w.tables e'.1) := by
  have hseparate : w.Separate K.phys live kzone :=
    run_keeps (fun w => w.Separate K.phys live kzone)
      (fun w op w' h hP he => step_separate hK hkzone h hP.1.1 hP.1.2 hP.2 he) (separate_start mem)
      (((along_of_forall hproper).and hout).and hspares) hrun
  refine ⟨fun c m he => ⟨?_, fun a pa flags ha hlt => ?_⟩, hseparate.disjoint htidy⟩
  · have hleaf := ((hseparate.shows htidy _ he).leaves [511] (higherHalfPagePointer kzone)).2 (Set.mem_insert _ _)
    rw [PageTree.read, leafAt_table_cons] at hleaf
    exact PageTree.leafAt_nil_node hleaf
  · exact (hseparate.orderly _ he).translate_iff (hseparate.shows htidy _ he) ha hlt

/-- Frames in order, and no memory for layouts. -/
def shelf : PagingEnv (ℕ × List ℕ) where
  frames := PageTables.pages
  alloc r _ := some (r, none)
  dealloc r _ := some r
  phys := MemoryRegionType.physAddr
  virt := virtAddr

theorem shelf_sound : shelf.Sound fun r => {f | f ∈ r.2} where
  fresh := PageTables.pages_fresh
  alloc _ _ _ _ h := by rw [(Prod.mk.inj (Option.some.inj h)).1]
  dealloc _ _ _ h := by rw [Option.some.inj h]
  phys := MemoryRegionType.physAddr_isPhys
  virt := virtAddr_isVirt

def dataFlags : PageMappingFlags := .READ ||| .WRITE ||| .USER

/-- A page of memory that can be read and written. -/
def dataPage (addr : ℕ) : VirtLayoutElement :=
  ⟨.mem ⟨addr, PAGE_SIZE⟩, PAGE_SIZE, .fromMappingFlags dataFlags, dataFlags⟩

def dataLayout (addr : ℕ) : VirtLayout := .ofVec [dataPage addr] .virtMem

theorem backed_dataPage {addr : ℕ} (hd : PAGE_SIZE ∣ addr) (hlt : addr + PAGE_SIZE < 2 ^ 52) :
    (dataPage addr).Backed MemoryRegionType.physAddr := by
  have hzone : (dataPage addr).asPhysZone MemoryRegionType.physAddr = some (some (.new addr PAGE_SIZE)) :=
    if_neg (show ¬ (!(dataPage 0).flags.present) = true by decide)
  have hflags : (dataPage addr).flags = .fromMappingFlags dataFlags := rfl
  refine ⟨⟨dvd_rfl, (by decide : PAGE_SIZE < usizeMod), _, hzone⟩, hflags, fun r hr => ?_⟩
  obtain rfl := Option.some.inj (Option.some.inj (hzone.symm.trans hr))
  have haddr : (AddrRange.new addr PAGE_SIZE).addr = addr :=
    alignDown_of_dvd ((Nat.le_add_right _ _).trans_lt hlt |>.trans (by decide)) hd
  rw [haddr]
  exact hlt

theorem unused_dataLayout {addr : ℕ} (hd : PAGE_SIZE ∣ addr) (hlt : addr + PAGE_SIZE < 2 ^ 52) :
    Unused MemoryRegionType.physAddr (dataLayout addr) := by
  refine ⟨sound_ofVec (fun e he => ?_) _, rfl, (by decide : total [dataPage 0] < usizeMod)⟩
  obtain rfl := List.mem_singleton.1 he
  exact backed_dataPage hd hlt

/-- A page far from the first ones. -/
def farPage : VirtRange := ⟨0x8040201000, PAGE_SIZE⟩

/-- The closure that adds a page. -/
def addPage : AllocFunc (PagedMem (ℕ × List ℕ)) := fun s l => some (s, l.push (dataPage 0x201000), .ok ())

/-- Two address spaces, which share a page until the second one unmaps it. -/
def twoSpaces : List (Op (ℕ × List ℕ)) :=
  [.rest ⟨fun _ _ => 0, (1, [])⟩, .new, .new, .call 0 (.map (dataLayout 0x200000)),
    .call 1 (.mapAt (dataLayout 0x201000) farPage), .call 0 (.remap ⟨0x1000, PAGE_SIZE⟩ .virtMem addPage),
    .call 1 (.unmap farPage .virtMem)]

theorem run_translates_twoSpaces : ∃ w, run (step shelf 0xfff000) (start ⟨fun _ _ => 0, (1, [])⟩) twoSpaces = some w ∧
    w.spaces.length = 2 ∧ ∀ cr3 m, (cr3, m) ∈ w.spaces → ∀ a pa flags, Canonical a → a < KERNEL_VMA →
      (PageTree.translate w.mem.mem.table cr3 a = some (pa, flags) ↔ m.Translates shelf.phys a pa flags) := by
  have hrun : (run (step shelf 0xfff000) (start ⟨fun _ _ => 0, (1, [])⟩) twoSpaces).map
      (fun w => (w.mem.tidy, w.spaces.length)) = some (true, 2) := by decide +kernel
  have hout : Along (step shelf 0xfff000) (Outside virtAddr) (start ⟨fun _ _ => 0, (1, [])⟩) twoSpaces := by
    decide +kernel
  have hadd : Resizes MemoryRegionType.physAddr (fun r : ℕ × List ℕ => {f | f ∈ r.2}) addPage := by
    intro s l s₁ l₁ result h
    obtain ⟨rfl, hpush⟩ := Prod.mk.inj (Option.some.inj h)
    obtain ⟨rfl, -⟩ := Prod.mk.inj hpush
    refine ⟨.refl _ _, [.push (dataPage 0x201000)], rfl, fun e he => ?_⟩
    obtain rfl := List.mem_singleton.1 he
    exact backed_dataPage (by decide) (by decide)
  obtain ⟨w, hw, heq⟩ := Option.map_eq_some_iff.1 hrun
  obtain ⟨htidy, hlen⟩ := Prod.mk.inj heq
  refine ⟨w, hw, hlen, fun c m he => ((run_translates shelf_sound ⟨by decide, by decide⟩ _ twoSpaces ?_ hout ?_ hw
    htidy).1 c m he).2⟩
  · simp only [twoSpaces, List.forall_mem_cons]
    exact ⟨trivial, trivial, trivial, unused_dataLayout (by decide) (by decide),
      unused_dataLayout (by decide) (by decide), hadd, trivial, fun _ h => absurd h List.not_mem_nil⟩
  · exact ⟨fun e he => absurd he List.not_mem_nil, fun _ _ => ⟨trivial, fun _ _ => ⟨trivial, fun _ _ => ⟨trivial,
      fun _ _ => ⟨trivial, fun _ _ => ⟨trivial, fun _ _ => ⟨trivial, fun _ _ => trivial⟩⟩⟩⟩⟩⟩⟩

end Spaces
end AuroraOs
