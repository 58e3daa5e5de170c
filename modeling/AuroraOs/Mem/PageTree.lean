import AuroraOs.Lib.Radix
import AuroraOs.Mem.PageTableCount

/-!
# The tree of page tables

The tables that are reached from a table are a radix tree.  A word with the `HUGE` flag maps a large page,
and the one with the `GLOBAL` flag points to the tables of the kernel, which all address spaces share: the
tree ends at both.

`map_internal` adds a leaf to the tree, or takes one away, and changes no other leaf.  To take one away is
right only if no table is dropped that has other entries.
-/

namespace AuroraOs

open PageTableFlags Radix

/-- The tables below an entry, as a tree. -/
abbrev PageTree := Node (Fin 512) ℕ PageTablePointer

/-- The tree ends at this word. -/
def EndsTree (w : PageTablePointer) : Prop := w &&& (HUGE ||| GLOBAL) ≠ 0

instance (w : PageTablePointer) : Decidable (EndsTree w) := inferInstanceAs (Decidable (_ ≠ _))

namespace PageTree

open Node

/-- What is reached through an entry, with `depth` levels of tables below it. -/
def node (tables : ℕ → PageTable) : ℕ → Option PageTablePointer → PageTree
  | _, none => absent
  | 0, some w => leaf w
  | depth + 1, some w =>
      if EndsTree w then leaf w
      else table w.addr (tables w.addr).count fun i => node tables depth ((tables w.addr).entry i)

/-- The tree of a table, with `depth` levels of tables below it. -/
def read (tables : ℕ → PageTable) (depth frame : ℕ) : PageTree :=
  table frame (tables frame).count fun i => node tables depth ((tables frame).entry i)

variable {tables tables' : ℕ → PageTable} {depth frame : ℕ} {i j : Fin 512} {w ptr : PageTablePointer}
  {e : Option PageTablePointer}

@[simp] theorem node_none : node tables depth none = absent := by
  cases depth <;> rfl

theorem node_zero : node tables 0 (some w) = leaf w := rfl

theorem node_ends (h : EndsTree w) : node tables depth (some w) = leaf w := by
  cases depth with
  | zero => rfl
  | succ depth => exact if_pos h

theorem node_table (h : ¬ EndsTree w) : node tables (depth + 1) (some w) = read tables depth w.addr := if_neg h

theorem present_node : (node tables depth e).present = e.isSome := by
  cases e with
  | none => rw [node_none]; rfl
  | some w =>
    cases depth with
    | zero => rfl
    | succ depth =>
      by_cases h : EndsTree w
      · rw [node_ends h]
        rfl
      · rw [node_table h]
        rfl

/-- The tree depends on the tables in it only. -/
theorem node_congr (h : ∀ g ∈ (node tables depth e).places, tables' g = tables g) :
    node tables' depth e = node tables depth e := by
  induction depth generalizing e with
  | zero =>
    cases e with
    | none => rfl
    | some w => rfl
  | succ depth ih =>
    cases e with
    | none => rfl
    | some w =>
      by_cases hw : EndsTree w
      · rw [node_ends hw, node_ends hw]
      · rw [node_table hw] at h ⊢
        rw [node_table hw, read, read, h w.addr mem_places_self]
        congr 1
        funext i
        exact ih fun g hg => h g (places_sub i hg)

theorem read_congr (h : ∀ g ∈ (read tables depth frame).places, tables' g = tables g) :
    read tables' depth frame = read tables depth frame := by
  rw [read, read, h frame mem_places_self]
  congr 1
  funext i
  exact node_congr fun g hg => h g (places_sub i hg)

theorem places_node (i : Fin 512) : (node tables depth ((tables frame).entry i)).places ⊆
    (read tables depth frame).places := fun _ hg => mem_places.2 (Or.inr ⟨i, hg⟩)

theorem places_below (hw : (tables frame).entry i = some w) (h : ¬ EndsTree w) :
    (read tables depth w.addr).places ⊆ (read tables (depth + 1) frame).places := by
  have hnode := @places_node tables (depth + 1) frame i
  rwa [hw, node_table h] at hnode

theorem separated_below (hw : (tables frame).entry i = some w) (h : ¬ EndsTree w)
    (hsep : (read tables (depth + 1) frame).Separated) : (read tables depth w.addr).Separated := by
  have hnode : (node tables (depth + 1) ((tables frame).entry i)).Separated := hsep.2.2 i
  rwa [hw, node_table h] at hnode

/-- The way goes on in a table. -/
theorem way_below (hw : (tables frame).entry i = some w) {path : List (Fin 512)}
    (hway : (read tables (depth + 1) frame).Way (i :: j :: path)) :
    ¬ EndsTree w ∧ (read tables depth w.addr).Way (j :: path) := by
  have hnode : (node tables (depth + 1) ((tables frame).entry i)).Way (j :: path) := hway
  rw [hw] at hnode
  have hends : ¬ EndsTree w := by
    intro hends
    rw [node_ends hends] at hnode
    exact hnode
  rw [node_table hends] at hnode
  exact ⟨hends, hnode⟩

/-- **What changes at one entry**, or below it, changes nothing else in the table. -/
theorem read_of_change (hsep : (read tables depth frame).Separated)
    (hagree : ∀ g ∈ (read tables depth frame).places, g ≠ frame →
      g ∉ (node tables depth ((tables frame).entry i)).places → tables' g = tables g)
    (hentry : (tables' frame).entry = Function.update (tables frame).entry i e) :
    read tables' depth frame = table frame (tables' frame).count
      (Function.update (fun j => node tables depth ((tables frame).entry j)) i (node tables' depth e)) := by
  obtain ⟨hself, hdisjoint, -⟩ := hsep
  rw [read, hentry]
  congr 1
  funext j
  rcases eq_or_ne j i with rfl | hne
  · rw [Function.update_self, Function.update_self]
  · rw [Function.update_of_ne hne, Function.update_of_ne hne]
    refine node_congr fun g hg => hagree g (places_sub j hg) ?_ fun hgi => ?_
    · rintro rfl
      exact hself j hg
    · exact Set.disjoint_left.1 (hdisjoint j i hne) hg hgi

/-! ### The walk of the processor -/

/-- The word that the processor comes to with the indices of an address. -/
def lookup (tables : ℕ → PageTable) : ℕ → ℕ → List (Fin 512) → Option PageTablePointer
  | _, _, [] => none
  | 0, frame, i :: _ => (tables frame).entry i
  | depth + 1, frame, i :: path =>
      ((tables frame).entry i).bind fun w =>
        if EndsTree w then some w else lookup tables depth w.addr path

theorem lookup_eq (q : List (Fin 512)) : lookup tables depth frame q = (read tables depth frame).walk q := by
  induction q generalizing depth frame with
  | nil => cases depth <;> rfl
  | cons i q ih =>
    rw [read, walk_table_cons]
    cases hw : (tables frame).entry i with
    | none =>
      rw [node_none, walk_absent]
      cases depth with
      | zero => exact hw
      | succ depth => rw [lookup, hw, Option.bind_none]
    | some w =>
      cases depth with
      | zero => exact hw.trans walk_leaf.symm
      | succ depth =>
        rw [lookup, hw, Option.bind_some]
        split_ifs with h
        · rw [node_ends h, walk_leaf]
        · rw [node_table h, ih]

/-! ### What a change leaves as it is -/

section Local

variable {ρ : Type} {F : FrameAllocator ρ} {live : ρ → Set ℕ} {s s₁ s' : PageMem ρ} {old mid new child : PageTree}
  {path : List (Fin 512)} {dropped : Bool}

/-- A tree becomes another one, in frames that it had or that were not in use; the tables in other frames
stay as they are. -/
structure Local (live : ρ → Set ℕ) (s s' : PageMem ρ) (old new : PageTree) : Prop where
  separated : new.Separated
  inUse : new.places ⊆ live s'.frames
  places : ∀ g ∈ new.places, g ∈ old.places ∨ g ∉ live s.frames
  keeps : ∀ g ∈ live s.frames, g ∉ old.places → g ∈ live s'.frames ∧ s'.table g = s.table g

theorem Local.refl (hsep : old.Separated) (hlive : old.places ⊆ live s.frames) : Local live s s old old where
  separated := hsep
  inUse := hlive
  places _ hg := Or.inl hg
  keeps _ hg _ := ⟨hg, rfl⟩

/-- A tree goes. -/
theorem Local.gone : Local live s s old absent where
  separated := trivial
  inUse := Set.empty_subset _
  places _ hg := absurd hg (Set.notMem_empty _)
  keeps _ hg _ := ⟨hg, rfl⟩

theorem Local.trans (h : Local live s s₁ old mid) (h' : Local live s₁ s' mid new) : Local live s s' old new where
  separated := h'.separated
  inUse := h'.inUse
  places g hg := by
    rcases h'.places g hg with hmid | hnot
    · exact h.places g hmid
    · by_contra hcon
      obtain ⟨hold, hlive⟩ := not_or.1 hcon
      exact hnot (h.keeps g (not_not.1 hlive) hold).1
  keeps g hg hold := by
    obtain ⟨hlive, htable⟩ := h.keeps g hg hold
    have hmid : g ∉ mid.places := fun hmem => (h.places g hmem).elim hold (· hg)
    obtain ⟨hlive', htable'⟩ := h'.keeps g hlive hmid
    exact ⟨hlive', htable'.trans htable⟩

/-- Another tree, in frames of its own, is what it was. -/
theorem Local.read_eq {k g : ℕ} (h : Local live s s' old new)
    (hlive : (read s.table k g).places ⊆ live s.frames)
    (hdisjoint : Disjoint (read s.table k g).places old.places) : read s'.table k g = read s.table k g :=
  read_congr fun _ hx => (h.keeps _ (hlive hx) (Set.disjoint_left.1 hdisjoint hx)).2

/-- A tree below an entry changes, and so does the entry. -/
theorem Local.write (hsep : (read s.table depth frame).Separated)
    (hlive : (read s.table depth frame).places ⊆ live s.frames)
    (hchild : Local live s s₁ (node s.table depth ((s.table frame).entry i)) child)
    (hother : ∀ g, g ≠ frame → s'.table g = s₁.table g) (hframes : live s'.frames = live s₁.frames)
    (hentry : (s'.table frame).entry = Function.update (s.table frame).entry i e)
    (he : node s'.table depth e = child) :
    read s'.table depth frame = table frame (s'.table frame).count
        (Function.update (fun j => node s.table depth ((s.table frame).entry j)) i child) ∧
      Local live s s' (read s.table depth frame) (read s'.table depth frame) := by
  have hself : frame ∉ (node s.table depth ((s.table frame).entry i)).places := hsep.1 i
  have hbelow : (node s.table depth ((s.table frame).entry i)).places ⊆ (read s.table depth frame).places :=
    places_node i
  have hkeeps : ∀ g ∈ live s.frames, g ∉ (node s.table depth ((s.table frame).entry i)).places →
      g ∈ live s'.frames ∧ (g ≠ frame → s'.table g = s.table g) := by
    intro g hg hnot
    obtain ⟨hg', htable⟩ := hchild.keeps g hg hnot
    exact ⟨hframes ▸ hg', fun hne => (hother g hne).trans htable⟩
  have hread : read s'.table depth frame = table frame (s'.table frame).count
      (Function.update (fun j => node s.table depth ((s.table frame).entry j)) i child) := by
    rw [← he]
    exact read_of_change hsep (fun g hg hne hnot => (hkeeps g (hlive hg) hnot).2 hne) hentry
  have hplaces : ∀ g ∈ (read s'.table depth frame).places,
      g ∈ (read s.table depth frame).places ∨ g ∈ child.places := by
    intro g hg
    rw [hread] at hg
    exact mem_places_update hg
  refine ⟨hread, ?_, fun g hg => ?_, fun g hg => ?_, fun g hg hnot => ?_⟩
  · rw [hread]
    refine Separated.update hsep hchild.separated fun g hg => ?_
    exact (hchild.places g hg).imp_right fun hnot hmem => hnot (hlive hmem)
  · by_cases hchildmem : g ∈ child.places
    · rw [hframes]
      exact hchild.inUse hchildmem
    · rw [hread] at hg
      rcases mem_places.1 hg with rfl | ⟨j, hj⟩
      · exact (hkeeps _ (hlive mem_places_self) hself).1
      · rcases eq_or_ne j i with rfl | hne
        · rw [Function.update_self] at hj
          exact absurd hj hchildmem
        · rw [Function.update_of_ne hne] at hj
          refine (hkeeps g (hlive (places_sub j hj)) fun hgi => ?_).1
          exact Set.disjoint_left.1 (hsep.2.1 j i hne) hj hgi
  · rcases hplaces g hg with hmem | hmem
    · exact Or.inl hmem
    · exact (hchild.places g hmem).imp_left fun h => hbelow h
  · obtain ⟨hg', htable⟩ := hkeeps g hg fun h => hnot (hbelow h)
    refine ⟨hg', htable ?_⟩
    rintro rfl
    exact hnot mem_places_self

/-- The frame itself goes. -/
theorem Local.drop (hchild : Local live s s₁ (node s.table depth ((s.table frame).entry i)) child)
    (hother : ∀ g, g ≠ frame → s'.table g = s₁.table g) (hframes : live s'.frames = live s₁.frames \ {frame}) :
    Local live s s' (read s.table depth frame) absent where
  separated := trivial
  inUse := Set.empty_subset _
  places _ hg := absurd hg (Set.notMem_empty _)
  keeps g hg hnot := by
    have hne : g ≠ frame := by
      rintro rfl
      exact hnot mem_places_self
    obtain ⟨hg', htable⟩ := hchild.keeps g hg fun h => hnot (places_node i h)
    rw [hframes]
    exact ⟨⟨hg', hne⟩, (hother g hne).trans htable⟩

/-- A tree that is reached through an entry changes. -/
theorem Local.below {x : Option PageTablePointer} (hw : (s.table frame).entry i = some w) (hends : ¬ EndsTree w)
    (hsep : (read s.table (depth + 1) frame).Separated)
    (hlive : (read s.table (depth + 1) frame).places ⊆ live s.frames)
    (hchild : Local live s s' (read s.table depth w.addr) (read s'.table depth w.addr)) :
    Local live s s' (read s.table (depth + 1) frame) (read s'.table (depth + 1) frame) ∧
      ((∀ q, (read s'.table depth w.addr).leafAt q = if q = path then x else (read s.table depth w.addr).leafAt q) →
        ∀ q, (read s'.table (depth + 1) frame).leafAt q =
          if q = i :: path then x else (read s.table (depth + 1) frame).leafAt q) := by
  have hnode : node s.table (depth + 1) ((s.table frame).entry i) = read s.table depth w.addr := by
    rw [hw, node_table hends]
  have hself : frame ∉ (read s.table depth w.addr).places := hnode ▸ hsep.1 i
  have hframe := (hchild.keeps frame (hlive mem_places_self) hself).2
  have hentry : (s'.table frame).entry = Function.update (s.table frame).entry i (some w) := by
    rw [hframe, ← hw, Function.update_eq_self]
  obtain ⟨hread, hlocal⟩ := Local.write hsep hlive (hnode.symm ▸ hchild) (fun _ _ => rfl) rfl hentry
    (node_table hends)
  refine ⟨hlocal, fun hleaf q => ?_⟩
  rw [hread]
  refine leafAt_update (fun q => ?_) q
  rw [hleaf q, hnode]

/-! ### Mapping a page -/

/-- The word of a table that is allocated. -/
theorem not_endsTree_parent {f : ℕ} (hf : IsFrame f) :
    ¬ EndsTree (.new f (PARENT_FLAGS ||| PRESENT)) := by
  rw [EndsTree, hf.new_and (by decide)]
  decide

/-- A table that is allocated is another entry, without leaves. -/
theorem getOrAlloc_grows (hF : F.Fresh live) (hsep : (read s.table (depth + 1) frame).Separated)
    (hlive : (read s.table (depth + 1) frame).places ⊆ live s.frames) {g : ℕ}
    (hway : (read s.table (depth + 1) frame).Way (i :: j :: path))
    (h : s.getOrAlloc F frame i PARENT_FLAGS = some (s₁, g)) :
    ∃ w, (s₁.table frame).entry i = some w ∧ ¬ EndsTree w ∧ w.addr = g ∧
      Local live s s₁ (read s.table (depth + 1) frame) (read s₁.table (depth + 1) frame) ∧
      (∀ q, (read s₁.table (depth + 1) frame).leafAt q = (read s.table (depth + 1) frame).leafAt q) ∧
      (read s₁.table depth g).Way (j :: path) := by
  cases hw : (s.table frame).entry i with
  | some w =>
    obtain ⟨rfl, rfl⟩ := PageMem.getOrAlloc_of_entry hw h
    obtain ⟨hends, hway'⟩ := way_below hw hway
    exact ⟨w, hw, hends, rfl, .refl hsep hlive, fun _ => rfl, hway'⟩
  | none =>
    obtain ⟨hfresh, hin, hg, hother, hentry, -⟩ :=
      PageMem.getOrAlloc_of_absent hF (hlive mem_places_self) (by decide) hw h
    have hne : g ≠ frame := by
      rintro rfl
      exact hfresh (hlive mem_places_self)
    have haddr : (PageTablePointer.new g (PARENT_FLAGS ||| PRESENT)).addr = g := hg.addr_new (by decide)
    have hbare : read s₁.table depth g = table g 0 fun _ => absent := by
      have htable : s₁.table g = .cleared true := by rw [hother g hne, if_pos rfl]
      rw [read, htable, PageTable.count_cleared, PageTable.entry_cleared]
      simp
    have hchild : Local live s ⟨Function.update s.table g (.cleared true), s₁.frames⟩
        (node s.table (depth + 1) ((s.table frame).entry i)) (table g 0 fun _ => absent) := by
      refine ⟨by simp [Separated], fun x hx => ?_, fun x hx => ?_, fun x hx _ => ?_⟩
      · rcases mem_places.1 hx with rfl | ⟨k, hk⟩
        · exact hin ▸ Set.mem_insert _ _
        · cases hk
      · rcases mem_places.1 hx with rfl | ⟨k, hk⟩
        · exact Or.inr hfresh
        · cases hk
      · have hxg : x ≠ g := by
          rintro rfl
          exact hfresh hx
        exact ⟨hin ▸ Set.mem_insert_of_mem _ hx, Function.update_of_ne hxg _ _⟩
    have hnode : node s₁.table (depth + 1) (some (.new g (PARENT_FLAGS ||| PRESENT))) =
        table g 0 fun _ => absent := by
      rw [node_table (not_endsTree_parent hg), haddr, hbare]
    obtain ⟨hread, hlocal⟩ : _ ∧ Local live s s₁ _ _ := Local.write hsep hlive hchild
      (fun x hx => (hother x hx).trans (Function.update_apply _ _ _ _).symm) rfl hentry hnode
    refine ⟨_, by rw [hentry, Function.update_self], not_endsTree_parent hg, haddr, hlocal, fun q => ?_, ?_⟩
    · rw [hread]
      refine leafAt_update_same (fun q => ?_) q
      rw [leafAt_of_bare fun _ => rfl, hw, node_none, leafAt_absent]
    · rw [hbare]
      cases path <;> trivial

/-- **Mapping a page** adds a leaf at the end of the path, and changes no other one. -/
theorem mapFrom_grows (hF : F.Fresh live) (hptr : IsEntry ptr) (hpath : path ≠ [])
    (hlen : path.length ≤ depth + 1) (hends : path.length = depth + 1 ∨ EndsTree ptr)
    (hsep : (read s.table depth frame).Separated) (hlive : (read s.table depth frame).places ⊆ live s.frames)
    (hway : (read s.table depth frame).Way path) (h : s.mapFrom F ptr frame path = some s') :
    Local live s s' (read s.table depth frame) (read s'.table depth frame) ∧
      ∀ q, (read s'.table depth frame).leafAt q =
        if q = path then some ptr else (read s.table depth frame).leafAt q := by
  induction path generalizing s frame depth with
  | nil => exact absurd rfl hpath
  | cons i path ih =>
    cases path with
    | nil =>
      obtain ⟨t, ht, rfl⟩ := PageMem.set_eq_some h
      obtain ⟨hnone, hentry, -⟩ := PageTable.set_spec hptr ht
      have hleaf : ∀ tables, node tables depth (some ptr) = leaf ptr := by
        intro tables
        rcases hends with hend | hend
        · obtain rfl : depth = 0 := by simpa using hend.symm
          rfl
        · exact node_ends hend
      have hchild : Local live s s (node s.table depth ((s.table frame).entry i)) (leaf ptr) :=
        ⟨trivial, Set.empty_subset _, fun _ hg => absurd hg (Set.notMem_empty _), fun _ hg _ => ⟨hg, rfl⟩⟩
      obtain ⟨hread, hlocal⟩ : _ ∧ Local live s (s.write frame t) _ _ := Local.write hsep hlive hchild
        (fun g hg => by rw [PageMem.write_table, if_neg hg]) (congrArg live PageMem.write_frames)
        (by rw [PageMem.write_table, if_pos rfl, hentry]) (hleaf _)
      refine ⟨hlocal, fun q => ?_⟩
      rw [hread]
      refine leafAt_update (fun q => ?_) q
      rw [hnone, node_none, leafAt_absent, leafAt_leaf]
    | cons j path =>
      obtain ⟨⟨s₁, g⟩, halloc, h⟩ := Option.bind_eq_some_iff.1 h
      cases depth with
      | zero => exact absurd hlen (by simp)
      | succ depth =>
        obtain ⟨w, hw, hnot, rfl, hlocal, hsame, hway'⟩ := getOrAlloc_grows hF hsep hlive hway halloc
        obtain ⟨hchild, hleaf⟩ := ih (List.cons_ne_nil j path) (by simpa using hlen) (by simpa using hends)
          (separated_below hw hnot hlocal.separated) ((places_below hw hnot).trans hlocal.inUse) hway' h
        obtain ⟨hlocal', hleaf'⟩ := Local.below hw hnot hlocal.separated hlocal.inUse hchild
        refine ⟨hlocal.trans hlocal', fun q => ?_⟩
        rw [hleaf' hleaf q, hsame q]

/-! ### Unmapping a page -/

/-- What there is of a table that may have been dropped. -/
def left (tables : ℕ → PageTable) (depth frame : ℕ) (dropped : Bool) : PageTree :=
  if dropped then absent else read tables depth frame

/-- **An entry goes**, and the table with it if it counts one entry. -/
theorem remove_shrinks (hF : F.Fresh live)
    (hsep : (read s.table depth frame).Separated) (hlive : (read s.table depth frame).places ⊆ live s.frames)
    (hw : (s.table frame).entry i = some w)
    (hchild : Local live s s₁ (node s.table depth ((s.table frame).entry i)) absent)
    (hgoes : (node s.table depth ((s.table frame).entry i)).Goes path)
    (h : s₁.remove F frame i = some (s', dropped)) :
    Local live s s' (read s.table depth frame) (left s'.table depth frame dropped) ∧
      (dropped = true ↔ (read s.table depth frame).Goes (i :: path)) ∧
      ((read s.table depth frame).Tidy (i :: path) →
        (∀ q, leafAt q (absent : PageTree) =
          if q = path then none else (node s.table depth ((s.table frame).entry i)).leafAt q) →
        ∀ q, (left s'.table depth frame dropped).leafAt q =
          if q = i :: path then none else (read s.table depth frame).leafAt q) := by
  have hframe : s₁.table frame = s.table frame := (hchild.keeps frame (hlive mem_places_self) (hsep.1 i)).2
  rcases PageMem.remove_cases h with ⟨hnone, -, -⟩ | ⟨-, htable, hdropped, hframes⟩
  · rw [hframe, hw] at hnone
    cases hnone
  · rw [hframe] at htable hdropped
    have hother : ∀ g, g ≠ frame → s'.table g = s₁.table g := fun g hg => by
      rw [htable, Function.update_of_ne hg]
    have hone : dropped = true ↔ (s.table frame).count = 1 := by
      rw [hdropped, decide_eq_true_iff, PageTable.count_unset_eq_zero_iff]
    have hboth : dropped = true ↔ (read s.table depth frame).Goes (i :: path) :=
      hone.trans (and_iff_right hgoes).symm
    cases dropped with
    | true =>
      have hgone := hF.dealloc _ _ _ (if_pos rfl ▸ hframes)
      refine ⟨Local.drop hchild hother hgone, hboth, fun htidy hleaf q => ?_⟩
      exact leafAt_of_gone (htidy.2 hgoes (hone.1 rfl)) hleaf q
    | false =>
      have hentry : (s'.table frame).entry = Function.update (s.table frame).entry i none := by
        rw [htable, Function.update_self, PageTable.entry_unset]
      have hsame : s'.frames = s₁.frames := by simpa using hframes
      obtain ⟨hread, hlocal⟩ := Local.write hsep hlive hchild hother (congrArg live hsame) hentry node_none
      refine ⟨hlocal, hboth, fun _ hleaf q => ?_⟩
      show (read s'.table depth frame).leafAt q = _
      rw [hread]
      exact leafAt_update hleaf q

/-- A removal is tidy where the tables count their entries. -/
theorem tidy_of_counts (hcounts : ∀ g ∈ (read tables depth frame).places, ∃ dropable, (tables g).Counts dropable)
    (hleaf : (read tables depth frame).leafAt path = some w) : (read tables depth frame).Tidy path := by
  induction path generalizing depth frame with
  | nil => trivial
  | cons i path ih =>
    have hnode : (node tables depth ((tables frame).entry i)).leafAt path = some w := hleaf
    cases hw : (tables frame).entry i with
    | none =>
      rw [hw, node_none, leafAt_absent] at hnode
      cases hnode
    | some v =>
      constructor
      · show (node tables depth ((tables frame).entry i)).Tidy path
        rw [hw] at hnode ⊢
        cases depth with
        | zero => cases path <;> trivial
        | succ depth =>
          by_cases hends : EndsTree v
          · rw [node_ends hends]
            cases path <;> trivial
          · rw [node_table hends] at hnode ⊢
            exact ih (fun g hg => hcounts g (places_below hw hends hg)) hnode
      · intro _ hone j hj
        obtain ⟨dropable, hcount⟩ := hcounts frame mem_places_self
        have hrest := ((hcount.unset_eq_zero_iff hw).1 (PageTable.count_unset_eq_zero_iff.2 hone)).2 j hj
        rw [PageTable.present_eq] at hrest
        show node tables depth ((tables frame).entry j) = absent
        rw [Option.not_isSome_iff_eq_none.1 (Bool.eq_false_iff.1 hrest), node_none]

/-- **Unmapping a page** takes the leaf at the end of the path away, and changes no other one if no table is
dropped that has other entries.  The table itself is dropped if everything along the path goes. -/
theorem unmapFrom_shrinks (hF : F.Fresh live) (hpath : path ≠ []) (hlen : path.length ≤ depth + 1)
    (hsep : (read s.table depth frame).Separated) (hlive : (read s.table depth frame).places ⊆ live s.frames)
    (hleaf : ((read s.table depth frame).leafAt path).isSome = true)
    (h : s.unmapFrom F frame path = some (s', dropped)) :
    Local live s s' (read s.table depth frame) (left s'.table depth frame dropped) ∧
      (dropped = true ↔ (read s.table depth frame).Goes path) ∧
      ((read s.table depth frame).Tidy path → ∀ q, (left s'.table depth frame dropped).leafAt q =
          if q = path then none else (read s.table depth frame).leafAt q) := by
  induction path generalizing s s' frame depth dropped with
  | nil => exact absurd rfl hpath
  | cons i path ih =>
    obtain ⟨w, hw⟩ : ∃ w, (s.table frame).entry i = some w := by
      cases hw : (s.table frame).entry i with
      | some w => exact ⟨w, rfl⟩
      | none =>
        have hnode : ((node s.table depth ((s.table frame).entry i)).leafAt path).isSome = true := hleaf
        rw [hw, node_none, leafAt_absent] at hnode
        cases hnode
    cases path with
    | nil =>
      have hgoesNode : (node s.table depth ((s.table frame).entry i)).Goes [] := by
        rw [Goes]
        trivial
      obtain ⟨hlocal, hgoes, hrest⟩ := remove_shrinks hF hsep hlive hw .gone hgoesNode h
      exact ⟨hlocal, hgoes, fun htidy => hrest htidy (leafAt_of_leaf hleaf)⟩
    | cons j path =>
      obtain ⟨g, hget, h⟩ := Option.bind_eq_some_iff.1 h
      obtain ⟨⟨s₁, gone⟩, hunmap, h⟩ := Option.bind_eq_some_iff.1 h
      cases depth with
      | zero => exact absurd hlen (by simp)
      | succ depth =>
        rw [PageMem.get, PageTable.asRef_of_entry hw] at hget
        obtain rfl := Option.some.inj hget
        obtain ⟨a, ha⟩ := Option.isSome_iff_exists.1 hleaf
        obtain ⟨hnot, -⟩ := way_below hw (way_of_leafAt ha)
        have hnode : node s.table (depth + 1) ((s.table frame).entry i) = read s.table depth w.addr := by
          rw [hw, node_table hnot]
        have hleaf' : ((read s.table depth w.addr).leafAt (j :: path)).isSome = true := hnode ▸ hleaf
        obtain ⟨hchild, hgoes, hrest⟩ := ih (List.cons_ne_nil j path) (by simpa using hlen)
          (separated_below hw hnot hsep) ((places_below hw hnot).trans hlive) hleaf' hunmap
        have hbelow : (read s.table (depth + 1) frame).Tidy (i :: j :: path) →
            ∀ q, (left s₁.table depth w.addr gone).leafAt q =
              if q = j :: path then none else (read s.table depth w.addr).leafAt q := by
          intro htidy
          refine hrest ?_
          rw [← hnode]
          exact htidy.1
        cases gone with
        | true =>
          have hgoes' : (node s.table (depth + 1) ((s.table frame).entry i)).Goes (j :: path) := by
            rw [hnode]
            exact hgoes.1 rfl
          obtain ⟨hlocal, hdropped, hgone⟩ := remove_shrinks hF hsep hlive hw (hnode.symm ▸ hchild) hgoes' h
          refine ⟨hlocal, hdropped, fun htidy => hgone htidy ?_⟩
          rw [hnode]
          exact hbelow htidy
        | false =>
          obtain ⟨rfl, rfl⟩ := Prod.mk.inj (Option.some.inj h)
          obtain ⟨hlocal, hleaves⟩ := Local.below hw hnot hsep hlive hchild
          refine ⟨hlocal, iff_of_false Bool.false_ne_true fun hg => ?_, fun htidy => hleaves (hbelow htidy)⟩
          have hsub : (node s.table (depth + 1) ((s.table frame).entry i)).Goes (j :: path) := hg.1
          rw [hnode] at hsub
          exact Bool.false_ne_true (hgoes.2 hsub)

/-! ### What the processor finds -/

/-- **Other tables**, in frames of their own, give what they gave. -/
theorem Local.lookup_eq {k g : ℕ} (h : Local live s s' old new)
    (hin : (read s.table k g).places ⊆ live s.frames) (hdisjoint : Disjoint (read s.table k g).places old.places)
    (q : List (Fin 512)) : lookup s'.table k g q = lookup s.table k g q := by
  rw [PageTree.lookup_eq, PageTree.lookup_eq, h.read_eq hin hdisjoint]

section Lookup

variable (hF : F.Fresh live) (hpath : path ≠ []) (hlen : path.length ≤ depth + 1)
  (hsep : (read s.table depth frame).Separated) (hlive : (read s.table depth frame).places ⊆ live s.frames)

include hF hpath hlen hsep hlive

/-- **After a page is mapped**, the processor finds its word with the indices of the page, and what it found
before with all others. -/
theorem mapFrom_lookup (hptr : IsEntry ptr) (hends : path.length = depth + 1 ∨ EndsTree ptr)
    (hway : (read s.table depth frame).Way path) (h : s.mapFrom F ptr frame path = some s') (q : List (Fin 512)) :
    lookup s'.table depth frame q = if path <+: q then some ptr else lookup s.table depth frame q := by
  rw [lookup_eq, lookup_eq]
  exact walk_of_added (mapFrom_grows hF hptr hpath hlen hends hsep hlive hway h).2 q

/-- **After a page is unmapped**, the processor finds nothing with its indices, and what it found before with
all others, if the tables count their entries. -/
theorem unmapFrom_lookup (hcounts : ∀ g ∈ (read s.table depth frame).places, ∃ d, (s.table g).Counts d)
    (hleaf : (read s.table depth frame).leafAt path = some w)
    (h : s.unmapFrom F frame path = some (s', false)) (q : List (Fin 512)) :
    lookup s'.table depth frame q = if path <+: q then none else lookup s.table depth frame q := by
  rw [lookup_eq, lookup_eq]
  exact walk_of_removed hleaf ((unmapFrom_shrinks hF hpath hlen hsep hlive (Option.isSome_of_eq_some hleaf) h).2.2
    (tidy_of_counts hcounts hleaf)) q

end Lookup
end Local
end PageTree
end AuroraOs
