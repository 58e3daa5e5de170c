import AuroraOs.Mem.HeapRun

/-!
# Runs of one heap zone

For alignments up to `CHUNK_SIZE` a zone's free nodes are the gaps between its live pointers, each
gap one node: `alloc` cuts from the end of a node what `dealloc` gives back, and `dealloc` merges what
it gives back with the nodes on both sides.  A zone granted for a request has room for it.
-/

namespace AuroraOs

open Blocks Machine

variable {lo hi fs fs' ptr size : ℕ} {layout : Layout} {nodes nodes' before after : List HeapNode}
  {node node' other : HeapNode} {c : Carved}

/-! ### Cutting -/

/-- What `resize` cuts off is less than an alignment larger than what was asked for. -/
theorem resize_tight (h : NodeOk lo hi node) (hhi : hi ≤ usizeMod) (hpos : 0 < layout.size)
    (he : node.resize layout.size layout.align = (node', .shrink ptr) ∨
      node.resize layout.size layout.align = (node', .remove ptr)) :
    node.addr + node.size < ptr + layout.size + max layout.align CHUNK_SIZE := by
  obtain ⟨j, hj, hj64, -, -⟩ := layout.max_align
  have hend := h.le_hi
  rw [hj]
  unfold HeapNode.resize at he
  rw [hj] at he
  have hfits : layout.size ≤ node.size := by
    by_contra hlt
    simp [if_pos (show layout.size > node.size by omega)] at he
  rw [if_neg (by omega), alignDown_eq (by omega) (by omega)] at he
  have hlt := Nat.lt_div_mul_add (a := node.addr + (node.size - layout.size))
    (show 0 < 2 ^ j by positivity)
  have hptr : ptr = (node.addr + (node.size - layout.size)) / 2 ^ j * 2 ^ j := by
    simp only at he
    split_ifs at he
    all_goals simp only [Prod.mk.injEq, ResizeResult.shrink.injEq, ResizeResult.remove.injEq,
      reduceCtorEq, and_false, or_false, false_or] at he
    · exact he.2.symm
    · exact he.2.symm
  omega

/-- **The loop of `HeapZone::alloc`** cuts one node, or takes it off the list. -/
theorem allocFrom_split (he : HeapZone.allocFrom fs layout nodes = some (nodes', fs', c)) :
    ∃ (as : List HeapNode) (node node' : HeapNode) (bs : List HeapNode),
      nodes = as ++ node :: bs ∧ c.limit = node.addr + node.size ∧
      (node.resize layout.size layout.align = (node', ResizeResult.shrink c.ptr) ∧ nodes' = as ++ node' :: bs ∧
          fs' = fs - node.size + node'.size ∨
        node.resize layout.size layout.align = (node', ResizeResult.remove c.ptr) ∧ nodes' = as ++ bs ∧
          fs' = fs - node.size) := by
  induction nodes generalizing nodes' with
  | nil => simp [HeapZone.allocFrom] at he
  | cons node rest ih =>
    have hskip : (HeapZone.allocFrom fs layout rest).map (fun r => (node :: r.1, r.2))
        = some (nodes', fs', c) → ∃ (as : List HeapNode) (n n' : HeapNode) (bs : List HeapNode),
      node :: rest = as ++ n :: bs ∧ c.limit = n.addr + n.size ∧
      (n.resize layout.size layout.align = (n', ResizeResult.shrink c.ptr) ∧ nodes' = as ++ n' :: bs ∧
          fs' = fs - n.size + n'.size ∨
        n.resize layout.size layout.align = (n', ResizeResult.remove c.ptr) ∧ nodes' = as ++ bs ∧
          fs' = fs - n.size) := by
      intro hm
      obtain ⟨⟨rest', fs₁, c₁⟩, he', heq⟩ := Option.map_eq_some_iff.1 hm
      simp only [Prod.mk.injEq] at heq
      obtain ⟨rfl, rfl, rfl⟩ := heq
      obtain ⟨as, n, n', bs, rfl, hlimit, hcut⟩ := ih he'
      refine ⟨node :: as, n, n', bs, rfl, hlimit, hcut.imp ?_ ?_⟩
      · rintro ⟨hr, rfl, hfs⟩
        exact ⟨hr, rfl, hfs⟩
      · rintro ⟨hr, rfl, hfs⟩
        exact ⟨hr, rfl, hfs⟩
    rw [HeapZone.allocFrom] at he
    split_ifs at he
    · cases hr : node.resize layout.size layout.align with
      | mk node' r =>
        rw [hr] at he
        cases r with
        | shrink addr =>
          simp only [Option.some.injEq, Prod.mk.injEq] at he
          obtain ⟨rfl, rfl, rfl⟩ := he
          exact ⟨[], node, node', rest, rfl, rfl, Or.inl ⟨hr, rfl, rfl⟩⟩
        | remove addr =>
          simp only [Option.some.injEq, Prod.mk.injEq] at he
          obtain ⟨rfl, rfl, rfl⟩ := he
          exact ⟨[], node, node', rest, rfl, rfl, Or.inr ⟨hr, rfl, rfl⟩⟩
        | noCapacity => exact hskip he
    · exact hskip he

/-- For alignments up to `CHUNK_SIZE` the cut is what `dealloc` gives back. -/
theorem CarvedOk.limit_eq (h : CarvedOk lo hi layout c) (halign : layout.align ≤ CHUNK_SIZE)
    (htight : c.limit < c.ptr + layout.size + max layout.align CHUNK_SIZE) :
    c.limit = c.ptr + HeapZone.deallocSize layout := by
  obtain ⟨hdvd, hle, hlt⟩ := deallocSize_spec layout
  have h1 := h.dvd_ptr
  have h2 := h.dvd_limit
  have h3 := h.fits
  rw [max_eq_right halign, CHUNK_SIZE_eq] at hlt htight
  omega

/-- Cutting keeps the nodes apart, and counts off what it cut. -/
theorem allocFrom_separated (h : ∀ n ∈ nodes, NodeOk lo hi n) (hhi : hi ≤ usizeMod)
    (hpos : 0 < layout.size) (hs : Separated nodes) (hfs : fs = (nodes.map Block.size).sum)
    (he : HeapZone.allocFrom fs layout nodes = some (nodes', fs', c)) :
    Separated nodes' ∧ fs' + (c.limit - c.ptr) = fs ∧
      c.limit < c.ptr + layout.size + max layout.align CHUNK_SIZE := by
  obtain ⟨as, node, node', bs, rfl, hlimit, hcut⟩ := allocFrom_split he
  have hnode : NodeOk lo hi node := h node (by simp)
  have hr := resize_spec hnode hhi hpos
  have hsum : node.size ≤ fs := by
    rw [hfs]
    simp only [List.map_append, List.map_cons, List.sum_append, List.sum_cons]
    omega
  obtain ⟨has, hrest, hcross⟩ := List.pairwise_append.1 hs
  obtain ⟨hhead, hbs⟩ := List.pairwise_cons.1 hrest
  rcases hcut with ⟨hres, rfl, rfl⟩ | ⟨hres, rfl, rfl⟩
  · have htight := resize_tight hnode hhi hpos (Or.inl hres)
    rw [hres] at hr
    obtain ⟨-, haddr, hsize, hc⟩ := hr
    have hfits := hc.fits
    simp only at hfits
    refine ⟨List.pairwise_append.2 ⟨has, List.pairwise_cons.2 ⟨fun b hb => ?_, hbs⟩, ?_⟩, by omega,
      by omega⟩
    · have := hhead b hb
      simp only [Block.Before] at this ⊢
      omega
    · intro a ha b hb
      rcases List.mem_cons.1 hb with rfl | hb
      · have := hcross a ha node List.mem_cons_self
        simp only [Block.Before] at this ⊢
        omega
      · exact hcross a ha b (List.mem_cons_of_mem _ hb)
  · have htight := resize_tight hnode hhi hpos (Or.inr hres)
    rw [hres] at hr
    obtain ⟨haddr, hc⟩ := hr
    refine ⟨List.pairwise_append.2 ⟨has, hbs, fun a ha b hb =>
      hcross a ha b (List.mem_cons_of_mem _ hb)⟩, by omega, by omega⟩

/-! ### Merging -/

/-- The nodes up to an address, and those after it. -/
theorem getPrevNextNode_bounds (ptr : ℕ) (hs : Separated nodes) :
    (∀ n ∈ (HeapZone.getPrevNextNode ptr nodes).1, n.addr ≤ ptr) ∧
      ∀ n ∈ (HeapZone.getPrevNextNode ptr nodes).2, ptr < n.addr := by
  induction nodes with
  | nil => simp [HeapZone.getPrevNextNode]
  | cons n rest ih =>
    obtain ⟨hn, hrest⟩ := List.pairwise_cons.1 hs
    obtain ⟨h1, h2⟩ := ih hrest
    rw [HeapZone.getPrevNextNode]
    split_ifs with hgt
    · refine ⟨by simp, fun m hm => ?_⟩
      rcases List.mem_cons.1 hm with rfl | hm
      · exact hgt
      · have := hn m hm
        simp only [Block.Before] at this
        omega
    · exact ⟨List.forall_mem_cons.2 ⟨by omega, h1⟩, h2⟩

/-- After the merge with the node before, the earlier nodes are apart from the freed one, which ends
where it did. -/
theorem mergePrev_separated (node : HeapNode) (hs : Separated before)
    (hle : ∀ n ∈ before, n.addr + n.size ≤ node.addr) :
    Separated (HeapZone.mergePrev before node).1 ∧
      (∀ n ∈ (HeapZone.mergePrev before node).1, n.Before (HeapZone.mergePrev before node).2) ∧
      (HeapZone.mergePrev before node).2.addr + (HeapZone.mergePrev before node).2.size
        = node.addr + node.size := by
  unfold HeapZone.mergePrev
  rcases List.eq_nil_or_concat before with rfl | ⟨ps, p, rfl⟩
  · exact ⟨List.Pairwise.nil, by simp, rfl⟩
  rw [List.concat_eq_append] at hs hle
  rw [List.concat_eq_append, List.getLast?_concat]
  obtain ⟨hps, -, hp⟩ := List.pairwise_append.1 hs
  have hlast : p.addr + p.size ≤ node.addr := hle p (by simp)
  have hbefore : ∀ n ∈ ps, n.Before p := fun n hn => hp n hn p (by simp)
  simp only [HeapNode.merge]
  by_cases htouch : p.addr + p.size = node.addr
  · simp only [if_pos htouch, List.dropLast_concat]
    exact ⟨hps, hbefore, by omega⟩
  · simp only [if_neg htouch]
    refine ⟨hs, fun n hn => ?_, trivial⟩
    rcases List.mem_append.1 hn with hn | hn
    · have := hbefore n hn
      simp only [Block.Before] at this ⊢
      omega
    · rw [List.mem_singleton.1 hn]
      simp only [Block.Before]
      omega

/-- After the merge with the node behind, no node begins before the freed one. -/
theorem mergeNext_separated (node : HeapNode) (hs : Separated after)
    (hle : ∀ n ∈ after, node.addr + node.size ≤ n.addr) :
    Separated (HeapZone.mergeNext node after) ∧
      ∀ n ∈ HeapZone.mergeNext node after, node.addr ≤ n.addr := by
  cases after with
  | nil => exact ⟨List.pairwise_singleton _ _, by simp [HeapZone.mergeNext]⟩
  | cons n rest =>
    obtain ⟨hn, hrest⟩ := List.pairwise_cons.1 hs
    have hnode := hle n List.mem_cons_self
    have hlater : ∀ m ∈ rest, node.addr ≤ m.addr := fun m hm => by
      have := hle m (List.mem_cons_of_mem _ hm)
      omega
    simp only [HeapZone.mergeNext, HeapNode.merge]
    by_cases htouch : node.addr + node.size = n.addr
    · simp only [if_pos htouch]
      refine ⟨List.pairwise_cons.2 ⟨fun m hm => ?_, hrest⟩, List.forall_mem_cons.2 ⟨le_rfl, hlater⟩⟩
      have := hn m hm
      simp only [Block.Before] at this ⊢
      omega
    · simp only [if_neg htouch]
      refine ⟨List.pairwise_cons.2 ⟨fun m hm => ?_, hs⟩, List.forall_mem_cons.2 ⟨le_rfl, ?_⟩⟩
      · rcases List.mem_cons.1 hm with rfl | hm
        · simp only [Block.Before]
          omega
        · have := hn m hm
          simp only [Block.Before] at this ⊢
          omega
      · exact List.forall_mem_cons.2 ⟨by omega, hlater⟩

/-- **`HeapZone::dealloc`** keeps the nodes apart. -/
theorem zone_dealloc_separated {z : HeapZone} (hs : Separated z.list)
    (hpos : 0 < HeapZone.deallocSize layout) (hnode : ∀ n ∈ z.list, 0 < n.size)
    (hd : ∀ n ∈ z.list, n.Disjoint ⟨ptr, HeapZone.deallocSize layout⟩) :
    Separated (z.dealloc ptr layout).list := by
  have happ := getPrevNextNode_append ptr z.list
  obtain ⟨hle, hgt⟩ := getPrevNextNode_bounds ptr hs
  simp only [HeapZone.dealloc]
  generalize HeapZone.getPrevNextNode ptr z.list = r at happ hle hgt
  obtain ⟨before, after⟩ := r
  simp only at happ hle hgt
  rw [← happ] at hs hd hnode
  obtain ⟨hbefore, hafter, -⟩ := List.pairwise_append.1 hs
  -- the freed bytes begin behind the nodes before and end before the nodes after
  have hends : ∀ n ∈ before, n.addr + n.size ≤ ptr := by
    intro n hn
    have hmem := List.mem_append_left after hn
    have h1 := hle n hn
    by_contra hover
    exact hd n hmem ptr ⟨h1, by omega⟩ ⟨le_rfl, by simp only; omega⟩
  have hbegins : ∀ n ∈ after, ptr + HeapZone.deallocSize layout ≤ n.addr := by
    intro n hn
    have hmem := List.mem_append_right before hn
    have h1 := hgt n hn
    have h2 := hnode n hmem
    by_contra hover
    exact hd n hmem n.addr ⟨le_rfl, by omega⟩ ⟨h1.le, by simp only; omega⟩
  obtain ⟨hprev, hcross, hend⟩ :=
    mergePrev_separated ⟨ptr, HeapZone.deallocSize layout⟩ hbefore hends
  generalize HeapZone.mergePrev before ⟨ptr, HeapZone.deallocSize layout⟩ = r at hprev hcross hend
  obtain ⟨before', cnode⟩ := r
  simp only at hprev hcross hend ⊢
  obtain ⟨hnext, hlater⟩ := mergeNext_separated cnode hafter fun n hn => by
    have := hbegins n hn
    omega
  refine List.pairwise_append.2 ⟨hprev, hnext, fun a ha b hb => ?_⟩
  have h1 := hcross a ha
  have h2 := hlater b hb
  simp only [Block.Before] at h1 ⊢
  omega

/-! ### Runs -/

namespace HeapZone

open LinkedListAllocator (Live)

variable {z z' : HeapZone} {live : List Live} {l : Live} {grant : ℕ → Option Allocation}

/-- The calls to a zone. -/
inductive ZoneCall
  | alloc (layout : Layout)
  | dealloc (l : Live)

/-- A call, with the live pointers into the zone. -/
def step (s : HeapZone × List Live) : ZoneCall → Option (HeapZone × List Live)
  | .alloc layout =>
      match s.1.alloc layout with
      | some (z, c) => some (z, ⟨layout, c⟩ :: s.2)
      | none => some s
  | .dealloc l => some (s.1.dealloc l.carved.ptr l.layout, s.2.erase l)

/-- Layouts are not empty and aligned to `CHUNK_SIZE` at most, and a live pointer is freed with its
layout. -/
def Legal (s : HeapZone × List Live) : ZoneCall → Prop
  | .alloc layout => 0 < layout.size ∧ layout.align ≤ CHUNK_SIZE
  | .dealloc l => l ∈ s.2

instance (s : HeapZone × List Live) : (op : ZoneCall) → Decidable (Legal s op)
  | .alloc layout => inferInstanceAs (Decidable (0 < layout.size ∧ layout.align ≤ CHUNK_SIZE))
  | .dealloc l => inferInstanceAs (Decidable (l ∈ s.2))

/-- The invariant: the free nodes are apart and tile the zone together with what was cut off, and
`free_space` is what was not. -/
structure Inv (lo hi : ℕ) (s : HeapZone × List Live) : Prop where
  fit : hi ≤ usizeMod
  nodes : ∀ n ∈ s.1.list, NodeOk lo hi n
  separated : Separated s.1.list
  live : ∀ l ∈ s.2, CarvedOk lo hi l.layout l.carved ∧ 0 < l.layout.size ∧
    l.carved.limit = l.carved.ptr + deallocSize l.layout
  tiles : Tiles lo hi (s.1.list ++ s.2.map fun l => l.carved.extent)
  counted : s.1.freeSpace + (s.2.map fun l => l.carved.extent.size).sum = hi - lo

theorem Inv.freeSpace_eq (h : Inv lo hi (z, live)) :
    z.freeSpace = (z.list.map Block.size).sum := by
  have htotal := h.tiles.sum_size
  have hcounted := h.counted
  rw [List.map_append, List.sum_append, List.map_map] at htotal
  simp only [Function.comp_def] at htotal hcounted
  omega

theorem Inv.alloc (h : Inv lo hi (z, live)) (hpos : 0 < layout.size)
    (halign : layout.align ≤ CHUNK_SIZE) (he : z.alloc layout = some (z', c)) :
    Inv lo hi (z', ⟨layout, c⟩ :: live) := by
  unfold HeapZone.alloc at he
  split_ifs at he
  obtain ⟨⟨nodes', fs', c'⟩, he', heq⟩ := Option.map_eq_some_iff.1 he
  simp only [Prod.mk.injEq] at heq
  obtain ⟨rfl, rfl⟩ := heq
  obtain ⟨hnodes, hc, hcov⟩ := allocFrom_spec h.nodes h.fit hpos he'
  obtain ⟨hsep, hcount, htight⟩ :=
    allocFrom_separated h.nodes h.fit hpos h.separated h.freeSpace_eq he'
  refine ⟨h.fit, hnodes, hsep, List.forall_mem_cons.2 ⟨⟨hc, hpos, hc.limit_eq halign htight⟩, h.live⟩,
    fun x => ?_, ?_⟩
  · have h1 := hcov x
    have h2 := h.tiles x
    simp only [List.map_cons, cover_append, cover_cons] at h1 h2 ⊢
    omega
  · have h1 := h.counted
    simp only [List.map_cons, List.sum_cons, Carved.extent] at h1 ⊢
    omega

theorem Inv.dealloc (h : Inv lo hi (z, live)) (hl : l ∈ live) :
    Inv lo hi (z.dealloc l.carved.ptr l.layout, live.erase l) := by
  obtain ⟨hc, hpos, hlimit⟩ := h.live l hl
  have hperm := List.perm_cons_erase hl
  obtain ⟨hdvd, hle, -⟩ := deallocSize_spec l.layout
  have hextent : l.carved.extent = ⟨l.carved.ptr, deallocSize l.layout⟩ := by
    rw [Carved.extent, hlimit, Nat.add_sub_cancel_left]
  have hend := hc.le_hi
  have hok : NodeOk lo hi ⟨l.carved.ptr, deallocSize l.layout⟩ :=
    ⟨hc.dvd_ptr, hdvd, by simp only; omega, hc.lo_le, by simp only; omega⟩
  obtain ⟨hnodes, hcov⟩ := zone_dealloc_spec h.nodes hok
  have htiles := h.tiles.perm ((hperm.map _).append_left _)
  have hd : ∀ n ∈ z.list, n.Disjoint ⟨l.carved.ptr, deallocSize l.layout⟩ := by
    intro n hn
    rw [← hextent]
    exact (List.pairwise_append.1 (packed_iff_pairwise.1 htiles.packed)).2.2 n hn _
      List.mem_cons_self
  refine ⟨h.fit, hnodes, zone_dealloc_separated h.separated hok.pos (fun n hn => (h.nodes n hn).pos) hd,
    fun k hk => h.live k (List.mem_of_mem_erase hk), fun x => ?_, ?_⟩
  · have h1 := hcov x
    have h2 := htiles x
    simp only [List.map_cons, cover_append, cover_cons, hextent] at h1 h2 ⊢
    omega
  · have h1 := h.counted
    rw [((hperm.map fun l => l.carved.extent.size).sum_eq)] at h1
    simp only [List.map_cons, List.sum_cons, hextent, HeapZone.dealloc] at h1 ⊢
    omega

/-- **One call** keeps the invariant. -/
theorem step_spec (s : HeapZone × List Live) (op : ZoneCall) (h : Inv lo hi s) (hop : Legal s op) :
    ∃ s', step s op = some s' ∧ Inv lo hi s' := by
  obtain ⟨z, live⟩ := s
  cases op with
  | alloc layout =>
    simp only [step]
    cases he : z.alloc layout with
    | none => exact ⟨_, rfl, h⟩
    | some r => exact ⟨_, rfl, h.alloc hop.1 hop.2 he⟩
  | dealloc l => exact ⟨_, rfl, h.dealloc hop⟩

/-- What the page allocator grants: pages, in the address space and not at its start. -/
structure WholePages (a : Allocation) : Prop where
  pos : 0 < a.addr
  nonempty : 0 < a.size
  dvd_addr : PAGE_SIZE ∣ a.addr
  dvd_size : PAGE_SIZE ∣ a.size
  fit : a.addr + a.size ≤ usizeMod

/-- `new` makes one free node of what follows the header. -/
theorem inv_new (hgrant : ∀ n, ∀ a ∈ grant n, WholePages a) (he : HeapZone.new grant size = some z) :
    Inv (z.mem.addr + INITIAL_CHUNK_SIZE) (z.mem.addr + z.mem.size) (z, []) ∧
      z.mem.addr + INITIAL_CHUNK_SIZE < z.mem.addr + z.mem.size ∧
      z.list = [⟨z.mem.addr + INITIAL_CHUNK_SIZE,
        z.mem.addr + z.mem.size - (z.mem.addr + INITIAL_CHUNK_SIZE)⟩] := by
  simp only [HeapZone.new, Option.bind_eq_bind] at he
  obtain ⟨a, ha, heq⟩ := Option.bind_eq_some_iff.1 he
  obtain rfl := Option.some.inj heq
  have hp := hgrant _ a ha
  have hpage : PAGE_SIZE ≤ a.size := Nat.le_of_dvd hp.nonempty hp.dvd_size
  have hchunk : 2 ^ 5 ∣ PAGE_SIZE := by decide
  have h96 : INITIAL_CHUNK_SIZE = 96 := INITIAL_CHUNK_SIZE_eq
  have h4096 : PAGE_SIZE = 4096 := rfl
  have haddr := hchunk.trans hp.dvd_addr
  have hsize := hchunk.trans hp.dvd_size
  have hfit := hp.fit
  have hsub : a.addr + a.size - (a.addr + INITIAL_CHUNK_SIZE) = a.size - INITIAL_CHUNK_SIZE := by
    omega
  refine ⟨⟨hfit, ?_, List.pairwise_singleton _ _, by simp, ?_, ?_⟩, ?_, by simp only [hsub]⟩
  · simp only [List.mem_singleton, forall_eq]
    exact ⟨by simp only; omega, by simp only; omega, by simp only; omega, le_rfl, by simp only; omega⟩
  · have htile : Tiles (a.addr + INITIAL_CHUNK_SIZE)
        (a.addr + INITIAL_CHUNK_SIZE + (a.size - INITIAL_CHUNK_SIZE))
        [⟨a.addr + INITIAL_CHUNK_SIZE, a.size - INITIAL_CHUNK_SIZE⟩] := tiles_nil.snoc le_rfl
    rw [show a.addr + INITIAL_CHUNK_SIZE + (a.size - INITIAL_CHUNK_SIZE) = a.addr + a.size by omega]
      at htile
    exact htile
  · simp only [List.map_nil, List.sum_nil]
    omega
  · simp only
    omega

/-- The free nodes are in the order of their addresses with gaps in between, they are made of chunks,
and `free_space` is their sum. -/
structure Merged (z : HeapZone) : Prop where
  separated : z.list.Pairwise fun a b => a.addr + a.size < b.addr
  chunks : ∀ n ∈ z.list, CHUNK_SIZE ∣ n.addr ∧ CHUNK_SIZE ∣ n.size ∧ CHUNK_SIZE ≤ n.size
  counted : z.freeSpace = (z.list.map Block.size).sum

theorem Inv.merged (h : Inv lo hi (z, live)) : Merged z := by
  refine ⟨h.separated, fun n hn => ?_, h.freeSpace_eq⟩
  obtain ⟨h1, h2, hpos, -, -⟩ := h.nodes n hn
  rw [CHUNK_SIZE_eq]
  exact ⟨h1, h2, Nat.le_of_dvd hpos h2⟩

/-- **The free list in any state of a run**, and at its end when everything has been freed. -/
theorem run_merged (hgrant : ∀ n, ∀ a ∈ grant n, WholePages a)
    (hnew : HeapZone.new grant size = some z) (ops : List ZoneCall)
    (hlegal : Along step Legal (z, []) ops) :
    ∃ z' live, run step (z, []) ops = some (z', live) ∧ Merged z' ∧
      (live = [] → z'.list = z.list ∧ z'.freeSpace = z.freeSpace) := by
  obtain ⟨h₀, hlt, hlist⟩ := inv_new hgrant hnew
  obtain ⟨⟨z', live⟩, he, h⟩ := run_inv (Inv _ _) step_spec h₀ hlegal
  refine ⟨z', live, he, h.merged, ?_⟩
  rintro rfl
  have htiles := h.tiles
  rw [List.map_nil, List.append_nil] at htiles
  have hsingle := htiles.eq_singleton h.separated (fun n hn => (h.nodes n hn).pos) hlt
  have hsame : z'.list = z.list := hsingle.trans hlist.symm
  exact ⟨hsame, by rw [h.freeSpace_eq, h₀.freeSpace_eq, hsame]⟩

/-- Three blocks of the eight pages from `0x8000` on, the middle one freed last. -/
theorem run_merged_sample :
    ∃ z z' live, HeapZone.new LinkedListAllocator.eightPages 32768 = some z ∧
      run step (z, []) [.alloc LinkedListAllocator.layout32, .alloc ⟨100, 8, ⟨3, by decide⟩, by decide⟩,
        .alloc LinkedListAllocator.layout32, .dealloc ⟨LinkedListAllocator.layout32, 65504, 65536⟩,
        .dealloc ⟨LinkedListAllocator.layout32, 65344, 65376⟩,
        .dealloc ⟨⟨100, 8, ⟨3, by decide⟩, by decide⟩, 65376, 65504⟩] = some (z', live) ∧
      Merged z' ∧ (live = [] → z'.list = z.list ∧ z'.freeSpace = z.freeSpace) := by
  have hpages : ∀ n, ∀ a ∈ LinkedListAllocator.eightPages n, WholePages a := by
    intro n a ha
    simp only [LinkedListAllocator.eightPages, Option.mem_def, Option.ite_none_right_eq_some,
      Option.some.injEq] at ha
    obtain ⟨-, rfl⟩ := ha
    constructor <;> decide
  have hnew : HeapZone.new LinkedListAllocator.eightPages 32768
      = some ⟨⟨32768, 32768⟩, 32672, [⟨32864, 32672⟩]⟩ := by decide +kernel
  obtain ⟨z', live, hrun, hmerged⟩ := run_merged hpages hnew
    [.alloc LinkedListAllocator.layout32, .alloc ⟨100, 8, ⟨3, by decide⟩, by decide⟩,
      .alloc LinkedListAllocator.layout32, .dealloc ⟨LinkedListAllocator.layout32, 65504, 65536⟩,
      .dealloc ⟨LinkedListAllocator.layout32, 65344, 65376⟩,
      .dealloc ⟨⟨100, 8, ⟨3, by decide⟩, by decide⟩, 65376, 65504⟩] (by decide +kernel)
  exact ⟨_, z', live, hnew, hrun, hmerged⟩

end HeapZone

/-! ### A fresh zone -/

/-- What is cut off does not begin before the node it is cut from. -/
theorem allocFrom_ptr (he : HeapZone.allocFrom fs layout nodes = some (nodes', fs', c)) :
    ∃ node ∈ nodes, node.addr ≤ c.ptr := by
  obtain ⟨as, node, node', bs, rfl, -, hcut⟩ := allocFrom_split he
  refine ⟨node, by simp, ?_⟩
  have hres : node.resize layout.size layout.align = (node', ResizeResult.shrink c.ptr) ∨
      node.resize layout.size layout.align = (node', ResizeResult.remove c.ptr) :=
    hcut.imp (fun h => h.1) fun h => h.1
  simp only [HeapNode.resize] at hres
  split_ifs at hres
  all_goals simp only [Prod.mk.injEq, ResizeResult.shrink.injEq, ResizeResult.remove.injEq,
    reduceCtorEq, and_false, or_false, false_or] at hres
  · omega
  · omega

/-- A node with room for the size, an alignment and a header's rest can be cut. -/
theorem resize_fresh {a : Allocation} (hpos : 0 < layout.size) (hfit : a.addr + a.size ≤ usizeMod)
    (hroom : layout.size + max layout.align CHUNK_SIZE + INITIAL_CHUNK_SIZE ≤ a.size) :
    (HeapNode.resize ⟨a.addr + INITIAL_CHUNK_SIZE, a.size - INITIAL_CHUNK_SIZE⟩ layout.size
      layout.align).2 ≠ .noCapacity := by
  obtain ⟨j, hj, hj64, -, -⟩ := layout.max_align
  rw [hj] at hroom
  unfold HeapNode.resize
  simp only [hj]
  rw [if_neg (by omega), alignDown_eq (by omega) (by omega)]
  have hlt := Nat.lt_div_mul_add
    (a := a.addr + INITIAL_CHUNK_SIZE + (a.size - INITIAL_CHUNK_SIZE - layout.size))
    (show 0 < 2 ^ j by positivity)
  rw [if_neg (by omega)]
  split_ifs <;> simp

namespace LinkedListAllocator

/-- The page allocator grants a request: pages from a page address on, as many as asked for. -/
structure Grants (n : ℕ) (a : Allocation) : Prop where
  length : n ≤ a.size
  aligned : PAGE_SIZE ∣ a.addr
  fit : a.addr + a.size ≤ usizeMod

/-- **A fresh zone** has room for the layout that it was asked for. -/
theorem alloc_fresh {grant : ℕ → Option Allocation} {z : HeapZone} (hpos : 0 < layout.size)
    (hgrant : ∀ a ∈ grant (alignUp (sizeInc layout) PAGE_SIZE),
      Grants (alignUp (sizeInc layout) PAGE_SIZE) a)
    (hnew : HeapZone.new grant (sizeInc layout) = some z) :
    ∃ z' c, z.alloc layout = some (z', c) ∧ c.ptr ≠ null := by
  simp only [HeapZone.new, Option.bind_eq_bind] at hnew
  obtain ⟨a, ha, heq⟩ := Option.bind_eq_some_iff.1 hnew
  obtain rfl := Option.some.inj heq
  obtain ⟨hlen, -, hfit⟩ := hgrant a ha
  have hup : sizeInc layout ≤ alignUp (sizeInc layout) PAGE_SIZE := by
    rw [show alignUp (sizeInc layout) PAGE_SIZE = alignUp (sizeInc layout) (2 ^ 12) from rfl,
      alignUp_eq (sizeInc_fits layout) (by decide)]
    have := Nat.lt_div_mul_add (a := sizeInc layout + 2 ^ 12 - 1) (show 0 < 2 ^ 12 by decide)
    omega
  have hinc : layout.size + max layout.align CHUNK_SIZE + INITIAL_CHUNK_SIZE ≤ sizeInc layout :=
    le_max_right _ _
  have hres := resize_fresh hpos hfit (by omega)
  have hloop : ∃ r, HeapZone.allocFrom (a.size - INITIAL_CHUNK_SIZE) layout
      [⟨a.addr + INITIAL_CHUNK_SIZE, a.size - INITIAL_CHUNK_SIZE⟩] = some r := by
    rw [HeapZone.allocFrom, if_pos (by simp only; omega)]
    generalize HeapNode.resize _ layout.size layout.align = r at hres
    obtain ⟨node', r⟩ := r
    cases r with
    | shrink addr => exact ⟨_, rfl⟩
    | remove addr => exact ⟨_, rfl⟩
    | noCapacity => exact absurd rfl hres
  obtain ⟨⟨nodes', fs', c⟩, he⟩ := hloop
  obtain ⟨node, hnode, hle⟩ := allocFrom_ptr he
  rw [List.mem_singleton.1 hnode, INITIAL_CHUNK_SIZE_eq] at hle
  refine ⟨_, c, by rw [HeapZone.alloc, if_neg (by simp only; omega), he]; rfl, ?_⟩
  simp only [null]
  simp only at hle
  omega

/-- **`LinkedListAllocator::alloc`** with a page allocator that grants its request returns a pointer,
whatever the zones and the alignment: a fresh zone cannot fail. -/
theorem alloc_granted {grant : ℕ → Option Allocation} {heap : LinkedListAllocator}
    (hnodes : ∀ z ∈ heap, ∀ n ∈ z.list, n.addr ≠ null) (hpos : 0 < layout.size)
    (hsome : (grant (alignUp (sizeInc layout) PAGE_SIZE)).isSome)
    (hgrant : ∀ a ∈ grant (alignUp (sizeInc layout) PAGE_SIZE),
      Grants (alignUp (sizeInc layout) PAGE_SIZE) a) :
    (∃ c, (alloc grant heap layout).2 = some c ∧ c.ptr ≠ null) ∧
      ∀ z, HeapZone.new grant (sizeInc layout) = some z →
        ∃ z' c, z.alloc layout = some (z', c) ∧ c.ptr ≠ null := by
  refine ⟨?_, fun z hz => alloc_fresh hpos hgrant hz⟩
  unfold alloc
  cases hin : allocIn layout heap with
  | some r =>
    obtain ⟨as, z, z', bs, rfl, -, hz⟩ := allocIn_split hin
    refine ⟨r.2, rfl, ?_⟩
    unfold HeapZone.alloc at hz
    split_ifs at hz
    obtain ⟨⟨nodes', fs', c⟩, he, heq⟩ := Option.map_eq_some_iff.1 hz
    obtain ⟨node, hnode, hle⟩ := allocFrom_ptr he
    have hne := hnodes z (by simp) node hnode
    simp only [Prod.mk.injEq] at heq
    simp only [null, ← heq.2] at hne ⊢
    omega
  | none =>
    obtain ⟨a, ha⟩ := Option.isSome_iff_exists.1 hsome
    have hnew : ∃ z, HeapZone.new grant (sizeInc layout) = some z := by
      simp only [HeapZone.new, ha, Option.bind_eq_bind, Option.bind_some]
      exact ⟨_, rfl⟩
    obtain ⟨z, hz⟩ := hnew
    obtain ⟨z', c, he, hne⟩ := alloc_fresh hpos hgrant hz
    exact ⟨c, by simp only [hz, he], hne⟩

/-- 100 bytes at an alignment of two pages, with a zone that has no room. -/
theorem alloc_granted_sample :
    (∃ c, (alloc (fun n => if n ≤ 0x4000 then some ⟨0x10000, 0x4000⟩ else none)
        [⟨⟨0x8000, 0x8000⟩, 64, [⟨0x9000, 32⟩, ⟨0xa000, 32⟩]⟩]
        ⟨100, 0x2000, ⟨13, by decide⟩, by decide⟩).2 = some c ∧ c.ptr ≠ null) ∧
      ∀ z, HeapZone.new (fun n => if n ≤ 0x4000 then some ⟨0x10000, 0x4000⟩ else none)
          (sizeInc ⟨100, 0x2000, ⟨13, by decide⟩, by decide⟩) = some z →
        ∃ z' c, z.alloc ⟨100, 0x2000, ⟨13, by decide⟩, by decide⟩ = some (z', c) ∧ c.ptr ≠ null :=
  alloc_granted (by decide) (by decide) (by decide +kernel) (by
    have hgrant : (if alignUp (sizeInc ⟨100, 0x2000, ⟨13, by decide⟩, by decide⟩) PAGE_SIZE ≤ 0x4000
        then some (⟨0x10000, 0x4000⟩ : Allocation) else none) = some ⟨0x10000, 0x4000⟩ := by
      decide +kernel
    intro a ha
    obtain rfl := Option.some.inj (hgrant.symm.trans ha)
    exact ⟨by decide +kernel, by decide, by decide⟩)

end LinkedListAllocator
end AuroraOs
