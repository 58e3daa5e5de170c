import AuroraOs.Mem.HeapZoneRun

/-!
# The zone that takes a pointer back

`LinkedListAllocator::dealloc` gives a pointer back to the first zone whose `contains` holds.  The
bounds of `contains` lie `CHUNK_SIZE` above those of the zone, so they reach into a zone that follows
at once, but not past its header, and no pointer lies that low.

The zones here are any disjoint ranges of pages in any order, and any of them may serve a call.  What a
zone hands out lies in the zone as long as its free nodes do.  `dealloc` rounds a size up to the
alignment; for an alignment of more than a page the node that it makes may end past the zone.
-/

namespace AuroraOs

open Machine

variable {lo hi : ℕ} {layout : Layout} {nodes nodes' : List HeapNode} {node : HeapNode}

/-! ### Nodes inside a zone -/

/-- A node of chunks between the given addresses; it may be empty. -/
structure NodeIn (lo hi : ℕ) (n : HeapNode) : Prop where
  dvd_addr : 2 ^ 5 ∣ n.addr
  dvd_size : 2 ^ 5 ∣ n.size
  lo_le : lo ≤ n.addr
  le_hi : n.addr + n.size ≤ hi

/-- A pointer to memory between the given addresses. -/
structure PtrIn (lo hi ptr size : ℕ) : Prop where
  dvd_ptr : 2 ^ 5 ∣ ptr
  lo_le : lo ≤ ptr
  le_hi : ptr + size ≤ hi

theorem resize_in (h : NodeIn lo hi node) (hhi : hi < usizeMod) :
    match node.resize layout.size layout.align with
    | (node', .shrink addr) => NodeIn lo hi node' ∧ PtrIn lo hi addr layout.size
    | (_, .remove addr) => PtrIn lo hi addr layout.size
    | (_, .noCapacity) => True := by
  obtain ⟨j, hj, hj64, h5, -⟩ := layout.max_align
  have hend := h.le_hi
  have hlo := h.lo_le
  have hmul := Nat.div_mul_le_self (node.addr + (node.size - layout.size)) (2 ^ j)
  have hdvd : 2 ^ j ∣ (node.addr + (node.size - layout.size)) / 2 ^ j * 2 ^ j :=
    Nat.dvd_mul_left _ _
  simp only [HeapNode.resize, hj]
  by_cases hsize : layout.size > node.size
  · rw [if_pos hsize]
    trivial
  rw [if_neg hsize, alignDown_eq (by omega) (by omega)]
  set naddr := (node.addr + (node.size - layout.size)) / 2 ^ j * 2 ^ j
  have hchunk : 2 ^ 5 ∣ naddr := h5.trans hdvd
  by_cases hle : naddr < node.addr
  · rw [if_pos hle]
    trivial
  have hptr : PtrIn lo hi naddr layout.size := ⟨hchunk, by omega, by omega⟩
  rw [if_neg hle]
  by_cases hn : naddr - node.addr ≥ CHUNK_SIZE
  · rw [if_pos hn]
    refine ⟨⟨h.dvd_addr, Nat.dvd_sub hchunk h.dvd_addr, hlo, ?_⟩, hptr⟩
    simp only
    omega
  · rw [if_neg hn]
    exact hptr

theorem allocFrom_in {fs fs' : ℕ} {c : Carved} (h : ∀ n ∈ nodes, NodeIn lo hi n) (hhi : hi < usizeMod)
    (he : HeapZone.allocFrom fs layout nodes = some (nodes', fs', c)) :
    (∀ n ∈ nodes', NodeIn lo hi n) ∧ PtrIn lo hi c.ptr layout.size := by
  obtain ⟨as, node, node', bs, rfl, -, hcut⟩ := allocFrom_split he
  obtain ⟨has, hnode⟩ := List.forall_mem_append.1 h
  obtain ⟨hnode, hbs⟩ := List.forall_mem_cons.1 hnode
  have hr := @resize_in lo hi layout node hnode hhi
  rcases hcut with ⟨hres, rfl, -⟩ | ⟨hres, rfl, -⟩
  · rw [hres] at hr
    exact ⟨List.forall_mem_append.2 ⟨has, List.forall_mem_cons.2 ⟨hr.1, hbs⟩⟩, hr.2⟩
  · rw [hres] at hr
    exact ⟨List.forall_mem_append.2 ⟨has, hbs⟩, hr⟩

theorem merge_in {other node' : HeapNode} (h : NodeIn lo hi node) (h' : NodeIn lo hi other)
    (he : node.merge other = some node') : NodeIn lo hi node' := by
  unfold HeapNode.merge at he
  split_ifs at he with hadj
  obtain rfl := Option.some.inj he
  have hend := h'.le_hi
  exact ⟨h.dvd_addr, dvd_add h.dvd_size h'.dvd_size, h.lo_le, by simp only; omega⟩

theorem dealloc_in {z : HeapZone} {ptr : ℕ} (h : ∀ n ∈ z.list, NodeIn lo hi n)
    (hc : NodeIn lo hi ⟨ptr, HeapZone.deallocSize layout⟩) :
    ∀ n ∈ (z.dealloc ptr layout).list, NodeIn lo hi n := by
  have happ := getPrevNextNode_append ptr z.list
  simp only [HeapZone.dealloc]
  generalize HeapZone.getPrevNextNode ptr z.list = r at happ
  obtain ⟨before, after⟩ := r
  simp only at happ
  rw [← happ, List.forall_mem_append] at h
  obtain ⟨hbefore, hafter⟩ := h
  have hprev : (∀ n ∈ (HeapZone.mergePrev before ⟨ptr, HeapZone.deallocSize layout⟩).1,
      NodeIn lo hi n) ∧
      NodeIn lo hi (HeapZone.mergePrev before ⟨ptr, HeapZone.deallocSize layout⟩).2 := by
    unfold HeapZone.mergePrev
    rcases List.eq_nil_or_concat before with rfl | ⟨ps, p, rfl⟩
    · exact ⟨by simp, hc⟩
    rw [List.concat_eq_append, List.getLast?_concat]
    rw [List.concat_eq_append, List.forall_mem_append, List.forall_mem_singleton] at hbefore
    cases hm : p.merge ⟨ptr, HeapZone.deallocSize layout⟩ with
    | none =>
      simp only [hm]
      exact ⟨List.forall_mem_append.2 ⟨hbefore.1, List.forall_mem_singleton.2 hbefore.2⟩, hc⟩
    | some node' =>
      simp only [hm, List.dropLast_concat]
      exact ⟨hbefore.1, merge_in hbefore.2 hc hm⟩
  generalize HeapZone.mergePrev before ⟨ptr, HeapZone.deallocSize layout⟩ = r at hprev
  obtain ⟨before', cnode⟩ := r
  simp only at hprev ⊢
  refine List.forall_mem_append.2 ⟨hprev.1, ?_⟩
  cases after with
  | nil => exact List.forall_mem_singleton.2 hprev.2
  | cons n rest =>
    obtain ⟨hn, hrest⟩ := List.forall_mem_cons.1 hafter
    rw [HeapZone.mergeNext]
    cases hm : cnode.merge n with
    | none => exact List.forall_mem_cons.2 ⟨hprev.2, hafter⟩
    | some node' => exact List.forall_mem_cons.2 ⟨merge_in hprev.2 hn hm, hrest⟩

/-! ### Zones and pointers -/

namespace LinkedListAllocator

/-- A pointer that is held, with the memory of the zone that returned it. -/
structure Held where
  zone : Allocation
  layout : Layout
  ptr : ℕ
  deriving DecidableEq

/-- A range of pages that ends below the end of the address space. -/
structure PageRange (a : Allocation) : Prop where
  pos : 0 < a.addr
  nonempty : 0 < a.size
  dvd_addr : PAGE_SIZE ∣ a.addr
  dvd_size : PAGE_SIZE ∣ a.size
  fit : a.addr + a.size < usizeMod

/-- The free nodes of a zone lie behind its header. -/
structure ZoneIn (z : HeapZone) : Prop where
  mem : PageRange z.mem
  nodes : ∀ n ∈ z.list, NodeIn (z.mem.addr + INITIAL_CHUNK_SIZE) (z.mem.addr + z.mem.size) n

/-- A pointer lies behind the header of its zone. -/
def Held.In (l : Held) : Prop :=
  PtrIn (l.zone.addr + INITIAL_CHUNK_SIZE) (l.zone.addr + l.zone.size) l.ptr l.layout.size

/-- The zones are apart, and free nodes and pointers lie in their zones. -/
structure Contained (s : LinkedListAllocator × List Held) : Prop where
  zones : ∀ z ∈ s.1, ZoneIn z
  mems : (s.1.map HeapZone.mem).Pairwise Blocks.Block.Disjoint
  held : ∀ l ∈ s.2, l.In ∧ l.zone ∈ s.1.map HeapZone.mem

/-- What `dealloc` does with a pointer: its assertion holds, no sum of `contains` wraps, and the first
zone that contains the pointer, in fact the only one, is the one that returned it. -/
structure Selects (heap : LinkedListAllocator) (l : Held) : Prop where
  assertion : CHUNK_SIZE ≤ alignOf l.ptr
  fits : l.ptr + l.layout.size < usizeMod ∧ ∀ y ∈ heap, y.mem.addr + CHUNK_SIZE + y.mem.size < usizeMod
  only : ∀ y ∈ heap, y.contains l.ptr l.layout.size = true ↔ y.mem = l.zone
  first : ∃ as z bs, heap = as ++ z :: bs ∧ z.mem = l.zone ∧
    dealloc heap l.ptr l.layout = some (as ++ z.dealloc l.ptr l.layout :: bs)

variable {s s' : LinkedListAllocator × List Held} {heap : LinkedListAllocator} {z z' y : HeapZone}
  {l : Held} {a b : Allocation}

theorem PageRange.page_le (h : PageRange a) : PAGE_SIZE ≤ a.size := Nat.le_of_dvd h.nonempty h.dvd_size

/-- The last page of the address space stays free. -/
theorem PageRange.chunk_fits (h : PageRange a) : a.addr + CHUNK_SIZE + a.size < usizeMod := by
  have hfit := h.fit
  have haddr := h.dvd_addr
  have hsize := h.dvd_size
  simp only [CHUNK_SIZE_eq, PAGE_SIZE, usizeMod] at *
  omega

theorem PageRange.ordered (ha : PageRange a) (hb : PageRange b) (h : a.Disjoint b) :
    a.addr + a.size ≤ b.addr ∨ b.addr + b.size ≤ a.addr := by
  have hstart := h a.addr
  have hstart' := h b.addr
  have hpos := ha.nonempty
  have hpos' := hb.nonempty
  simp only [Blocks.Block.Has] at hstart hstart'
  omega

theorem contains_iff (hz : PageRange y.mem) (ha : PageRange l.zone) (hl : l.In)
    (hd : y.mem ≠ l.zone → y.mem.Disjoint l.zone) :
    y.contains l.ptr l.layout.size = true ↔ y.mem = l.zone := by
  have hlo := hl.lo_le
  have hhi := hl.le_hi
  have hpage := hz.page_le
  rw [INITIAL_CHUNK_SIZE_eq] at hlo
  simp only [HeapZone.contains, CHUNK_SIZE_eq, Bool.and_eq_true, decide_eq_true_eq]
  constructor
  · intro hc
    by_contra hne
    rcases hz.ordered ha (hd hne) with h | h
    · omega
    · omega
  · intro he
    rw [he]
    omega

theorem deallocIn_first {ptr : ℕ} (hz : ∃ z ∈ heap, z.contains ptr layout.size = true) :
    ∃ as z bs, heap = as ++ z :: bs ∧ (∀ y ∈ as, y.contains ptr layout.size = false) ∧
      z.contains ptr layout.size = true := by
  induction heap with
  | nil => simp at hz
  | cons y heap ih =>
    cases hy : y.contains ptr layout.size with
    | true => exact ⟨[], y, heap, rfl, by simp, hy⟩
    | false =>
      obtain ⟨z, hmem, hz⟩ := hz
      rcases List.mem_cons.1 hmem with rfl | hmem
      · rw [hy] at hz
        exact absurd hz (by decide)
      · obtain ⟨as, z, bs, rfl, has, hz⟩ := ih ⟨z, hmem, hz⟩
        exact ⟨y :: as, z, bs, rfl, List.forall_mem_cons.2 ⟨hy, has⟩, hz⟩

/-- **In a state where everything lies in its zone, `dealloc` selects the right one.** -/
theorem Contained.selects (h : Contained s) (hl : l ∈ s.2) : Selects s.1 l := by
  obtain ⟨hin, hzone⟩ := h.held l hl
  obtain ⟨z, hz, hzone⟩ := List.mem_map.1 hzone
  have hmem := (h.zones z hz).mem
  rw [hzone] at hmem
  have honly : ∀ y ∈ s.1, y.contains l.ptr l.layout.size = true ↔ y.mem = l.zone := by
    intro y hy
    refine contains_iff (h.zones y hy).mem hmem hin fun hne => ?_
    rw [← hzone] at hne ⊢
    exact h.mems.forall (List.mem_map_of_mem hy) (List.mem_map_of_mem hz) hne
  have halign : CHUNK_SIZE ≤ alignOf l.ptr := by
    have hlo := hin.lo_le
    have hhi := hin.le_hi
    have hpos := hmem.pos
    have hfit := hmem.fit
    rw [CHUNK_SIZE_eq]
    exact Nat.le_of_dvd (alignOf_pos _) (dvd_alignOf (by omega) (by omega) hin.dvd_ptr)
  obtain ⟨as, z', bs, heq, has, hz'⟩ := deallocIn_first ⟨z, hz, (honly z hz).2 hzone⟩
  refine ⟨halign, ⟨hin.le_hi.trans_lt hmem.fit, fun y hy => (h.zones y hy).mem.chunk_fits⟩, honly, as, z', bs,
    heq, (honly z' (by rw [heq]; simp)).1 hz', ?_⟩
  rw [dealloc, if_pos halign, heq, deallocIn_split has hz']

/-! ### Runs -/

/-- The calls: a new zone takes any place on the list, and any zone may serve an allocation. -/
inductive Call
  | newZone (grant : ℕ → Option Allocation) (size i : ℕ)
  | alloc (i : ℕ) (layout : Layout)
  | dealloc (l : Held)

/-- A call, with the pointers that are held. -/
def call (s : LinkedListAllocator × List Held) : Call → Option (LinkedListAllocator × List Held)
  | .newZone grant size i =>
      match HeapZone.new grant size with
      | none => some s
      | some z => some (s.1.insertIdx i z, s.2)
  | .alloc i layout =>
      match s.1[i]? with
      | none => some s
      | some z =>
          match z.alloc layout with
          | none => some s
          | some (z', c) => some (s.1.set i z', ⟨z.mem, layout, c.ptr⟩ :: s.2)
  | .dealloc l => (dealloc s.1 l.ptr l.layout).map fun heap => (heap, s.2.erase l)

/-- A zone is granted pages that no other zone has, and a pointer is given back with its layout. -/
def Lawful (s : LinkedListAllocator × List Held) : Call → Prop
  | .newZone grant _ _ => ∀ n, ∀ a ∈ grant n, PageRange a ∧ ∀ z ∈ s.1, z.mem.Disjoint a
  | .alloc _ _ => True
  | .dealloc l => l ∈ s.2

/-- `dealloc` frees nothing past the end of the zone. -/
def Inside (_ : LinkedListAllocator × List Held) : Call → Prop
  | .dealloc l => l.ptr + HeapZone.deallocSize l.layout ≤ l.zone.addr + l.zone.size
  | _ => True

theorem zone_new_in {grant : ℕ → Option Allocation} {size : ℕ} (hgrant : ∀ n, ∀ a ∈ grant n, PageRange a)
    (he : HeapZone.new grant size = some z) : ZoneIn z ∧ ∃ n, z.mem ∈ grant n := by
  simp only [HeapZone.new, Option.bind_eq_bind] at he
  obtain ⟨a, ha, heq⟩ := Option.bind_eq_some_iff.1 he
  obtain rfl := Option.some.inj heq
  have hp := hgrant _ a ha
  have hpage := hp.page_le
  have hchunk : 2 ^ 5 ∣ PAGE_SIZE := by decide
  have haddr := hchunk.trans hp.dvd_addr
  have hsize := hchunk.trans hp.dvd_size
  have h96 := INITIAL_CHUNK_SIZE_eq
  rw [show PAGE_SIZE = 4096 from rfl] at hpage
  refine ⟨⟨hp, ?_⟩, _, ha⟩
  simp only [List.mem_singleton, forall_eq]
  exact ⟨by simp only; omega, by simp only; omega, le_rfl, by simp only; omega⟩

/-- Exchanging a zone for one over the same memory. -/
theorem Contained.set {live : List Held} (h : Contained s) {i : ℕ} (hz : s.1[i]? = some z)
    (hmem : z'.mem = z.mem)
    (hnodes : ∀ n ∈ z'.list, NodeIn (z.mem.addr + INITIAL_CHUNK_SIZE) (z.mem.addr + z.mem.size) n)
    (hlive : ∀ l ∈ live, l ∈ s.2 ∨ l.In ∧ l.zone = z.mem) : Contained (s.1.set i z', live) := by
  have hz' := List.mem_of_getElem? hz
  have hmems : (s.1.set i z').map HeapZone.mem = s.1.map HeapZone.mem := by
    obtain ⟨hi, rfl⟩ := List.getElem?_eq_some_iff.1 hz
    rw [List.map_set, hmem, ← List.getElem_map HeapZone.mem, List.set_getElem_self]
    simpa using hi
  refine ⟨fun y hy => ?_, by simpa only [hmems] using h.mems, fun l hl => ?_⟩
  · rcases List.mem_or_eq_of_mem_set hy with hy | rfl
    · exact h.zones y hy
    · exact ⟨hmem ▸ (h.zones z hz').mem, hmem ▸ hnodes⟩
  · simp only [hmems]
    rcases hlive l hl with hl | ⟨hin, hzone⟩
    · exact h.held l hl
    · exact ⟨hin, hzone ▸ List.mem_map_of_mem hz'⟩

/-- **One call.** -/
theorem Contained.call (h : Contained s) {c : Call} (hlaw : Lawful s c) (hin : Inside s c) :
    ∃ s', LinkedListAllocator.call s c = some s' ∧ Contained s' := by
  cases c with
  | newZone grant size i =>
    simp only [LinkedListAllocator.call]
    cases hnew : HeapZone.new grant size with
    | none => exact ⟨s, rfl, h⟩
    | some z =>
      refine ⟨_, rfl, ?_⟩
      obtain ⟨hz, n, hn⟩ := zone_new_in (fun n a ha => (hlaw n a ha).1) hnew
      rcases lt_or_ge s.1.length i with hi | hi
      · rwa [List.insertIdx_of_length_lt hi]
      have hperm := List.perm_insertIdx z s.1 hi
      have hd : ∀ a ∈ s.1.map HeapZone.mem, z.mem.Disjoint a := by
        intro a ha
        obtain ⟨y, hy, rfl⟩ := List.mem_map.1 ha
        exact fun x hx hx' => (hlaw n _ hn).2 y hy x hx' hx
      refine ⟨fun y hy => ?_, ?_, fun l hl => ?_⟩
      · rcases List.mem_cons.1 (hperm.mem_iff.1 hy) with rfl | hy
        · exact hz
        · exact h.zones y hy
      · exact (List.Perm.pairwise_iff (fun hab x hx hx' => hab x hx' hx) (hperm.map _)).2
          (List.pairwise_cons.2 ⟨hd, h.mems⟩)
      · obtain ⟨hl, hzone⟩ := h.held l hl
        exact ⟨hl, (hperm.map HeapZone.mem).mem_iff.2 (List.mem_cons_of_mem _ hzone)⟩
  | alloc i layout =>
    simp only [LinkedListAllocator.call]
    cases hz : s.1[i]? with
    | none => exact ⟨s, rfl, h⟩
    | some z =>
      simp only
      cases halloc : z.alloc layout with
      | none => exact ⟨s, rfl, h⟩
      | some r =>
        refine ⟨_, rfl, ?_⟩
        obtain ⟨z', c⟩ := r
        have hzone := h.zones z (List.mem_of_getElem? hz)
        unfold HeapZone.alloc at halloc
        split_ifs at halloc
        obtain ⟨⟨nodes', fs', c'⟩, he, heq⟩ := Option.map_eq_some_iff.1 halloc
        simp only [Prod.mk.injEq] at heq
        obtain ⟨rfl, rfl⟩ := heq
        obtain ⟨hnodes, hptr⟩ := allocFrom_in hzone.nodes hzone.mem.fit he
        refine h.set hz rfl hnodes fun l hl => ?_
        rcases List.mem_cons.1 hl with rfl | hl
        · exact Or.inr ⟨hptr, rfl⟩
        · exact Or.inl hl
  | dealloc l =>
    obtain ⟨as, z, bs, heq, hzone, he⟩ := (h.selects hlaw).first
    refine ⟨_, by rw [LinkedListAllocator.call, he]; rfl, ?_⟩
    obtain ⟨hl, -⟩ := h.held l hlaw
    have hz := h.zones z (by rw [heq]; simp)
    obtain ⟨hdvd, -, -⟩ := deallocSize_spec l.layout
    have hnode : NodeIn (z.mem.addr + INITIAL_CHUNK_SIZE) (z.mem.addr + z.mem.size)
        ⟨l.ptr, HeapZone.deallocSize l.layout⟩ := by
      rw [hzone]
      exact ⟨hl.dvd_ptr, hdvd, hl.lo_le, hin⟩
    have hset : as ++ z.dealloc l.ptr l.layout :: bs = s.1.set as.length (z.dealloc l.ptr l.layout) := by
      rw [heq, List.set_append_right _ _ le_rfl, Nat.sub_self, List.set_cons_zero]
    have hget : s.1[as.length]? = some z := by
      rw [heq]
      simp
    rw [hset]
    exact h.set hget rfl (dealloc_in hz.nodes hnode)
      fun k hk => Or.inl (List.mem_of_mem_erase hk)

/-- **In every run** in which `dealloc` frees nothing past the end of a zone, no call panics, and
every pointer that is held goes back to the zone that returned it. -/
theorem run_selects (calls : List Call) (hlaw : Along call Lawful ([], []) calls)
    (hin : Along call Inside ([], []) calls) :
    ∃ s, run call ([], []) calls = some s ∧ ∀ l ∈ s.2, Selects s.1 l := by
  have hnew : Contained ([], []) := ⟨by simp, by simp, by simp⟩
  obtain ⟨s, hs, h⟩ := run_inv Contained (fun s c h hc => h.call hc.1 hc.2) hnew (hlaw.and hin)
  exact ⟨s, hs, fun l hl => h.selects hl⟩

/-- Two zones that touch, the one behind first on the list. -/
abbrev twoZones : List Call :=
  [.newZone (fun _ => some ⟨0xf000, 0x4000⟩) 0x4000 0, .newZone (fun _ => some ⟨0x13000, 0x4000⟩) 0x4000 0]

abbrev layoutHuge : Layout := ⟨32, 0x10000, ⟨16, by decide⟩, by decide⟩

theorem twoZones_run : run call ([], []) twoZones
    = some ([⟨⟨0x13000, 0x4000⟩, 0x3fa0, [⟨0x13060, 0x3fa0⟩]⟩, ⟨⟨0xf000, 0x4000⟩, 0x3fa0, [⟨0xf060, 0x3fa0⟩]⟩],
      []) := rfl

theorem lawful_twoZones {calls : List Call} (h : ∀ s, run call ([], []) twoZones = some s →
    Along call Lawful s calls) : Along call Lawful ([], []) (twoZones ++ calls) := by
  refine ⟨fun n a ha => ⟨?_, by simp⟩, ?_⟩
  · obtain rfl := Option.some.inj ha
    constructor <;> decide
  rintro s₁ ⟨⟩
  refine ⟨fun n a ha => ?_, fun s₂ h₂ => h s₂ h₂⟩
  obtain rfl := Option.some.inj ha
  refine ⟨by constructor <;> decide, ?_⟩
  simp only [List.insertIdx_zero, List.mem_singleton, forall_eq]
  intro x hx hx'
  simp only [Blocks.Block.Has] at hx hx'
  omega

/-- A pointer in each zone, the first one given back. -/
theorem run_selects_sample :
    ∃ s, run call ([], []) (twoZones ++ [.alloc 0 layout32, .alloc 1 layout64,
      .dealloc ⟨⟨0x13000, 0x4000⟩, layout32, 0x16fe0⟩]) = some s ∧ ∀ l ∈ s.2, Selects s.1 l := by
  refine run_selects _ (lawful_twoZones fun s hs => ?_) ?_
  · obtain rfl := Option.some.inj (twoZones_run.symm.trans hs)
    refine ⟨trivial, ?_⟩
    rintro s₁ ⟨⟩
    refine ⟨trivial, ?_⟩
    rintro s₂ ⟨⟩
    exact ⟨by show _ ∈ _; decide +kernel, fun _ _ => trivial⟩
  · exact ⟨trivial, fun _ _ => ⟨trivial, fun _ _ => ⟨trivial, fun _ _ => ⟨trivial, fun _ _ =>
      ⟨by show _ ≤ _; decide +kernel, fun _ _ => trivial⟩⟩⟩⟩⟩

/-- `dealloc` of 32 bytes at an alignment of 64 KiB frees 64 KiB, which reach past the end of the zone, and
the next pointer lies there: no zone contains it. -/
theorem run_not_selects :
    ∃ calls s l, Along call Lawful ([], []) calls ∧ run call ([], []) calls = some s ∧ l ∈ s.2 ∧
      dealloc s.1 l.ptr l.layout = none ∧ ¬ Selects s.1 l := by
  have hrun : run call ([], []) (twoZones ++ [.alloc 1 layoutHuge,
      .dealloc ⟨⟨0xf000, 0x4000⟩, layoutHuge, 0x10000⟩, .alloc 1 layout32])
      = some ([⟨⟨0x13000, 0x4000⟩, 0x3fa0, [⟨0x13060, 0x3fa0⟩]⟩,
        ⟨⟨0xf000, 0x4000⟩, 0x10f80, [⟨0xf060, 0x10f80⟩]⟩], [⟨⟨0xf000, 0x4000⟩, layout32, 0x1ffe0⟩]) := by
    decide +kernel
  have hnone : dealloc [⟨⟨0x13000, 0x4000⟩, 0x3fa0, [⟨0x13060, 0x3fa0⟩]⟩,
      ⟨⟨0xf000, 0x4000⟩, 0x10f80, [⟨0xf060, 0x10f80⟩]⟩] 0x1ffe0 layout32 = none := by decide +kernel
  refine ⟨_, _, _, lawful_twoZones fun s hs => ?_, hrun, List.mem_singleton_self _, hnone, fun h => ?_⟩
  · obtain rfl := Option.some.inj (twoZones_run.symm.trans hs)
    refine ⟨trivial, ?_⟩
    rintro s₁ ⟨⟩
    refine ⟨by show _ ∈ _; decide +kernel, ?_⟩
    rintro s₂ -
    exact ⟨trivial, fun _ _ => trivial⟩
  · obtain ⟨as, z, bs, -, -, he⟩ := h.first
    rw [hnone] at he
    exact absurd he (by simp)

end LinkedListAllocator
end AuroraOs
