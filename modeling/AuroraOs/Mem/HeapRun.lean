import AuroraOs.Lib.Machine
import AuroraOs.Mem.Heap

/-!
# Runs of the heap

What is free and what has been cut off for a live pointer cover no byte twice, as long as `dealloc`
gives back no more than `alloc` cut off.  The two disagree for alignments above `CHUNK_SIZE`: `alloc`
aligns down from the end of a node, wherever that is, and `dealloc` rounds the size up.
-/

namespace AuroraOs

open Blocks Machine

variable {lo hi : ℕ} {layout : Layout} {nodes nodes' : List HeapNode} {node : HeapNode}

/-! ### Cutting and merging nodes -/

theorem Layout.align_le (layout : Layout) : layout.align ≤ 2 ^ 63 := by
  have := layout.fits
  omega

/-- The alignment that the code works with. -/
theorem Layout.max_align (layout : Layout) :
    ∃ j, max layout.align CHUNK_SIZE = 2 ^ j ∧ j < 64 ∧ 2 ^ 5 ∣ 2 ^ j ∧ layout.align ∣ 2 ^ j := by
  obtain ⟨k, hk⟩ := layout.pow_two
  have hk63 : k ≤ 63 := by
    have := layout.align_le
    rw [hk] at this
    exact (Nat.pow_le_pow_iff_right (by decide)).1 this
  refine ⟨max k 5, ?_, by omega, pow_dvd_pow 2 (le_max_right k 5), ?_⟩
  · rw [hk, CHUNK_SIZE_eq]
    rcases le_total k 5 with h | h
    · rw [max_eq_right h, max_eq_right (Nat.pow_le_pow_right (by decide) h)]
    · rw [max_eq_left h, max_eq_left (Nat.pow_le_pow_right (by decide) h)]
  · rw [hk]
    exact pow_dvd_pow 2 (le_max_left k 5)

/-- A node made of chunks, between the given addresses. -/
structure NodeOk (lo hi : ℕ) (n : HeapNode) : Prop where
  dvd_addr : 2 ^ 5 ∣ n.addr
  dvd_size : 2 ^ 5 ∣ n.size
  pos : 0 < n.size
  lo_le : lo ≤ n.addr
  le_hi : n.addr + n.size ≤ hi

/-- What `alloc` may cut off for a layout. -/
structure CarvedOk (lo hi : ℕ) (layout : Layout) (c : Carved) : Prop where
  dvd_ptr : 2 ^ 5 ∣ c.ptr
  aligned : layout.align ∣ c.ptr
  dvd_limit : 2 ^ 5 ∣ c.limit
  fits : c.ptr + layout.size ≤ c.limit
  lo_le : lo ≤ c.ptr
  le_hi : c.limit ≤ hi

/-- The bytes that were cut off. -/
def Carved.extent (c : Carved) : Block := ⟨c.ptr, c.limit - c.ptr⟩

theorem resize_spec (h : NodeOk lo hi node) (hhi : hi ≤ usizeMod) (hpos : 0 < layout.size) :
    match node.resize layout.size layout.align with
    | (node', .shrink addr) => NodeOk lo hi node' ∧ node'.addr = node.addr ∧
        node.addr + node'.size = addr ∧ CarvedOk lo hi layout ⟨addr, node.addr + node.size⟩
    | (_, .remove addr) => addr = node.addr ∧
        CarvedOk lo hi layout ⟨addr, node.addr + node.size⟩
    | (_, .noCapacity) => True := by
  obtain ⟨j, hj, hj64, h5, halign⟩ := layout.max_align
  have hend := h.le_hi
  have hlo := h.lo_le
  have hmul := Nat.div_mul_le_self (node.addr + (node.size - layout.size)) (2 ^ j)
  have hdvd : 2 ^ j ∣ (node.addr + (node.size - layout.size)) / 2 ^ j * 2 ^ j :=
    Nat.dvd_mul_left _ _
  simp only [HeapNode.resize, hj]
  by_cases hsize : layout.size > node.size
  · rw [if_pos hsize]
    trivial
  rw [if_neg hsize, alignDown_eq (by omega) (by omega)]
  set naddr := (node.addr + (node.size - layout.size)) / 2 ^ j * 2 ^ j
  have hchunk : 2 ^ 5 ∣ naddr := h5.trans hdvd
  by_cases hle : naddr < node.addr
  · rw [if_pos hle]
    trivial
  have hcarved : CarvedOk lo hi layout ⟨naddr, node.addr + node.size⟩ :=
    ⟨hchunk, halign.trans hdvd, dvd_add h.dvd_addr h.dvd_size, by simp only; omega,
      by simp only; omega, hend⟩
  rw [if_neg hle]
  by_cases hn : naddr - node.addr ≥ CHUNK_SIZE
  · rw [if_pos hn]
    rw [CHUNK_SIZE_eq] at hn
    refine ⟨⟨h.dvd_addr, Nat.dvd_sub hchunk h.dvd_addr, ?_, hlo, ?_⟩, rfl, ?_, hcarved⟩
    all_goals simp only; omega
  · rw [if_neg hn]
    rw [CHUNK_SIZE_eq] at hn
    refine ⟨?_, hcarved⟩
    -- both are multiples of the chunk size
    have hd := Nat.dvd_sub hchunk h.dvd_addr
    have := Nat.eq_zero_of_dvd_of_lt hd (by omega)
    omega

/-- **The loop of `HeapZone::alloc`** moves bytes from the free nodes to the allocation. -/
theorem allocFrom_spec {fs fs' : ℕ} {c : Carved} (h : ∀ n ∈ nodes, NodeOk lo hi n)
    (hhi : hi ≤ usizeMod) (hpos : 0 < layout.size)
    (he : HeapZone.allocFrom fs layout nodes = some (nodes', fs', c)) :
    (∀ n ∈ nodes', NodeOk lo hi n) ∧ CarvedOk lo hi layout c ∧
      ∀ x, cover (c.extent :: nodes') x = cover nodes x := by
  induction nodes generalizing nodes' with
  | nil => simp [HeapZone.allocFrom] at he
  | cons node rest ih =>
    -- the node is passed over
    have hskip : (HeapZone.allocFrom fs layout rest).map (fun r => (node :: r.1, r.2))
        = some (nodes', fs', c) → (∀ n ∈ nodes', NodeOk lo hi n) ∧ CarvedOk lo hi layout c ∧
      ∀ x, cover (c.extent :: nodes') x = cover (node :: rest) x := by
      intro hm
      obtain ⟨⟨rest', fs₁, c₁⟩, he', heq⟩ := Option.map_eq_some_iff.1 hm
      simp only [Prod.mk.injEq] at heq
      obtain ⟨rfl, rfl, rfl⟩ := heq
      obtain ⟨h1, h2, h3⟩ := ih (fun n hn => h n (List.mem_cons_of_mem _ hn)) he'
      refine ⟨?_, h2, fun x => ?_⟩
      · intro n hn
        rcases List.mem_cons.1 hn with rfl | hn
        · exact h _ List.mem_cons_self
        · exact h1 n hn
      · have := h3 x
        simp only [cover_cons] at this ⊢
        omega
    have hrest : ∀ n ∈ rest, NodeOk lo hi n := fun n hn => h n (List.mem_cons_of_mem _ hn)
    have hr := resize_spec (h node List.mem_cons_self) hhi hpos
    rw [HeapZone.allocFrom] at he
    split_ifs at he with hsize
    · generalize node.resize layout.size layout.align = r at he hr
      obtain ⟨node', r⟩ := r
      cases r with
      | shrink addr =>
        obtain ⟨hn', haddr, hsum, hc⟩ := hr
        simp only [Option.some.injEq, Prod.mk.injEq] at he
        obtain ⟨rfl, -, rfl⟩ := he
        refine ⟨?_, hc, fun x => ?_⟩
        · intro n hn
          rcases List.mem_cons.1 hn with rfl | hn
          · exact hn'
          · exact hrest n hn
        · have := hc.fits
          obtain ⟨a, s⟩ := node'
          simp only at haddr hsum this
          subst haddr hsum
          rw [cover_perm (List.Perm.swap _ _ _), Carved.extent, ← cover_cut]
          have hsize' : s + (node.addr + node.size - (node.addr + s)) = node.size := by omega
          simp only [hsize']
      | remove addr =>
        obtain ⟨rfl, hc⟩ := hr
        simp only [Option.some.injEq, Prod.mk.injEq] at he
        obtain ⟨rfl, -, rfl⟩ := he
        refine ⟨hrest, hc, fun x => ?_⟩
        rw [Carved.extent, Nat.add_sub_cancel_left]
      | noCapacity => exact hskip he
    · exact hskip he

/-- The number of bytes that `dealloc` frees. -/
theorem deallocSize_spec (layout : Layout) :
    2 ^ 5 ∣ HeapZone.deallocSize layout ∧ layout.size ≤ HeapZone.deallocSize layout ∧
      HeapZone.deallocSize layout < layout.size + max layout.align CHUNK_SIZE := by
  obtain ⟨j, hj, hj64, h5, halign⟩ := layout.max_align
  have hpow : 0 < 2 ^ j := by positivity
  have hle : 2 ^ j ≤ 2 ^ 63 := Nat.pow_le_pow_right (by decide) (by omega)
  have hfits := layout.fits
  rw [HeapZone.deallocSize, max_comm, hj, alignUp_eq (by simp only [usizeMod]; omega) (by omega)]
  have hlt := Nat.lt_div_mul_add (a := layout.size + 2 ^ j - 1) hpow
  have hmul := Nat.div_mul_le_self (layout.size + 2 ^ j - 1) (2 ^ j)
  exact ⟨h5.trans (Nat.dvd_mul_left _ _), by omega, by omega⟩

theorem getPrevNextNode_append (addr : ℕ) (nodes : List HeapNode) :
    (HeapZone.getPrevNextNode addr nodes).1 ++ (HeapZone.getPrevNextNode addr nodes).2 = nodes := by
  induction nodes with
  | nil => rfl
  | cons n rest ih =>
    rw [HeapZone.getPrevNextNode]
    split_ifs
    · rfl
    · exact congrArg (n :: ·) ih

theorem merge_spec {other node' : HeapNode} (h : NodeOk lo hi node) (h' : NodeOk lo hi other)
    (he : node.merge other = some node') :
    NodeOk lo hi node' ∧ ∀ bs x, cover (node' :: bs) x = cover (node :: other :: bs) x := by
  unfold HeapNode.merge at he
  split_ifs at he with hadj
  obtain rfl := Option.some.inj he
  obtain ⟨a, s⟩ := node
  obtain ⟨a', t⟩ := other
  simp only at hadj
  subst hadj
  refine ⟨⟨h.1, dvd_add h.2 h'.2, ?_, h.4, ?_⟩, fun bs x => cover_cut⟩
  · exact Nat.add_pos_left h.3 _
  · have := h'.5
    simp only at this ⊢
    omega

theorem mergePrev_spec {before : List HeapNode} (h : ∀ n ∈ before, NodeOk lo hi n)
    (hc : NodeOk lo hi node) :
    (∀ n ∈ (HeapZone.mergePrev before node).1, NodeOk lo hi n) ∧
      NodeOk lo hi (HeapZone.mergePrev before node).2 ∧
      ∀ x, cover ((HeapZone.mergePrev before node).2 :: (HeapZone.mergePrev before node).1) x
        = cover (node :: before) x := by
  unfold HeapZone.mergePrev
  rcases List.eq_nil_or_concat before with rfl | ⟨ps, p, rfl⟩
  · exact ⟨by simp, hc, fun x => rfl⟩
  rw [List.concat_eq_append, List.getLast?_concat]
  rw [List.concat_eq_append] at h
  have hp : NodeOk lo hi p := h p (by simp)
  have hps : ∀ n ∈ ps, NodeOk lo hi n := fun n hn => h n (by simp [hn])
  cases hm : p.merge node with
  | none =>
    simp only [hm]
    exact ⟨h, hc, fun _ => trivial⟩
  | some node' =>
    obtain ⟨hn', hcov⟩ := merge_spec hp hc hm
    simp only [hm, List.dropLast_concat]
    refine ⟨hps, hn', fun x => (hcov ps x).trans ?_⟩
    exact cover_perm ((List.Perm.swap _ _ _).trans
      ((List.perm_append_singleton p ps).symm.cons node))

theorem mergeNext_spec {after : List HeapNode} (h : ∀ n ∈ after, NodeOk lo hi n)
    (hc : NodeOk lo hi node) :
    (∀ n ∈ HeapZone.mergeNext node after, NodeOk lo hi n) ∧
      ∀ x, cover (HeapZone.mergeNext node after) x = cover (node :: after) x := by
  cases after with
  | nil => exact ⟨by simpa [HeapZone.mergeNext] using hc, fun x => rfl⟩
  | cons n rest =>
    obtain ⟨hn, hrest⟩ := List.forall_mem_cons.1 h
    rw [HeapZone.mergeNext]
    cases hm : node.merge n with
    | none =>
      exact ⟨List.forall_mem_cons.2 ⟨hc, h⟩, fun x => rfl⟩
    | some node' =>
      obtain ⟨hn', hcov⟩ := merge_spec hc hn hm
      exact ⟨List.forall_mem_cons.2 ⟨hn', hrest⟩, hcov rest⟩

/-- **`HeapZone::dealloc`** adds the freed bytes to the free nodes. -/
theorem zone_dealloc_spec {z : HeapZone} {ptr : ℕ} (h : ∀ n ∈ z.list, NodeOk lo hi n)
    (hc : NodeOk lo hi ⟨ptr, HeapZone.deallocSize layout⟩) :
    (∀ n ∈ (z.dealloc ptr layout).list, NodeOk lo hi n) ∧
      ∀ x, cover (z.dealloc ptr layout).list x
        = cover (⟨ptr, HeapZone.deallocSize layout⟩ :: z.list) x := by
  have happ := getPrevNextNode_append ptr z.list
  simp only [HeapZone.dealloc]
  generalize HeapZone.getPrevNextNode ptr z.list = r at happ
  obtain ⟨before, after⟩ := r
  simp only at happ
  rw [← happ] at h ⊢
  obtain ⟨hb, hn, hcov⟩ :=
    mergePrev_spec (fun n hn => h n (List.mem_append_left after hn)) hc
  generalize HeapZone.mergePrev before ⟨ptr, HeapZone.deallocSize layout⟩ = r at hb hn hcov
  obtain ⟨before', node⟩ := r
  simp only at hb hn hcov ⊢
  obtain ⟨ha, hcov'⟩ := mergeNext_spec (fun n hn => h n (List.mem_append_right before hn)) hn
  refine ⟨fun n hn => (List.mem_append.1 hn).elim (hb n) (ha n), fun x => ?_⟩
  have h1 := hcov x
  have h2 := hcov' x
  simp only [cover_cons, cover_append] at h1 h2 ⊢
  omega

/-! ### The invariant -/

namespace LinkedListAllocator

/-- A live pointer: its layout, and what was cut off for it. -/
structure Live where
  layout : Layout
  carved : Carved
  deriving DecidableEq

/-- A zone: its header and its free nodes lie in its memory. -/
structure ZoneOk (z : HeapZone) : Prop where
  pos : 0 < z.mem.addr
  header : INITIAL_CHUNK_SIZE ≤ z.mem.size
  fit : z.mem.addr + z.mem.size ≤ usizeMod
  nodes : ∀ n ∈ z.list, NodeOk (z.mem.addr + INITIAL_CHUNK_SIZE) (z.mem.addr + z.mem.size) n

/-- A live pointer into a zone. -/
structure LiveIn (z : HeapZone) (l : Live) : Prop where
  pos : 0 < l.layout.size
  carved : CarvedOk (z.mem.addr + INITIAL_CHUNK_SIZE) (z.mem.addr + z.mem.size) l.layout l.carved

/-- The free nodes of all zones. -/
def freeNodes (heap : LinkedListAllocator) : List Block := heap.flatMap HeapZone.list

/-- The invariant: no byte belongs to two zones, to two free nodes, to two live pointers, or to a
free node and a live pointer. -/
structure Inv (heap : LinkedListAllocator) (live : List Live) : Prop where
  zones : ∀ z ∈ heap, ZoneOk z
  mems : (heap.map HeapZone.mem).Pairwise Block.Disjoint
  inZone : ∀ l ∈ live, ∃ z ∈ heap, LiveIn z l
  packed : Packed (freeNodes heap ++ live.map fun l => l.carved.extent)

variable {heap heap' as bs : LinkedListAllocator} {live : List Live} {z z' : HeapZone} {c : Carved}
  {l : Live}

theorem freeNodes_append : freeNodes (as ++ bs) = freeNodes as ++ freeNodes bs :=
  List.flatMap_append

theorem freeNodes_cons : freeNodes (z :: bs) = z.list ++ freeNodes bs := List.flatMap_cons

/-- Every byte that is free or cut off lies in a zone. -/
theorem Inv.exists_zone {x : ℕ} (h : Inv heap live)
    (hx : 0 < cover (freeNodes heap ++ live.map fun l => l.carved.extent) x) :
    ∃ z ∈ heap, z.mem.Has x := by
  obtain ⟨b, hb, hbx⟩ := cover_pos_iff.1 hx
  rcases List.mem_append.1 hb with hb | hb
  · obtain ⟨z, hz, hbz⟩ := List.mem_flatMap.1 hb
    have hn := (h.zones z hz).nodes b hbz
    have := hn.lo_le
    have := hn.le_hi
    exact ⟨z, hz, by simp only [Block.Has] at hbx ⊢; omega⟩
  · obtain ⟨l, hl, rfl⟩ := List.mem_map.1 hb
    obtain ⟨z, hz, hin⟩ := h.inZone l hl
    have := hin.carved.lo_le
    have := hin.carved.le_hi
    exact ⟨z, hz, by simp only [Block.Has, Carved.extent] at hbx ⊢; omega⟩

/-- Exchanging a zone for one over the same memory. -/
theorem Inv.set {live' : List Live} (h : Inv (as ++ z :: bs) live) (hmem : z'.mem = z.mem)
    (hnodes : ∀ n ∈ z'.list, NodeOk (z.mem.addr + INITIAL_CHUNK_SIZE) (z.mem.addr + z.mem.size) n)
    (hlive : ∀ l ∈ live', l ∈ live ∨ LiveIn z l)
    (hcov : ∀ x, cover z'.list x + cover (live'.map fun l => l.carved.extent) x
      ≤ cover z.list x + cover (live.map fun l => l.carved.extent) x) :
    Inv (as ++ z' :: bs) live' := by
  have hz := h.zones z (by simp)
  refine ⟨?_, ?_, ?_, fun x => ?_⟩
  · intro y hy
    rcases List.mem_append.1 hy with hy | hy
    · exact h.zones y (List.mem_append_left _ hy)
    · rcases List.mem_cons.1 hy with rfl | hy
      · exact ⟨hmem ▸ hz.pos, hmem ▸ hz.header, hmem ▸ hz.fit, hmem ▸ hnodes⟩
      · exact h.zones y (by simp [hy])
  · have hm := h.mems
    simp only [List.map_append, List.map_cons, hmem] at hm ⊢
    exact hm
  · -- pointers into the exchanged zone are pointers into the new one
    have hin : ∀ l, LiveIn z l → ∃ y ∈ as ++ z' :: bs, LiveIn y l := fun l hl =>
      ⟨z', by simp, hl.pos, hmem ▸ hl.carved⟩
    intro l hl
    rcases hlive l hl with hl | hl
    · obtain ⟨y, hy, hyl⟩ := h.inZone l hl
      rcases List.mem_append.1 hy with hy | hy
      · exact ⟨y, List.mem_append_left _ hy, hyl⟩
      · rcases List.mem_cons.1 hy with rfl | hy
        · exact hin l hyl
        · exact ⟨y, by simp [hy], hyl⟩
    · exact hin l hl
  · have h1 := h.packed x
    have h2 := hcov x
    simp only [freeNodes_append, freeNodes_cons, cover_append] at h1 ⊢
    omega

/-! ### One call -/

theorem zone_alloc_spec (h : ZoneOk z) (hpos : 0 < layout.size)
    (he : z.alloc layout = some (z', c)) :
    z'.mem = z.mem ∧
      (∀ n ∈ z'.list, NodeOk (z.mem.addr + INITIAL_CHUNK_SIZE) (z.mem.addr + z.mem.size) n) ∧
      LiveIn z ⟨layout, c⟩ ∧ ∀ x, cover (c.extent :: z'.list) x = cover z.list x := by
  unfold HeapZone.alloc at he
  split_ifs at he
  obtain ⟨⟨nodes', fs', c'⟩, he', heq⟩ := Option.map_eq_some_iff.1 he
  simp only [Prod.mk.injEq] at heq
  obtain ⟨rfl, rfl⟩ := heq
  obtain ⟨h1, h2, h3⟩ := allocFrom_spec h.nodes h.fit hpos he'
  exact ⟨rfl, h1, ⟨hpos, h2⟩, h3⟩

/-- The loop over the zones changes one of them. -/
theorem allocIn_split (he : allocIn layout heap = some (heap', c)) :
    ∃ as z z' bs, heap = as ++ z :: bs ∧ heap' = as ++ z' :: bs ∧
      z.alloc layout = some (z', c) := by
  induction heap generalizing heap' with
  | nil => simp [allocIn] at he
  | cons z zs ih =>
    have hskip : (allocIn layout zs).map (fun r => (z :: r.1, r.2)) = some (heap', c) →
        ∃ as y y' bs, z :: zs = as ++ y :: bs ∧ heap' = as ++ y' :: bs ∧
          y.alloc layout = some (y', c) := by
      intro hm
      obtain ⟨⟨zs', c'⟩, he', heq⟩ := Option.map_eq_some_iff.1 hm
      simp only [Prod.mk.injEq] at heq
      obtain ⟨rfl, rfl⟩ := heq
      obtain ⟨as, y, y', bs, rfl, rfl, hy⟩ := ih he'
      exact ⟨z :: as, y, y', bs, rfl, rfl, hy⟩
    rw [allocIn] at he
    split_ifs at he
    · cases hz : z.alloc layout with
      | some r =>
        simp only [hz, Option.some.injEq, Prod.mk.injEq] at he
        obtain ⟨rfl, rfl⟩ := he
        exact ⟨[], z, r.1, zs, rfl, rfl, hz⟩
      | none =>
        rw [hz] at he
        exact hskip he
    · exact hskip he

/-- Cutting an allocation off a zone. -/
theorem alloc_in_zone (h : Inv (as ++ z :: bs) live) (hpos : 0 < layout.size)
    (he : z.alloc layout = some (z', c)) : Inv (as ++ z' :: bs) (⟨layout, c⟩ :: live) := by
  obtain ⟨hmem, hnodes, hin, hcov⟩ := zone_alloc_spec (h.zones z (by simp)) hpos he
  refine h.set hmem hnodes ?_ fun x => ?_
  · intro l hl
    rcases List.mem_cons.1 hl with rfl | hl
    · exact .inr hin
    · exact .inl hl
  · have := hcov x
    simp only [List.map_cons, cover_cons] at this ⊢
    omega

/-- What the page allocator promises: a block of at least the size asked for, aligned to its
power-of-two length, and disjoint from the blocks it granted before. -/
def Granted (held : List Allocation) (size : ℕ) (a : Allocation) : Prop :=
  size ≤ a.size ∧ 0 < a.addr ∧ (∃ k, a.size = 2 ^ k) ∧ a.size ∣ a.addr ∧
    a.addr + a.size ≤ usizeMod ∧ ∀ b ∈ held, b.Disjoint a

/-- A fresh zone is one free node behind a header. -/
theorem zone_new_spec {grant : ℕ → Option Allocation} {size : ℕ}
    (hgrant : ∀ n, ∀ a ∈ grant n, Granted (heap.map HeapZone.mem) n a)
    (hsize : HEAP_INC_SIZE ≤ size) (hfit : size + PAGE_SIZE ≤ usizeMod)
    (he : HeapZone.new grant size = some z) (h : Inv heap live) : Inv (heap ++ [z]) live := by
  simp only [HeapZone.new, Option.bind_eq_bind] at he
  obtain ⟨a, ha, heq⟩ := Option.bind_eq_some_iff.1 he
  obtain rfl := Option.some.inj heq
  obtain ⟨hlen, hpos, ⟨k, hk⟩, hdvd, hend, hdisj⟩ := hgrant _ a ha
  have hlarge : 2 ^ 14 ≤ a.size := by
    have hup : alignUp size (2 ^ 12) = (size + 2 ^ 12 - 1) / 2 ^ 12 * 2 ^ 12 :=
      alignUp_eq hfit (by decide)
    have hlt := Nat.lt_div_mul_add (a := size + 2 ^ 12 - 1) (b := 2 ^ 12) (by decide)
    have : PAGE_SIZE = 2 ^ 12 := rfl
    have : HEAP_INC_SIZE = 2 ^ 14 := rfl
    rw [show alignUp size PAGE_SIZE = alignUp size (2 ^ 12) from rfl, hup] at hlen
    omega
  have hk14 : 14 ≤ k := (Nat.pow_le_pow_iff_right (by decide)).1 (hk ▸ hlarge)
  have hchunk : 2 ^ 5 ∣ a.size := hk ▸ pow_dvd_pow 2 (by omega)
  have h96 := INITIAL_CHUNK_SIZE_eq
  have h96' : 2 ^ 5 ∣ INITIAL_CHUNK_SIZE := by decide
  refine ⟨?_, ?_, ?_, fun x => ?_⟩
  · intro y hy
    rcases List.mem_append.1 hy with hy | hy
    · exact h.zones y hy
    · obtain rfl := List.mem_singleton.1 hy
      refine ⟨hpos, by simp only; omega, hend, ?_⟩
      simp only [List.mem_singleton, forall_eq]
      exact ⟨dvd_add (hchunk.trans hdvd) h96', Nat.dvd_sub hchunk h96', by simp only; omega, le_rfl,
        by simp only; omega⟩
  · rw [List.map_append, List.map_singleton, List.pairwise_append]
    exact ⟨h.mems, List.pairwise_singleton _ _, fun b hb c hc => by
      rw [List.mem_singleton.1 hc]
      exact hdisj b hb⟩
  · intro l hl
    obtain ⟨y, hy, hin⟩ := h.inZone l hl
    exact ⟨y, List.mem_append_left _ hy, hin⟩
  · -- nothing old lies in the granted block
    have hp := h.packed x
    simp only [freeNodes_append, cover_append] at hp ⊢
    have hnew : freeNodes [(⟨a, a.size - INITIAL_CHUNK_SIZE,
        [⟨a.addr + INITIAL_CHUNK_SIZE, a.size - INITIAL_CHUNK_SIZE⟩]⟩ : HeapZone)]
        = [⟨a.addr + INITIAL_CHUNK_SIZE, a.size - INITIAL_CHUNK_SIZE⟩] := by simp [freeNodes]
    rw [hnew, cover_cons, cover_nil]
    split_ifs with hx
    · have hxa : a.Has x := by
        simp only [Block.Has] at hx ⊢
        omega
      have hzero : ¬ 0 < cover (freeNodes heap ++ live.map fun l => l.carved.extent) x := by
        intro hc
        obtain ⟨y, hy, hyx⟩ := h.exists_zone hc
        exact hdisj _ (List.mem_map_of_mem hy) x hyx hxa
      rw [cover_append] at hzero
      omega
    · omega

theorem sizeInc_fits (layout : Layout) : sizeInc layout + PAGE_SIZE ≤ usizeMod := by
  have hfits := layout.fits
  rw [sizeInc, CHUNK_SIZE_eq, INITIAL_CHUNK_SIZE_eq, show HEAP_INC_SIZE = 16384 from rfl,
    show PAGE_SIZE = 4096 from rfl]
  simp only [usizeMod]
  omega

/-- **`LinkedListAllocator::alloc`** keeps the invariant. -/
theorem alloc_spec {grant : ℕ → Option Allocation} (h : Inv heap live) (hpos : 0 < layout.size)
    (hgrant : ∀ n, ∀ a ∈ grant n, Granted (heap.map HeapZone.mem) n a) :
    Inv (alloc grant heap layout).1
      (((alloc grant heap layout).2.map fun c => ⟨layout, c⟩).toList ++ live) := by
  unfold alloc
  cases hin : allocIn layout heap with
  | some r =>
    obtain ⟨as, z, z', bs, rfl, he, hz⟩ := allocIn_split hin
    simp only [he]
    exact alloc_in_zone h hpos hz
  | none =>
    cases hnew : HeapZone.new grant (sizeInc layout) with
    | none => exact h
    | some zone =>
      have h' := zone_new_spec hgrant (le_max_left _ _) (sizeInc_fits layout) hnew h
      cases hz : zone.alloc layout with
      | none =>
        simp only [hz]
        exact h'
      | some r =>
        simp only [hz]
        exact alloc_in_zone h' hpos hz

theorem deallocIn_split {ptr : ℕ} (has : ∀ y ∈ as, y.contains ptr layout.size = false)
    (hz : z.contains ptr layout.size = true) :
    deallocIn ptr layout (as ++ z :: bs) = some (as ++ z.dealloc ptr layout :: bs) := by
  induction as with
  | nil => simp [deallocIn, hz]
  | cons y as ih =>
    obtain ⟨hy, has⟩ := List.forall_mem_cons.1 has
    simp [deallocIn, hy, ih has]

/-- The zone of a pointer contains it. -/
theorem contains_of_liveIn (h : LiveIn z l) : z.contains l.carved.ptr l.layout.size = true := by
  have h1 := h.carved.lo_le
  have h2 := h.carved.le_hi
  have h3 := h.carved.fits
  rw [INITIAL_CHUNK_SIZE_eq] at h1
  simp only [HeapZone.contains, CHUNK_SIZE_eq, Bool.and_eq_true, decide_eq_true_eq]
  omega

/-- No other zone does: the bounds of `contains` are off by a chunk, less than a header. -/
theorem not_contains_of_liveIn {y : HeapZone} (h : LiveIn z l) (hy : ZoneOk y)
    (hd : y.mem.Disjoint z.mem) : y.contains l.carved.ptr l.layout.size = false := by
  have h1 := h.carved.lo_le
  have h2 := h.carved.le_hi
  have h3 := h.carved.fits
  have hpos := h.pos
  have hheader := hy.header
  rw [INITIAL_CHUNK_SIZE_eq] at h1 hheader
  have hend := hd (y.mem.addr + y.mem.size - 1)
  have hstart := hd y.mem.addr
  have hmid := hd z.mem.addr
  simp only [HeapZone.contains, CHUNK_SIZE_eq, Block.Has, Bool.and_eq_false_iff,
    decide_eq_false_iff_not] at hend hstart hmid ⊢
  omega

/-- **`LinkedListAllocator::dealloc`** keeps the invariant when it frees no more bytes than were cut
off. -/
theorem dealloc_spec (h : Inv heap (l :: live))
    (hfits : l.carved.ptr + HeapZone.deallocSize l.layout ≤ l.carved.limit) :
    ∃ heap', dealloc heap l.carved.ptr l.layout = some heap' ∧ Inv heap' live := by
  obtain ⟨z, hz, hin⟩ := h.inZone l List.mem_cons_self
  obtain ⟨as, bs, rfl⟩ := List.append_of_mem hz
  obtain ⟨hdvd, hsize, -⟩ := deallocSize_spec l.layout
  have hcarved := hin.carved
  have hlimit := hcarved.le_hi
  have hok : NodeOk (z.mem.addr + INITIAL_CHUNK_SIZE) (z.mem.addr + z.mem.size)
      ⟨l.carved.ptr, HeapZone.deallocSize l.layout⟩ :=
    ⟨hcarved.dvd_ptr, hdvd, hin.pos.trans_le hsize, hcarved.lo_le, hfits.trans hlimit⟩
  have hzone := h.zones z hz
  obtain ⟨hnodes, hcov⟩ := zone_dealloc_spec hzone.nodes hok
  have hothers : ∀ y ∈ as, y.contains l.carved.ptr l.layout.size = false := by
    intro y hy
    have hm := h.mems
    rw [List.map_append, List.pairwise_append] at hm
    exact not_contains_of_liveIn hin (h.zones y (List.mem_append_left _ hy))
      (hm.2.2 _ (List.mem_map_of_mem hy) _ (by simp))
  have halign : alignOf l.carved.ptr ≥ CHUNK_SIZE := by
    have hlo := hcarved.lo_le
    have hpos := hzone.pos
    have hfit := hzone.fit
    have hfits' := hcarved.fits
    have hsz := hin.pos
    have hd := dvd_alignOf (by omega) (by omega) hcarved.dvd_ptr
    rw [CHUNK_SIZE_eq]
    exact Nat.le_of_dvd (alignOf_pos _) hd
  refine ⟨_, by rw [dealloc, if_pos halign, deallocIn_split hothers (contains_of_liveIn hin)], ?_⟩
  refine h.set rfl hnodes (fun k hk => .inl (List.mem_cons_of_mem _ hk)) fun x => ?_
  have h1 := hcov x
  simp only [List.map_cons, cover_cons, Carved.extent, Block.Has] at h1 ⊢
  rw [h1]
  split_ifs <;> omega

/-! ### Runs -/

/-- The calls, with what the page allocator answers during an allocation. -/
inductive HeapOp
  | alloc (grant : ℕ → Option Allocation) (layout : Layout)
  | dealloc (l : Live)

/-- A call, with the live pointers that the callers hold. -/
def step (s : LinkedListAllocator × List Live) : HeapOp → Option (LinkedListAllocator × List Live)
  | .alloc grant layout =>
      let r := alloc grant s.1 layout
      some (r.1, (r.2.map fun c => ⟨layout, c⟩).toList ++ s.2)
  | .dealloc l => (dealloc s.1 l.carved.ptr l.layout).map fun heap => (heap, s.2.erase l)

/-- Layouts are not empty, the page allocator keeps its promise, and a live pointer is freed with
its layout. -/
def Legal (s : LinkedListAllocator × List Live) : HeapOp → Prop
  | .alloc grant layout =>
      0 < layout.size ∧ ∀ n, ∀ a ∈ grant n, Granted (s.1.map HeapZone.mem) n a
  | .dealloc l => l ∈ s.2

/-- What `dealloc` frees ends within the free node that the pointer was cut from. -/
def Fits (_ : LinkedListAllocator × List Live) : HeapOp → Prop
  | .alloc _ _ => True
  | .dealloc l => l.carved.ptr + HeapZone.deallocSize l.layout ≤ l.carved.limit

theorem Inv.perm {live' : List Live} (h : Inv heap live) (hp : live.Perm live') :
    Inv heap live' :=
  ⟨h.zones, h.mems, fun l hl => h.inZone l (hp.mem_iff.2 hl),
    h.packed.perm ((hp.map _).append_left _)⟩

/-- **One call** goes through and keeps the invariant. -/
theorem step_spec (s : LinkedListAllocator × List Live) (op : HeapOp) (h : Inv s.1 s.2)
    (hop : Legal s op ∧ Fits s op) : ∃ s', step s op = some s' ∧ Inv s'.1 s'.2 := by
  cases op with
  | alloc grant layout => exact ⟨_, rfl, alloc_spec h hop.1.1 hop.1.2⟩
  | dealloc l =>
    obtain ⟨heap', he, h'⟩ := dealloc_spec (h.perm (List.perm_cons_erase hop.1)) hop.2
    exact ⟨_, by rw [step, he]; rfl, h'⟩

/-- The bytes of a live pointer. -/
def Live.range (l : Live) : Block := ⟨l.carved.ptr, l.layout.size⟩

/-- Live pointers are aligned, and their bytes belong to nothing else. -/
structure Separate (heap : LinkedListAllocator) (live : List Live) : Prop where
  aligned : ∀ l ∈ live, l.carved.ptr ≠ null ∧ l.layout.align ∣ l.carved.ptr
  disjoint : (live.map Live.range).Pairwise Block.Disjoint
  free : ∀ l ∈ live, ∀ z ∈ heap, ∀ n ∈ z.list, l.range.Disjoint n
  header : ∀ l ∈ live, ∀ z ∈ heap, l.range.Disjoint ⟨z.mem.addr, sizeofHeapZone⟩

theorem Live.range_has {x : ℕ} (hin : LiveIn z l) (hx : l.range.Has x) : l.carved.extent.Has x := by
  have := hin.carved.fits
  simp only [Block.Has, Live.range, Carved.extent] at hx ⊢
  omega

theorem Inv.separate (h : Inv heap live) : Separate heap live := by
  have hp := packed_iff_pairwise.1 h.packed
  obtain ⟨-, hlive, hcross⟩ := List.pairwise_append.1 hp
  refine ⟨fun l hl => ?_, ?_, fun l hl z hz n hn x hx hnx => ?_, fun l hl z hz x hx hzx => ?_⟩
  · obtain ⟨z, hz, hin⟩ := h.inZone l hl
    have hpos := (h.zones z hz).pos
    have hlo := hin.carved.lo_le
    exact ⟨by simp only [null]; omega, hin.carved.aligned⟩
  · rw [List.pairwise_map] at hlive ⊢
    refine hlive.imp_of_mem fun {k l} hk hl hd x hkx hlx => ?_
    obtain ⟨y, -, hy⟩ := h.inZone k hk
    obtain ⟨z, -, hz⟩ := h.inZone l hl
    exact hd x (Live.range_has hy hkx) (Live.range_has hz hlx)
  · obtain ⟨y, -, hin⟩ := h.inZone l hl
    have hfree : n ∈ freeNodes heap := List.mem_flatMap.2 ⟨z, hz, hn⟩
    exact hcross n hfree _ (List.mem_map_of_mem hl) x hnx (Live.range_has hin hx)
  · -- in the pointer's own zone the header ends before; other zones are elsewhere
    obtain ⟨y, hy, hin⟩ := h.inZone l hl
    have hlo := hin.carved.lo_le
    have hhi := hin.carved.le_hi
    have hfits := hin.carved.fits
    have hheader := (h.zones z hz).header
    rw [INITIAL_CHUNK_SIZE_eq] at hlo hheader
    simp only [Block.Has, Live.range, sizeofHeapZone] at hx hzx
    by_cases hzy : z.mem = y.mem
    · rw [hzy] at hzx
      omega
    · have hd : z.mem.Disjoint y.mem := h.mems.forall (List.mem_map_of_mem hz)
        (List.mem_map_of_mem hy) hzy
      exact hd x (by simp only [Block.Has]; omega) (by simp only [Block.Has]; omega)

/-- For alignments up to `CHUNK_SIZE` the two extents agree. -/
theorem Inv.fits_of_align_le (h : Inv heap live) (hl : l ∈ live)
    (halign : l.layout.align ≤ CHUNK_SIZE) :
    l.carved.ptr + HeapZone.deallocSize l.layout ≤ l.carved.limit := by
  obtain ⟨z, -, hin⟩ := h.inZone l hl
  obtain ⟨hdvd, -, hlt⟩ := deallocSize_spec l.layout
  have h1 := hin.carved.dvd_ptr
  have h2 := hin.carved.dvd_limit
  have h3 := hin.carved.fits
  rw [max_eq_right halign, CHUNK_SIZE_eq] at hlt
  omega

/-- **Heap safety**: from any granted zone, in every run whose frees all stay within what was cut
off, no call panics, every pointer handed out is aligned, and the bytes of the live pointers are
apart from each other, from the free nodes and from the headers. -/
theorem run_separate {grant : ℕ → Option Allocation} {ops : List HeapOp}
    (hgrant : ∀ n, ∀ a ∈ grant n, Granted [] n a) (hnew : new grant = some heap)
    (hlegal : Along step Legal (heap, []) ops) (hfits : Along step Fits (heap, []) ops) :
    ∃ heap' live, run step (heap, []) ops = some (heap', live) ∧ Separate heap' live := by
  obtain ⟨z, hz, rfl⟩ := Option.map_eq_some_iff.1 hnew
  have hempty : Inv [] [] := ⟨by simp, by simp, by simp, fun x => by simp [freeNodes]⟩
  have h₀ : Inv [z] [] := zone_new_spec hgrant (by decide) (by decide) hz hempty
  obtain ⟨⟨heap', live⟩, he, h⟩ :=
    run_inv (fun s => Inv s.1 s.2) step_spec h₀ (hlegal.and hfits)
  exact ⟨heap', live, he, h.separate⟩

/-- A page allocator that grants the eight pages from `0x8000` on. -/
def eightPages : ℕ → Option Allocation := fun n => if n ≤ 32768 then some ⟨32768, 32768⟩ else none

theorem eightPages_granted : ∀ n, ∀ a ∈ eightPages n, Granted [] n a := by
  intro n a ha
  simp only [eightPages, Option.mem_def, Option.ite_none_right_eq_some, Option.some.injEq] at ha
  obtain ⟨hn, rfl⟩ := ha
  exact ⟨hn, by decide, ⟨15, by decide⟩, by decide, by decide, by simp⟩

theorem legal_alloc {s : LinkedListAllocator × List Live} (hpos : 0 < layout.size) :
    Legal s (.alloc (fun _ => none) layout) := ⟨hpos, by simp⟩

/-- 32 bytes at alignments 32 and 64. -/
abbrev layout32 : Layout := ⟨32, 32, ⟨5, by decide⟩, by decide⟩
abbrev layout64 : Layout := ⟨32, 64, ⟨6, by decide⟩, by decide⟩

/-- Two allocations, the second one of alignment 64, freed in turn with what was cut off. -/
theorem run_separate_sample :
    ∃ heap heap' live, new eightPages = some heap ∧
      run step (heap, []) [.alloc (fun _ => none) layout64, .alloc (fun _ => none) layout32,
        .dealloc ⟨layout64, 65472, 65536⟩] = some (heap', live) ∧
      live = [⟨layout32, 65440, 65472⟩] ∧ Separate heap' live := by
  have hnew : new eightPages = some [⟨⟨32768, 32768⟩, 32672, [⟨32864, 32672⟩]⟩] := by decide +kernel
  have hlegal : Along step Legal ([⟨⟨32768, 32768⟩, 32672, [⟨32864, 32672⟩]⟩], [])
      [.alloc (fun _ => none) layout64, .alloc (fun _ => none) layout32,
        .dealloc ⟨layout64, 65472, 65536⟩] := by
    refine ⟨legal_alloc (by decide), ?_⟩
    rintro s' ⟨⟩
    refine ⟨legal_alloc (by decide), ?_⟩
    rintro s' ⟨⟩
    exact ⟨by show _ ∈ _; decide +kernel, fun _ _ => trivial⟩
  have hfits : Along step Fits ([⟨⟨32768, 32768⟩, 32672, [⟨32864, 32672⟩]⟩], [])
      [.alloc (fun _ => none) layout64, .alloc (fun _ => none) layout32,
        .dealloc ⟨layout64, 65472, 65536⟩] :=
    ⟨trivial, fun _ _ => ⟨trivial, fun _ _ => ⟨by show _ ≤ _; decide +kernel, fun _ _ => trivial⟩⟩⟩
  obtain ⟨heap', live, hrun, hsep⟩ := run_separate eightPages_granted hnew hlegal hfits
  have hlive : (run step ([⟨⟨32768, 32768⟩, 32672, [⟨32864, 32672⟩]⟩], [])
      [.alloc (fun _ => none) layout64, .alloc (fun _ => none) layout32,
        .dealloc ⟨layout64, 65472, 65536⟩]).map (·.2) = some [⟨layout32, 65440, 65472⟩] := by
    decide +kernel
  rw [hrun] at hlive
  exact ⟨_, heap', live, hnew, hrun, Option.some.inj hlive, hsep⟩

/-- The other order: behind a live pointer of 32 bytes only 32 bytes are cut off for alignment 64,
and `dealloc` frees 64, the live ones included. -/
theorem run_overlap :
    ∃ heap heap' live, new eightPages = some heap ∧
      Along step Legal (heap, []) [.alloc (fun _ => none) layout32,
        .alloc (fun _ => none) layout64, .dealloc ⟨layout64, 65472, 65504⟩] ∧
      run step (heap, []) [.alloc (fun _ => none) layout32, .alloc (fun _ => none) layout64,
        .dealloc ⟨layout64, 65472, 65504⟩] = some (heap', live) ∧ ¬ Separate heap' live := by
  have hnew : new eightPages = some [⟨⟨32768, 32768⟩, 32672, [⟨32864, 32672⟩]⟩] := by decide +kernel
  have hrun : run step ([⟨⟨32768, 32768⟩, 32672, [⟨32864, 32672⟩]⟩], [])
      [.alloc (fun _ => none) layout32, .alloc (fun _ => none) layout64,
        .dealloc ⟨layout64, 65472, 65504⟩]
      = some ([⟨⟨32768, 32768⟩, 32672, [⟨32864, 32672⟩]⟩], [⟨layout32, 65504, 65536⟩]) := by
    decide +kernel
  refine ⟨_, _, _, hnew, ⟨legal_alloc (by decide), ?_⟩, hrun, fun h => ?_⟩
  · rintro s' ⟨⟩
    refine ⟨legal_alloc (by decide), ?_⟩
    rintro s' ⟨⟩
    exact ⟨by show _ ∈ _; decide +kernel, fun _ _ => trivial⟩
  · refine h.free _ (List.mem_singleton_self _) _ (List.mem_singleton_self _) _
      (List.mem_singleton_self _) 65504 ?_ ?_
    all_goals decide

end LinkedListAllocator
end AuroraOs
