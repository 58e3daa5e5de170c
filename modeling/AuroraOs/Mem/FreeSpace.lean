import AuroraOs.Mem.BuddyOps

/-!
# What is free

When `oalloc` finds no block, and what the counter `free_space` counts.  Each of `oalloc`, `dealloc`
and `orealloc` corrects the counter by an expression of its own; that of `orealloc` is a size of the
*difference* of two orders.
-/

namespace AuroraOs

open Blocks LinkedList Machine

namespace BuddyAllocator

variable {b b' : BuddyAllocator} {hi k order : ℕ} {seqs : ℕ → List Ptr} {held : List Block}
  {live : List Allocation} {a : Allocation}

/-! ### When `oalloc` fails -/

/-- `split_order` fails exactly when there is no free block of the order or a larger one. -/
theorem splitOrder_false_iff (h : Core b hi seqs held) (hpos : 0 < order) :
    b.splitOrder order = some (b, false) ↔ ∀ k, order ≤ k → seqs k = [] := by
  -- induction on the number of orders above
  induction hn : b.maxOrder + 1 - order generalizing order with
  | zero =>
    rw [splitOrder, dif_pos (by omega)]
    exact ⟨fun _ k hk => h.high k (by omega), fun _ => rfl⟩
  | succ n ih =>
    have hiff := ih (show 0 < order + 1 by omega) (by omega)
    obtain ⟨k, rfl⟩ : ∃ k, order = k + 1 := ⟨order - 1, by omega⟩
    rw [splitOrder, dif_neg (by omega), orderLen_eq h (by omega)]
    simp only [Option.bind_eq_bind, Option.bind_some]
    cases hs : seqs (k + 1) with
    | cons p ps =>
      obtain ⟨L, N, he, -, -⟩ := splitFront_spec h hs
      simp only [List.length_cons, ne_eq, Nat.succ_ne_zero, not_false_eq_true, if_true,
        Option.bind_some, he, Option.some.injEq, Prod.mk.injEq, Bool.true_eq_false, and_false,
        false_iff, not_forall]
      exact ⟨k + 1, le_rfl, by simp [hs]⟩
    | nil =>
      obtain ⟨L, N, r, seqs', he, h', -, hf, hr⟩ := splitOrder_spec h (k + 1 + 1)
      simp only [List.length_nil, ne_eq, not_true_eq_false, if_false, he, Option.bind_some]
      have hall : (∀ j, k + 1 ≤ j → seqs j = []) ↔ ∀ j, k + 1 + 1 ≤ j → seqs j = [] := by
        refine ⟨fun hj j hle => hj j (by omega), fun hj j hle => ?_⟩
        rcases Nat.eq_or_lt_of_le hle with rfl | hlt
        · exact hs
        · exact hj j hlt
      rw [hall, ← hiff, he]
      cases r with
      | false => simp
      | true =>
        obtain ⟨p, ps, hs', -⟩ := hr rfl
        obtain ⟨L', N', he', -, -⟩ := splitFront_spec h' (k := k) hs'
        simp [he']

/-- **`oalloc` fails** exactly when there is no free block of the order or a larger one. -/
theorem oalloc_none_iff (h : Inv b seqs live) :
    b.oalloc order = some (b, none) ↔ ∀ k, order ≤ k → b.freeNodes k = [] := by
  simp only [h.freeNodes_eq]
  by_cases hmax : order > b.maxOrder
  · rw [oalloc, if_pos hmax]
    exact ⟨fun _ k hk => h.core.high k (by omega), fun _ => rfl⟩
  rw [oalloc, if_neg hmax, orderLen_eq h.core (by omega)]
  simp only [Option.bind_eq_bind, Option.bind_some]
  cases hs : seqs order with
  | cons p ps =>
    obtain ⟨b', he, -⟩ := allocFront_spec h hs
    simp only [List.length_cons, Nat.succ_ne_zero, if_false, Option.bind_some, if_true, he,
      Option.some.injEq, Prod.mk.injEq, reduceCtorEq, and_false, false_iff, not_forall]
    exact ⟨order, le_rfl, by simp [hs]⟩
  | nil =>
    have hall : (∀ j, order ≤ j → seqs j = []) ↔ ∀ j, order + 1 ≤ j → seqs j = [] := by
      refine ⟨fun hj j hle => hj j (by omega), fun hj j hle => ?_⟩
      rcases Nat.eq_or_lt_of_le hle with rfl | hlt
      · exact hs
      · exact hj j hlt
    obtain ⟨L, N, r, seqs', he, hc, -, hf, hr⟩ := splitOrder_spec h.core (order + 1)
    rw [hall, ← splitOrder_false_iff h.core (by omega), he]
    simp only [List.length_nil, if_true, Option.bind_some]
    cases r with
    | false => simp
    | true =>
      rw [Nat.add_sub_cancel] at hr
      obtain ⟨p, ps, hs', -⟩ := hr rfl
      obtain ⟨b', he', -⟩ := allocFront_spec (h.with_core hc) hs'
      simp [he']

/-- There is no free block of the order or a larger one. -/
def NoBlock (b : BuddyAllocator) (order : ℕ) : Prop :=
  ∀ k < MAX_ORDER, order ≤ k → b.freeNodes k = []

instance (b : BuddyAllocator) (order : ℕ) : Decidable (NoBlock b order) :=
  inferInstanceAs (Decidable (∀ k < MAX_ORDER, order ≤ k → b.freeNodes k = []))

theorem Inv.noBlock_iff (h : Inv b seqs live) :
    NoBlock b order ↔ b.oalloc order = some (b, none) := by
  rw [oalloc_none_iff h]
  refine ⟨fun hno k hk => ?_, fun hall k _ hk => hall k hk⟩
  by_cases hlt : k < MAX_ORDER
  · exact hno k hlt hk
  · rw [h.freeNodes_eq]
    refine h.core.high k ?_
    have := h.core.geom.maxOrder_lt
    omega

/-- The zone of a block can give it a new order: the block shrinks, stays or grows in place, or there
is another one to move to. -/
def Serves (b : BuddyAllocator) (mem : Allocation) (order : ℕ) : Prop :=
  order ≤ b.getOrder mem.size ∨ GrowsInPlace b mem order ∨ ¬ NoBlock b order

instance (b : BuddyAllocator) (mem : Allocation) (order : ℕ) : Decidable (Serves b mem order) :=
  inferInstanceAs (Decidable (_ ∨ _ ∨ ¬ NoBlock b order))

/-- **`orealloc` fails** exactly when the zone cannot serve it. -/
theorem orealloc_none_iff {L : NodeLayout} {bytes bytes' : Bytes} {out : Option Allocation}
    (h : Inv b seqs (a :: live)) (he : b.orealloc L bytes a order = some (b', bytes', out)) :
    out = none ↔ ¬ Serves b a order := by
  obtain ⟨hlo, hhi, hpos, hpage⟩ := h.live_mem List.mem_cons_self
  have halloc : b.isAlloced a.addr = true :=
    (h.bitmap a.addr hlo (by omega) hpage).2 ⟨a, List.mem_cons_self, rfl⟩
  obtain ⟨k, hk, hsize, -⟩ := h.live_order a List.mem_cons_self
  have hold := h.getOrder_eq List.mem_cons_self hsize
  unfold Serves GrowsInPlace
  rw [hold, h.noBlock_iff]
  by_cases hmax : order > b.maxOrder
  · rw [orealloc, if_pos hmax] at he
    simp only [Option.some.injEq, Prod.mk.injEq] at he
    have hnone : b.oalloc order = some (b, none) := if_pos hmax
    simp only [← he.2.2, hnone, not_true_eq_false, or_false, true_iff]
    omega
  rw [orealloc, if_neg hmax] at he
  simp only [hold, halloc, Bool.true_eq_false, if_false] at he
  rw [if_neg (by omega)] at he
  split_ifs at he with heq hlt hcap
  · simp only [Option.some.injEq, Prod.mk.injEq] at he
    simp [← he.2.2, heq]
  · obtain ⟨r, -, ho⟩ := Option.bind_eq_some_iff.1 he
    simp only [Option.some.injEq, Prod.mk.injEq] at ho
    simp [← ho.2.2, hlt.le]
  · obtain ⟨r, -, ho⟩ := Option.bind_eq_some_iff.1 he
    simp only [Option.some.injEq, Prod.mk.injEq] at ho
    simp only [← ho.2.2, reduceCtorEq, false_iff, not_not]
    exact Or.inr (Or.inl ⟨by omega, by omega, hcap⟩)
  · -- neither smaller nor in place: the block moves if there is another one
    obtain ⟨⟨b₁, out₁⟩, ho₁, ho⟩ := Option.bind_eq_some_iff.1 he
    rw [ho₁]
    cases out₁ with
    | none =>
      obtain ⟨b₂, seqs₂, out₂, ho₂, -, -, -, -, hnone, -⟩ := oalloc_spec h order
      obtain ⟨rfl, rfl⟩ : b₂ = b₁ ∧ out₂ = none := by simpa using ho₂.symm.trans ho₁
      simp only [Option.some.injEq, Prod.mk.injEq] at ho
      simp only [← ho.2.2, (hnone rfl).1, not_true_eq_false, or_false, true_iff]
      omega
    | some r =>
      simp only [Option.some.injEq, Prod.mk.injEq, reduceCtorEq, and_false, not_false_eq_true,
        or_true, not_true_eq_false, iff_false]
      rintro rfl
      simp only at ho
      split_ifs at ho
      obtain ⟨b₂, -, ho⟩ := Option.bind_eq_some_iff.1 ho
      simp at ho

/-! ### The counter -/

theorem onOrder_fixed {op : ListOp ℕ} {r : Option Ptr} (h : b.onOrder order op = some (b', r)) :
    b'.freeSpace = b.freeSpace ∧ b'.start = b.start ∧ b'.metaStart = b.metaStart := by
  unfold onOrder at h
  split_ifs at h
  obtain ⟨r', -, he⟩ := Option.map_eq_some_iff.1 h
  simp only [Prod.mk.injEq] at he
  rw [← he.1]
  exact ⟨rfl, rfl, rfl⟩

theorem pushFront_freeSpace {node : Ptr} (h : b.pushFront order node = some b') :
    b'.freeSpace = b.freeSpace := by
  obtain ⟨r, he, rfl⟩ := Option.map_eq_some_iff.1 h
  exact (onOrder_fixed he).1

theorem removeNode_freeSpace {node : Ptr} (h : b.removeNode order node = some b') :
    b'.freeSpace = b.freeSpace := by
  obtain ⟨r, he, rfl⟩ := Option.map_eq_some_iff.1 h
  exact (onOrder_fixed he).1

theorem nodeNew_fixed {node : Ptr} {size : ℕ} (h : b.nodeNew k size = some (b', node)) :
    b'.freeSpace = b.freeSpace ∧ b'.start = b.start ∧ b'.metaStart = b.metaStart := by
  unfold nodeNew at h
  split_ifs at h
  simp only [Option.some.injEq, Prod.mk.injEq] at h
  rw [← h.1]
  exact ⟨rfl, rfl, rfl⟩

/-- `oalloc` counts off the size of what it hands out. -/
theorem allocFront_freeSpace (h : b.allocFront order = some (b', a)) :
    b'.freeSpace = b.freeSpace - a.size := by
  obtain ⟨⟨b₁, node⟩, he, ho⟩ := Option.bind_eq_some_iff.1 h
  have hpop : b₁.freeSpace = b.freeSpace := by
    obtain ⟨⟨b₂, r⟩, he₂, ho₂⟩ := Option.bind_eq_some_iff.1 he
    obtain ⟨node', -, hr⟩ := Option.bind_eq_some_iff.1 ho₂
    simp only [Option.some.injEq, Prod.mk.injEq] at hr
    rw [← hr.1]
    exact (onOrder_fixed he₂).1
  obtain ⟨B, hB⟩ := setIsAlloced_eq b₁ node true
  simp only [hB, Option.some.injEq, Prod.mk.injEq] at ho
  rw [← ho.1, ← ho.2, ← hpop]

theorem oalloc_freeSpace (h : Inv b seqs live) (he : b.oalloc order = some (b', some a)) :
    b'.freeSpace = b.freeSpace - a.size := by
  unfold oalloc at he
  split_ifs at he with hmax
  · simp at he
  rw [orderLen_eq h.core (by omega)] at he
  simp only [Option.bind_eq_bind, Option.bind_some] at he
  split_ifs at he with hlen
  · obtain ⟨L, N, r, seqs', hsplit, -⟩ := splitOrder_spec h.core (order + 1)
    rw [hsplit, Option.bind_some] at he
    cases r with
    | false => simp at he
    | true =>
      obtain ⟨⟨b₂, out⟩, hfront, ho⟩ := Option.bind_eq_some_iff.1 he
      simp only [Option.some.injEq, Prod.mk.injEq] at ho
      obtain ⟨rfl, rfl⟩ := ho
      have hspace := allocFront_freeSpace hfront
      exact hspace
  · obtain ⟨⟨b₂, out⟩, hfront, ho⟩ := Option.bind_eq_some_iff.1 he
    simp only [Option.some.injEq, Prod.mk.injEq] at ho
    obtain ⟨rfl, rfl⟩ := ho
    exact allocFront_freeSpace hfront

theorem insertNodeFrom_freeSpace {fuel : ℕ} {node : Ptr}
    (h : insertNodeFrom fuel b node order = some b') : b'.freeSpace = b.freeSpace := by
  induction fuel generalizing b node order with
  | zero => simp [insertNodeFrom] at h
  | succ fuel ih =>
    unfold insertNodeFrom at h
    simp only [Option.bind_eq_bind] at h
    generalize node ^^^ b.nodeSize node = addr2 at h
    by_cases hout : addr2 < node ∨ addr2 > b.start ∨ addr2 + b.nodeSize node > b.metaStart
        ∨ b.isAlloced addr2
    · rw [if_pos hout] at h
      exact pushFront_freeSpace h
    rw [if_neg hout] at h
    obtain ⟨node2, -, h⟩ := Option.bind_eq_some_iff.1 h
    by_cases hsize : b.nodeSize node ≠ b.nodeSize node2
    · rw [if_pos hsize] at h
      exact pushFront_freeSpace h
    rw [if_neg hsize] at h
    obtain ⟨b₁, he₁, h⟩ := Option.bind_eq_some_iff.1 h
    have h₁ := removeNode_freeSpace he₁
    generalize (if addr2 < node then node2 else node) = merged at h
    split_ifs at h
    · exact (pushFront_freeSpace h).trans h₁
    · exact (ih h).trans h₁

/-- `dealloc` counts the size of what comes back. -/
theorem dealloc_freeSpace (h : Inv b seqs (a :: live)) (he : b.dealloc a = some b') :
    b'.freeSpace = b.freeSpace + a.size := by
  obtain ⟨hlo, hhi, hpos, hpage⟩ := h.live_mem List.mem_cons_self
  have halloc : b.isAlloced a.addr = true :=
    (h.bitmap a.addr hlo (by omega) hpage).2 ⟨a, List.mem_cons_self, rfl⟩
  obtain ⟨B, hB⟩ := setIsAlloced_eq b a.addr false
  have hne : a.addr ≠ null := by
    have := h.core.geom.start_pos (by omega)
    show a.addr ≠ 0
    omega
  rw [dealloc, if_neg (by omega), if_neg (by simp [halloc]), hB] at he
  simp only [nodeNew, if_neg hne, Option.bind_eq_bind, Option.bind_some, Function.update_self] at he
  exact insertNodeFrom_freeSpace he

/-- `orealloc` corrects the counter by what it takes or gives back: it does neither, or makes a block
of four pages one of two. -/
def Recounts (b : BuddyAllocator) (mem : Allocation) (order : ℕ) : Prop :=
  order > b.maxOrder ∨ order = b.getOrder mem.size ∨ order = 1 ∧ b.getOrder mem.size = 2 ∨
    b.getOrder mem.size < order ∧ ¬ GrowsInPlace b mem order ∧
      ∀ k < MAX_ORDER, order ≤ k → b.freeNodes k = []

instance (b : BuddyAllocator) (mem : Allocation) (order : ℕ) : Decidable (Recounts b mem order) :=
  inferInstanceAs (Decidable (_ ∨ _ ∨ _ ∨ _ ∧ _ ∧ ∀ k < MAX_ORDER, order ≤ k → b.freeNodes k = []))

theorem Recounts.not_growsInPlace (h : Recounts b a order) : ¬ GrowsInPlace b a order := by
  rintro ⟨hmax, hlt, hcap⟩
  rcases h with h | h | ⟨h, h'⟩ | ⟨-, h, -⟩
  · omega
  · omega
  · omega
  · exact h ⟨hmax, hlt, hcap⟩

theorem orealloc_freeSpace {L : NodeLayout} {bytes bytes' : Bytes} {out : Option Allocation}
    (h : Inv b seqs (a :: live)) (hc : Recounts b a order)
    (he : b.orealloc L bytes a order = some (b', bytes', out)) :
    b'.freeSpace + (out.getD a).size = b.freeSpace + a.size := by
  by_cases hmax : order > b.maxOrder
  · rw [orealloc, if_pos hmax] at he
    simp only [Option.some.injEq, Prod.mk.injEq] at he
    rw [← he.1, ← he.2.2, Option.getD_none]
  obtain ⟨hlo, hhi, hpos, hpage⟩ := h.live_mem List.mem_cons_self
  have halloc : b.isAlloced a.addr = true :=
    (h.bitmap a.addr hlo (by omega) hpage).2 ⟨a, List.mem_cons_self, rfl⟩
  obtain ⟨k, hk, hsize, hd⟩ := h.live_order a List.mem_cons_self
  have hold : b.getOrder a.size = k := h.getOrder_eq List.mem_cons_self hsize
  rw [orealloc, if_neg hmax] at he
  simp only [hold, halloc, Bool.true_eq_false, if_false] at he
  rw [if_neg (by omega)] at he
  rcases hc with hc | hc | ⟨rfl, hc⟩ | ⟨hlt, hgrow, hfree⟩
  · exact absurd hc hmax
  · rw [if_pos (hc.trans hold)] at he
    simp only [Option.some.injEq, Prod.mk.injEq] at he
    rw [← he.1, ← he.2.2, Option.getD_some]
  · -- four pages become two: the difference of the orders is 1, of which two pages are the size
    obtain rfl : k = 2 := hold.symm.trans hc
    rw [if_neg (by omega), if_pos (by omega)] at he
    obtain ⟨⟨b₁, size⟩, he₁, ho⟩ := Option.bind_eq_some_iff.1 he
    have hcore : Core b b.metaStart seqs (⟨a.addr, 2 ^ (b.minOrderBits + 2)⟩ :: live) := by
      rw [← hsize]
      exact h.core
    obtain ⟨Ls, N, seqs', hshrink, -⟩ := shrinkFrom_spec hcore hk (hsize ▸ hd) one_le_two
    rw [getOrderSize_eq, hshrink] at he₁
    simp only [Option.some.injEq, Prod.mk.injEq] at he₁ ho
    rw [← ho.1, ← ho.2.2, ← he₁.1, ← he₁.2, hsize, Option.getD_some]
    simp only [getOrderSize_eq]
    show b.freeSpace + 2 ^ (b.minOrderBits + 1) + 2 ^ (b.minOrderBits + 1) = _
    rw [add_assoc, ← two_mul, ← pow_succ']
  · have hnot : ¬ b.orderExpandCap a.addr a.size ≥ order - k := fun hcap =>
      hgrow ⟨by omega, hlt, by rw [hold]; exact hcap⟩
    have hnone : b.oalloc order = some (b, none) := h.noBlock_iff.1 hfree
    rw [hold] at hlt
    rw [if_neg (by omega), if_neg (by omega), if_neg hnot, hnone] at he
    simp only [Option.bind_eq_bind, Option.bind_some, Option.some.injEq, Prod.mk.injEq] at he
    rw [← he.1, ← he.2.2, Option.getD_none]

/-- `init_orders` lays out nodes and leaves the rest alone. -/
theorem initOrders_fixed {ms a : ℕ} {c c' : BuddyAllocator} (h : initOrders ms c a = some c') :
    c'.freeSpace = c.freeSpace ∧ c'.start = c.start ∧ c'.metaStart = c.metaStart := by
  -- induction on what is left of the memory
  induction hn : ms - a using Nat.strong_induction_on generalizing c a with
  | _ n ih =>
    rw [initOrders] at h
    by_cases hlt : a < ms
    · rw [dif_pos hlt] at h
      simp only [Option.bind_eq_bind] at h
      obtain ⟨⟨c₁, node⟩, he₁, h⟩ := Option.bind_eq_some_iff.1 h
      split_ifs at h
      obtain ⟨c₂, he₂, h⟩ := Option.bind_eq_some_iff.1 h
      obtain ⟨r, hr, rfl⟩ := Option.map_eq_some_iff.1 he₂
      have hlen : 0 < min (alignOf a) (2 ^ log2 (ms - a)) :=
        lt_min (alignOf_pos a) (by positivity)
      obtain ⟨hf, hs, hm⟩ := ih _ (by omega) h rfl
      obtain ⟨hf₁, hs₁, hm₁⟩ := nodeNew_fixed he₁
      obtain ⟨hf₂, hs₂, hm₂⟩ := onOrder_fixed hr
      rw [hf, hs, hm]
      split_ifs
      · exact ⟨hf₂.trans hf₁, hs₂.trans hs₁, hm₂.trans hm₁⟩
      · exact ⟨hf₂.trans hf₁, hs₂.trans hs₁, hm₂.trans hm₁⟩
    · rw [dif_neg hlt, Option.some.injEq] at h
      rw [← h]
      exact ⟨rfl, rfl, rfl⟩

end BuddyAllocator

namespace Zone

open BuddyAllocator

variable {L : NodeLayout} {b : BuddyAllocator} {z z' : Zone} {mem : Allocation}

/-- The calls that choose the address themselves. -/
def Sized : ZoneOp → Prop
  | .allocAt _ _ => False
  | .oallocAt _ _ => False
  | _ => True

instance : DecidablePred Sized
  | .allocAt _ _ => isFalse id
  | .oallocAt _ _ => isFalse id
  | .alloc _ => isTrue trivial
  | .oalloc _ => isTrue trivial
  | .realloc _ _ => isTrue trivial
  | .orealloc _ _ => isTrue trivial
  | .dealloc _ => isTrue trivial
  | .write _ _ => isTrue trivial

/-- The condition under which a call keeps count. -/
def Accounts (z : Zone) : ZoneOp → Prop
  | .realloc mem size => size ≠ 0 → Recounts z.allocer mem (z.allocer.getOrder size)
  | .orealloc mem order => Recounts z.allocer mem order
  | _ => True

instance (z : Zone) : DecidablePred (Accounts z)
  | .realloc mem size => inferInstanceAs (Decidable (size ≠ 0 → Recounts z.allocer mem _))
  | .orealloc mem order => inferInstanceAs (Decidable (Recounts z.allocer mem order))
  | .alloc _ => isTrue trivial
  | .oalloc _ => isTrue trivial
  | .allocAt _ _ => isTrue trivial
  | .oallocAt _ _ => isTrue trivial
  | .dealloc _ => isTrue trivial
  | .write _ _ => isTrue trivial

/-- The counter and the live allocations add up to the zone. -/
def Counted (z : Zone) : Prop :=
  z.allocer.freeSpace + (z.live.map Block.size).sum = z.allocer.metaStart - z.allocer.start

theorem sum_erase (h : mem ∈ z.live) :
    (z.live.map Block.size).sum = mem.size + ((z.live.erase mem).map Block.size).sum := by
  rw [((List.perm_cons_erase h).map Block.size).sum_eq, List.map_cons, List.sum_cons]

/-- What is handed out was counted as free. -/
theorem Counted.oalloc {seqs : ℕ → List Ptr} {b' : BuddyAllocator} {a : Allocation} {order : ℕ}
    (h : BuddyAllocator.Inv z.allocer seqs z.live) (hc : Counted z)
    (he : z.allocer.oalloc order = some (b', some a)) :
    b'.freeSpace + a.size = z.allocer.freeSpace := by
  obtain ⟨b₁, seqs₁, out, he₁, h₁, hsame, -⟩ := oalloc_spec h order
  obtain ⟨rfl, rfl⟩ : b₁ = b' ∧ out = some a := by
    rw [he₁] at he
    simpa using he
  have hspace := oalloc_freeSpace h he
  have htotal := h₁.core.tiles.sum_size
  unfold Counted at hc
  rw [hsame.metaStart, hsame.start, Option.toList_some] at htotal
  simp only [List.map_append, List.sum_append, List.map_cons, List.map_nil, List.sum_cons,
    List.sum_nil] at htotal
  omega

theorem Counted.allocated {seqs : ℕ → List Ptr} {order : ℕ} {r : BuddyAllocator × Option Allocation}
    (h : BuddyAllocator.Inv z.allocer seqs z.live) (hc : Counted z)
    (he : z.allocer.oalloc order = some r) : Counted (z.allocated L r) := by
  obtain ⟨b₁, seqs₁, out, he₁, -, hsame, -, -, hnone, -⟩ := oalloc_spec h order
  obtain rfl : (b₁, out) = r := Option.some.inj (he₁.symm.trans he)
  cases out with
  | none =>
    obtain ⟨rfl, -⟩ := hnone rfl
    exact hc
  | some a =>
    have ha := hc.oalloc h he
    unfold Counted at hc ⊢
    simp only [Zone.allocated, Option.toList_some, List.map_append, List.sum_append, List.map_cons,
      List.map_nil, List.sum_cons, List.sum_nil, hsame.metaStart, hsame.start]
    omega

theorem Counted.reallocated {seqs : ℕ → List Ptr} {order : ℕ}
    {r : BuddyAllocator × Bytes × Option Allocation}
    (h : BuddyAllocator.Inv z.allocer seqs z.live) (hc : Counted z) (hmem : mem ∈ z.live)
    (hr : Recounts z.allocer mem order) (he : z.allocer.orealloc L z.bytes mem order = some r) :
    Counted (z.reallocated mem r) := by
  have h' := h.perm (List.perm_cons_erase hmem)
  obtain ⟨b', bytes', out, he', hnone, hsome⟩ :=
    orealloc_spec L z.bytes h' fun hg => absurd hg hr.not_growsInPlace
  obtain rfl : (b', bytes', out) = r := Option.some.inj (he'.symm.trans he)
  have hspace := orealloc_freeSpace h' hr he
  have hsum := sum_erase hmem
  unfold Counted at hc ⊢
  cases out with
  | none =>
    obtain ⟨rfl, -⟩ := hnone rfl
    exact hc
  | some out =>
    have hsame := (hsome out rfl).1
    simp only [Zone.reallocated, List.map_cons, List.sum_cons, hsame.metaStart, hsame.start,
      Option.getD_some] at hspace ⊢
    omega

theorem Accounts.guarded {op : ZoneOp} (h : Accounts z op) (hs : Sized op) : Guarded z op := by
  cases op with
  | realloc mem size =>
    intro hg
    rcases eq_or_ne size 0 with rfl | hne
    · have h0 : z.allocer.getOrder 0 = 0 := if_pos (Nat.zero_le _)
      rw [h0] at hg
      exact absurd hg.2.1 (Nat.not_lt_zero _)
    · exact absurd hg (h hne).not_growsInPlace
  | orealloc mem order => exact fun hg => absurd hg (Recounts.not_growsInPlace h)
  | allocAt addr size => exact hs.elim
  | oallocAt addr order => exact hs.elim
  | alloc size => trivial
  | oalloc order => trivial
  | dealloc mem => trivial
  | write addr byte => trivial

/-- **One call** that meets the condition keeps count. -/
theorem Counted.step {op : ZoneOp} (h : Inv b z) (hc : Counted z) (hs : Sized op)
    (hlegal : Legal z op) (ha : Accounts z op) (he : step L z op = some z') : Counted z' := by
  obtain ⟨⟨seqs, h₁⟩, -, -⟩ := h
  cases op with
  | allocAt addr size => exact hs.elim
  | oallocAt addr order => exact hs.elim
  | alloc size =>
    obtain ⟨r, hr, rfl⟩ := Option.map_eq_some_iff.1 he
    unfold alloc at hr
    split_ifs at hr with h0
    · obtain rfl : (z.allocer, none) = r := Option.some.inj hr
      exact hc
    · exact hc.allocated h₁ hr
  | oalloc order =>
    obtain ⟨r, hr, rfl⟩ := Option.map_eq_some_iff.1 he
    exact hc.allocated h₁ hr
  | realloc mem size =>
    obtain ⟨r, hr, rfl⟩ := Option.map_eq_some_iff.1 he
    unfold realloc at hr
    split_ifs at hr with h0
    · obtain rfl : (z.allocer, z.bytes, none) = r := Option.some.inj hr
      exact hc
    · exact hc.reallocated h₁ hlegal (ha h0) hr
  | orealloc mem order =>
    obtain ⟨r, hr, rfl⟩ := Option.map_eq_some_iff.1 he
    exact hc.reallocated h₁ hlegal ha hr
  | dealloc mem =>
    obtain ⟨b', hr, rfl⟩ := Option.map_eq_some_iff.1 he
    have h₂ := h₁.perm (List.perm_cons_erase hlegal)
    have hspace := dealloc_freeSpace h₂ hr
    obtain ⟨b₁, k, he₁, -, -, -, -, hsame, -⟩ := dealloc_spec h₂
    obtain rfl : b₁ = b' := Option.some.inj (he₁.symm.trans hr)
    have hsum := sum_erase hlegal
    unfold Counted at hc ⊢
    simp only [hsame.metaStart, hsame.start]
    omega
  | write addr byte =>
    obtain rfl := Option.some.inj he
    exact hc

/-- `new` counts the whole zone. -/
theorem counted_new {A : AlignVirt} {nodes : NodeMem} {sizes : Ptr → ℕ} {bitmap : ℕ → BitVec 8}
    {startAddr endAddr minOrderSize : ℕ} {bytes : Bytes}
    (hnew : new A nodes sizes bitmap startAddr endAddr minOrderSize = some b) :
    Counted ⟨b, [], bytes⟩ := by
  simp only [BuddyAllocator.new, Option.bind_eq_bind] at hnew
  obtain ⟨start, -, he⟩ := Option.bind_eq_some_iff.1 hnew
  split_ifs at he
  have hfixed := initOrders_fixed he
  unfold Counted
  simp only [hfixed, List.map_nil, List.sum_nil, add_zero]

/-- **The counter along a run**: when every reallocation of a run meets the condition, `free_space` is
the sum of the free blocks, and with the live allocations that of the zone.  What is handed out next
is counted off without an underflow. -/
theorem run_freeSpace {A : AlignVirt} {nodes : NodeMem} {sizes : Ptr → ℕ} {bitmap : ℕ → BitVec 8}
    {startAddr endAddr minOrderSize : ℕ} (hend : endAddr < usizeMod)
    (hnew : new A nodes sizes bitmap startAddr endAddr minOrderSize = some b) (bytes : Bytes)
    (ops : List ZoneOp) (hsized : ∀ op ∈ ops, Sized op)
    (hlegal : Along (step L) Legal ⟨b, [], bytes⟩ ops)
    (hc : Along (step L) Accounts ⟨b, [], bytes⟩ ops) :
    ∃ z, run (step L) ⟨b, [], bytes⟩ ops = some z ∧
      z.allocer.freeSpace = ((freeList z.allocer z.allocer.freeNodes).map Block.size).sum ∧
      z.allocer.freeSpace + (z.live.map Block.size).sum = b.metaStart - b.start ∧
      ∀ order b' a, z.allocer.oalloc order = some (b', some a) →
        b'.freeSpace + a.size = z.allocer.freeSpace := by
  have h₀ : Inv b ⟨b, [], bytes⟩ := by
    obtain ⟨seqs, h, hg, -⟩ := new_spec hend hnew
    exact ⟨⟨seqs, h⟩, same_update b _ _ _ _, h.largest hg⟩
  have hsized' : Along (step L) (fun _ op => Sized op) ⟨b, [], bytes⟩ ops :=
    along_of_forall hsized
  obtain ⟨z, he, h, hcount⟩ := run_inv (fun z => Inv b z ∧ Counted z)
    (fun z op hz hop => by
      obtain ⟨z', he, h'⟩ := step_spec hz.1 op hop.1.1 (hop.1.2.guarded hop.2)
      exact ⟨z', he, h', hz.2.step hz.1 hop.2 hop.1.1 hop.1.2 he⟩)
    ⟨h₀, counted_new hnew⟩ ((hlegal.and hc).and hsized')
  obtain ⟨⟨seqs, h₁⟩, hsame, -⟩ := h
  have htotal := h₁.core.tiles.sum_size
  rw [← h₁.freeList_eq, ← funext h₁.freeNodes_eq, List.map_append, List.sum_append] at htotal
  have hcount' := hcount
  unfold Counted at hcount'
  refine ⟨z, he, by omega, by rw [hcount', hsame.metaStart, hsame.start], fun order b' a hb => ?_⟩
  exact hcount.oalloc h₁ hb

/-- Six pages: a block of two pages shrinks to one, and the counter gets two pages back. -/
theorem run_freeSpace_fails :
    ∃ b z, sixPages = some b ∧
      Along (step pageLayout) Legal (fresh b) [.oalloc 1, .orealloc ⟨0x8000, 0x2000⟩ 0] ∧
      run (step pageLayout) (fresh b) [.oalloc 1, .orealloc ⟨0x8000, 0x2000⟩ 0] = some z ∧
      z.allocer.freeSpace ≠ ((freeList z.allocer z.allocer.freeNodes).map Block.size).sum ∧
      z.allocer.freeSpace + (z.live.map Block.size).sum > b.metaStart - b.start := by
  have hsome : sixPages.isSome := by decide +kernel
  obtain ⟨b, hb⟩ := Option.isSome_iff_exists.1 hsome
  have hrun : ∀ b ∈ sixPages,
      Along (step pageLayout) Legal (fresh b) [.oalloc 1, .orealloc ⟨0x8000, 0x2000⟩ 0] ∧
      (run (step pageLayout) (fresh b) [.oalloc 1, .orealloc ⟨0x8000, 0x2000⟩ 0]).isSome ∧
      ∀ z ∈ run (step pageLayout) (fresh b) [.oalloc 1, .orealloc ⟨0x8000, 0x2000⟩ 0],
        z.allocer.freeSpace ≠ ((freeList z.allocer z.allocer.freeNodes).map Block.size).sum ∧
        z.allocer.freeSpace + (z.live.map Block.size).sum > b.metaStart - b.start := by
    decide +kernel
  obtain ⟨hlegal, hsome', hall⟩ := hrun b hb
  obtain ⟨z, hz⟩ := Option.isSome_iff_exists.1 hsome'
  exact ⟨b, z, hb, hlegal, hz, hall z hz⟩

/-- The block of four pages is handed out and shrinks to two, a page is handed out and freed, and a
block of two is asked to keep its size. -/
theorem run_freeSpace_sample :
    ∃ b z, sixPages = some b ∧
      run (step pageLayout) (fresh b) [.oalloc 2, .orealloc ⟨0x4000, 0x4000⟩ 1, .alloc 4096,
        .dealloc ⟨0x6000, 0x1000⟩, .realloc ⟨0x4000, 0x2000⟩ 8192] = some z ∧
      z.allocer.freeSpace = ((freeList z.allocer z.allocer.freeNodes).map Block.size).sum ∧
      z.allocer.freeSpace + (z.live.map Block.size).sum = b.metaStart - b.start ∧
      ∀ order b' a, z.allocer.oalloc order = some (b', some a) →
        b'.freeSpace + a.size = z.allocer.freeSpace := by
  let ops : List ZoneOp := [.oalloc 2, .orealloc ⟨0x4000, 0x4000⟩ 1, .alloc 4096,
    .dealloc ⟨0x6000, 0x1000⟩, .realloc ⟨0x4000, 0x2000⟩ 8192]
  have hsome : sixPages.isSome := by decide +kernel
  obtain ⟨b, hb⟩ := Option.isSome_iff_exists.1 hsome
  have hrun : ∀ b ∈ sixPages, Along (step pageLayout) Legal (fresh b) ops ∧
      Along (step pageLayout) Accounts (fresh b) ops := by decide +kernel
  obtain ⟨hlegal, hacc⟩ := hrun b hb
  obtain ⟨z, hz, hspec⟩ := run_freeSpace (by decide : 0xb000 < usizeMod) hb (fun _ => 0) ops
    (by decide) hlegal hacc
  exact ⟨b, z, hb, hz, hspec⟩

end Zone
end AuroraOs
