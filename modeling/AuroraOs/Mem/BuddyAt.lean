import AuroraOs.Mem.BuddyCoalesce

/-!
# Allocation at an address

`oalloc_at` looks for the free block around an address by following the buddies upwards, and takes a
buddy to be free when it lies in the zone and its first page is not marked.  The guess is right when
the search stops at the free block that holds the address; then the call hands out exactly the block
asked for.  When a check fails the block is not there to be had.
-/

namespace AuroraOs

open Blocks LinkedList

namespace BuddyAllocator

variable {b b' : BuddyAllocator} {addr hi i k m n p q size order : ℕ} {seqs seqs' : ℕ → List Ptr}
  {live held : List Allocation}

theorem getOrderSize_eq (b : BuddyAllocator) (k : ℕ) :
    b.getOrderSize k = 2 ^ (b.minOrderBits + k) := by
  rw [getOrderSize, add_comm]

/-! ### The checks -/

theorem ucontains_iff (h : Geometry b) (hsize : addr + size ≤ b.metaStart) (hpos : 0 < size) :
    b.ucontains addr size = true ↔ b.start ≤ addr ∧ b.minOrderSize ∣ addr := by
  have hmeta := h.meta_lt
  rw [ucontains, decide_eq_true_iff, Nat.mod_eq_of_lt (by omega)]
  constructor
  · rintro ⟨h1, -, h3⟩
    refine ⟨h1, ?_⟩
    obtain ⟨j, hj⟩ := alignOf_eq_two_pow addr
    rw [hj, h.size_eq] at h3
    rw [h.size_eq]
    have hle := (Nat.pow_le_pow_iff_right (by decide)).1 h3
    exact (pow_dvd_pow 2 hle).trans (hj ▸ alignOf_dvd addr)
  · rintro ⟨h1, h2⟩
    refine ⟨h1, hsize, ?_⟩
    have hpos' : 0 < addr := (h.start_pos (by omega)).trans_le h1
    rw [h.size_eq] at h2 ⊢
    exact Nat.le_of_dvd (alignOf_pos addr) (dvd_alignOf hpos' (by omega) h2)

/-- A step of `order_expand_cap` goes on. -/
def Expands (b : BuddyAllocator) (addr size : ℕ) : Prop :=
  ¬ (addr ^^^ size < addr ∨ ((addr ^^^ size) + size) % usizeMod > b.metaStart ∨
    b.isAlloced (addr ^^^ size) = true)

theorem le_orderExpandCapFrom_iff {fuel : ℕ} (hn : n ≤ fuel) (hk : k + n ≤ 64) :
    n ≤ b.orderExpandCapFrom fuel addr (2 ^ k) ↔ ∀ i < n, Expands b addr (2 ^ (k + i)) := by
  induction n generalizing fuel k with
  | zero => simp
  | succ n ih =>
    obtain ⟨fuel, rfl⟩ : ∃ f, fuel = f + 1 := ⟨fuel - 1, by omega⟩
    rw [orderExpandCapFrom]
    have hsplit : (∀ i < n + 1, Expands b addr (2 ^ (k + i))) ↔
        Expands b addr (2 ^ k) ∧ ∀ i < n, Expands b addr (2 ^ (k + 1 + i)) := by
      rw [Nat.forall_lt_succ_left]
      simp only [add_zero, add_assoc, add_comm 1]
    rw [hsplit]
    by_cases hE : Expands b addr (2 ^ k)
    · simp only [if_neg hE, hE, true_and, Nat.add_le_add_iff_right]
      rcases Nat.eq_zero_or_pos n with rfl | hpos
      · simp
      · have hdouble : 2 * 2 ^ k % usizeMod = 2 ^ (k + 1) := by
          rw [← pow_succ']
          exact Nat.mod_eq_of_lt (Nat.pow_lt_pow_right (by decide) (by omega))
        rw [hdouble, ih (by omega) (by omega)]
    · have hstop := not_not.1 hE
      simp [if_pos hstop, hE]

/-- The address of a block that can expand is aligned to the size it would have. -/
theorem dvd_of_expands (hd : 2 ^ k ∣ addr) (h : ∀ i < n, addr ≤ addr ^^^ 2 ^ (k + i)) :
    2 ^ (k + n) ∣ addr := by
  induction n with
  | zero => exact hd
  | succ n ih =>
    have hdn := ih fun i hi => h i (by omega)
    rcases xor_buddy hdn with ⟨hd', -⟩ | ⟨q, -, hq, hx⟩
    · exact hd'
    · have hle := h n (by omega)
      have hpos : 0 < 2 ^ (k + n) := by positivity
      omega

/-! ### Free blocks -/

/-- A block on a list lies in the zone. -/
theorem Core.mem_bounds (h : Core b hi seqs held) (hp : p ∈ seqs k) :
    b.start ≤ p ∧ p + 2 ^ (b.minOrderBits + k) ≤ hi := by
  have hk := (h.order_lt hp).trans_lt h.geom.maxOrder_lt
  exact h.tiles.subset (b := ⟨p, 2 ^ (b.minOrderBits + k)⟩)
    (List.mem_append_left _ (mem_freeBlocks.2 ⟨k, hk, hp, rfl⟩)) (by positivity)

/-- No address of a block on a list is held. -/
theorem Core.not_held (h : Core b hi seqs held) (hp : p ∈ seqs k) {c : Block} (hc : c ∈ held)
    {x : ℕ} (hx : p ≤ x) (hx' : x < p + 2 ^ (b.minOrderBits + k)) : ¬ c.Has x := by
  have hk := (h.order_lt hp).trans_lt h.geom.maxOrder_lt
  have hpair := List.pairwise_append.1 (packed_iff_pairwise.1 h.tiles.packed)
  exact hpair.2.2 ⟨p, 2 ^ (b.minOrderBits + k)⟩ (mem_freeBlocks.2 ⟨k, hk, hp, rfl⟩) c hc x ⟨hx, hx'⟩

/-- No page of a block on a list is marked. -/
theorem Inv.not_alloced (h : Inv b seqs live) (hp : p ∈ seqs k) (hx : p ≤ addr)
    (hx' : addr < p + 2 ^ (b.minOrderBits + k)) (hd : b.minOrderSize ∣ addr) :
    b.isAlloced addr = false := by
  obtain ⟨hlo, hhi⟩ := h.core.mem_bounds hp
  rw [Bool.eq_false_iff, ne_eq, h.bitmap addr (by omega) (by omega) hd]
  rintro ⟨a, ha, rfl⟩
  exact h.core.not_held hp ha hx hx' ⟨le_rfl, by have := (h.live_mem ha).2.2.1; omega⟩

/-! ### Splitting -/

/-- **`cutAt`** puts the two halves of a free block on the list of the order below. -/
theorem cutAt_spec (h : Core b hi seqs held) (hp : p ∈ seqs (k + 1)) :
    ∃ L N seqs', b.cutAt p (p + 2 ^ (b.minOrderBits + k)) k
        = some { b with lists := L, nodeSize := N } ∧
      Core { b with lists := L, nodeSize := N } hi seqs' held ∧
      Untouched b { b with lists := L, nodeSize := N } held ∧
      p ∈ seqs' k ∧ p + 2 ^ (b.minOrderBits + k) ∈ seqs' k := by
  have hk : k + 1 ≤ b.maxOrder := h.order_lt hp
  have hdvd : 2 ^ (b.minOrderBits + k) ∣ p := (pow_dvd_pow 2 (by omega)).trans (h.free _ p hp).2
  have hpos : 0 < 2 ^ (b.minOrderBits + k) := by positivity
  have hne : p + 2 ^ (b.minOrderBits + k) ≠ p := by omega
  have hroom := h.geom.node_le k
  obtain ⟨L₁, he₁, h₁, hu₁⟩ := removeNode_spec h hp
  obtain ⟨h₂, hu₂⟩ := setSize_spec h₁ (by positivity) (2 ^ (b.minOrderBits + k))
  have h₃ : Core ({ b with lists := L₁ }.setSize p (2 ^ (b.minOrderBits + k))) hi
      (Function.update seqs (k + 1) ((seqs (k + 1)).erase p))
      (⟨p + 2 ^ (b.minOrderBits + k), 2 ^ (b.minOrderBits + k)⟩ ::
        ⟨p, 2 ^ (b.minOrderBits + k)⟩ :: held) := by
    refine h₂.congr_held fun x => ?_
    rw [cover_perm (List.Perm.swap _ _ _), ← cover_cut, ← two_mul, ← pow_succ', add_assoc]
  obtain ⟨L₄, he₄, h₄, hu₄⟩ := nodeNew_spec h₃ hpos (2 ^ (b.minOrderBits + k))
  have h₄' : Core _ hi (Function.update seqs (k + 1) ((seqs (k + 1)).erase p))
      (⟨p, 2 ^ (b.minOrderBits + k)⟩ ::
        ⟨p + 2 ^ (b.minOrderBits + k), 2 ^ (b.minOrderBits + k)⟩ :: held) :=
    h₄.congr_held fun x => cover_perm (List.Perm.swap _ _ _)
  obtain ⟨L₅, he₅, h₅, hu₅⟩ := push_le_spec (k := k) h₄' (by show k ≤ b.maxOrder; omega)
    ((Function.update_of_ne hne.symm _ _).trans (Function.update_self _ _ _)) hdvd
  obtain ⟨L₆, he₆, h₆, hu₆⟩ := push_le_spec (k := k) h₅ (by show k ≤ b.maxOrder; omega)
    (Function.update_self _ _ _) ((Nat.dvd_add_right hdvd).2 dvd_rfl)
  refine ⟨L₆, _, _, ?_, h₆, ?_, ?_, ?_⟩
  · rw [cutAt, asRef_of_ne ((h.lists.repr _).ne_null hp), getOrderSize_eq]
    simp only [Option.bind_eq_bind, Option.bind_some, he₁, he₄, he₅]
    exact he₆
  · have hu₄₆ := ((hu₄ hroom).mono (List.subset_cons_self _ _)).trans
      ((hu₅.mono (List.subset_cons_self _ _)).trans hu₆)
    exact hu₁.trans ((hu₂ (h.geom.node_le (k + 1))).trans hu₄₆)
  · simp
  · simp

/-- The search for the block around an address stops at the block. -/
def Stops (b : BuddyAllocator) (p k : ℕ) : Prop :=
  k ≥ b.maxOrder ∨ b.ucontains (p ^^^ b.getOrderSize k) (b.getOrderSize k) = false ∨
    b.isAlloced (p ^^^ b.getOrderSize k) = true

instance (b : BuddyAllocator) (p k : ℕ) : Decidable (Stops b p k) :=
  inferInstanceAs (Decidable (_ ∨ _ ∨ _))

/-- The search goes on inside a free block. -/
theorem Inv.not_stops (h : Inv b seqs live) (hm : p ∈ seqs m) (hk : k < m)
    (hd : 2 ^ (b.minOrderBits + k) ∣ addr) (hlo : p ≤ addr ^^^ 2 ^ (b.minOrderBits + k))
    (hhi : (addr ^^^ 2 ^ (b.minOrderBits + k)) + 2 ^ (b.minOrderBits + k)
      ≤ p + 2 ^ (b.minOrderBits + m)) : ¬ Stops b addr k := by
  have hpos : 0 < 2 ^ (b.minOrderBits + k) := by positivity
  have hmax := h.core.order_lt hm
  obtain ⟨hlo', hhi'⟩ := h.core.mem_bounds hm
  have hpage : b.minOrderSize ∣ addr ^^^ 2 ^ (b.minOrderBits + k) := by
    have hb : b.minOrderSize ∣ 2 ^ (b.minOrderBits + k) := by
      rw [h.core.geom.size_eq]
      exact pow_dvd_pow 2 (by omega)
    rcases xor_buddy hd with ⟨-, hx⟩ | ⟨q, hq, -, hx⟩
    · rw [hx]
      exact dvd_add (hb.trans hd) hb
    · rw [hx]
      exact (hb.trans (pow_dvd_pow 2 (Nat.le_succ _))).trans hq
  unfold Stops
  rw [getOrderSize_eq, (ucontains_iff h.core.geom (hhi.trans hhi') hpos).2 ⟨hlo'.trans hlo, hpage⟩,
    h.not_alloced hm hlo (by omega) hpage]
  simp
  omega

/-- **`split_order_at`** on an address in a free block at which the search stops: the block of the
order at the address is on its list. -/
theorem splitOrderAt_spec (h : Inv b seqs live) (hp : p ∈ seqs m) (hstop : Stops b p m)
    (hk : k ≤ m) (hd : 2 ^ (b.minOrderBits + k) ∣ addr) (hlo : p ≤ addr)
    (hhi : addr + 2 ^ (b.minOrderBits + k) ≤ p + 2 ^ (b.minOrderBits + m)) :
    ∃ L N seqs', b.splitOrderAt addr k = some { b with lists := L, nodeSize := N } ∧
      Core { b with lists := L, nodeSize := N } b.metaStart seqs' live ∧
      Untouched b { b with lists := L, nodeSize := N } live ∧ addr ∈ seqs' k := by
  -- induction on the orders between the address and the block
  induction hn : m - k generalizing k addr with
  | zero =>
    obtain rfl : k = m := by omega
    obtain rfl : addr = p := by omega
    refine ⟨b.lists, b.nodeSize, seqs, ?_, h.core, .refl b live, hp⟩
    rw [splitOrderAt]
    rcases hstop with hmax | hstop
    · rw [dif_pos hmax]
    · by_cases hmax : k ≥ b.maxOrder
      · rw [dif_pos hmax]
      · rw [dif_neg hmax, if_pos hstop]
  | succ n ih =>
    set s := 2 ^ (b.minOrderBits + k) with hs
    have hpos : 0 < s := by positivity
    have hdp : 2 ^ (b.minOrderBits + k + 1) ∣ p :=
      (pow_dvd_pow 2 (by omega)).trans (h.core.free m p hp).2
    have hdm : 2 ^ (b.minOrderBits + k + 1) ∣ p + 2 ^ (b.minOrderBits + m) :=
      dvd_add hdp (pow_dvd_pow 2 (by omega))
    -- the lower one of the address and its buddy, and the block of both
    obtain ⟨q, hdq, hmin, hmax, hmem, hbuddy⟩ : ∃ q, 2 ^ (b.minOrderBits + k + 1) ∣ q ∧
        min addr (addr ^^^ s) = q ∧ max addr (addr ^^^ s) = q + s ∧ (addr = q ∨ addr = q + s) ∧
        (addr ^^^ s = q ∨ addr ^^^ s = q + s) := by
      rcases xor_buddy hd with ⟨hd', hx⟩ | ⟨q, hq, rfl, hx⟩
      · refine ⟨addr, hd', ?_, ?_, .inl rfl, .inr hx⟩
        · rw [hx, min_eq_left (by omega)]
        · rw [hx, max_eq_right (by omega)]
      · refine ⟨q, hq, ?_, ?_, .inr rfl, .inl hx⟩
        · rw [hx, min_eq_right (by omega)]
        · rw [hx, max_eq_left (by omega)]
    have hsize : 2 ^ (b.minOrderBits + k + 1) = s + s := by rw [pow_succ, ← hs]; omega
    have hqlo : p ≤ q := Nat.le_of_lt_add_of_dvd (by omega) hdp hdq
    have hqhi : q + (s + s) ≤ p + 2 ^ (b.minOrderBits + m) := by
      have hdq' : 2 ^ (b.minOrderBits + k + 1) ∣ q + (s + s) := dvd_add hdq hsize.dvd
      exact Nat.le_of_lt_add_of_dvd (by omega) hdq' hdm
    have hgo : ¬ Stops b addr k := h.not_stops hp (by omega) hd (by rw [← hs]; omega)
      (by rw [← hs]; omega)
    obtain ⟨L, N, seqs', he, h', hu, hq⟩ := ih (k := k + 1) (by omega) hdq hqlo
      (by rw [← add_assoc, hsize]; exact hqhi) (by omega)
    obtain ⟨L', N', seqs'', he', h'', hu', hqk, hqk'⟩ := cutAt_spec h' hq
    refine ⟨L', N', seqs'', ?_, h'', hu.trans hu', ?_⟩
    · simp only [Stops, not_or] at hgo
      rw [getOrderSize_eq, ← hs] at hgo
      rw [splitOrderAt, dif_neg hgo.1, getOrderSize_eq, ← hs]
      simp only [hmin, hmax]
      rw [if_neg (by tauto)]
      simp only [Option.bind_eq_bind, he, Option.bind_some]
      exact he'
    · rcases hmem with rfl | rfl
      · exact hqk
      · exact hqk'

/-! ### `oalloc_at` -/

/-- The checks of `oalloc_at` pass. -/
def Checked (b : BuddyAllocator) (addr order : ℕ) : Prop :=
  order ≤ b.maxOrder ∧ b.ucontains addr (b.getOrderSize order) = true ∧
    b.isAlloced addr = false ∧ order ≤ b.orderExpandCap addr b.minOrderSize

instance (b : BuddyAllocator) (addr order : ℕ) : Decidable (Checked b addr order) :=
  inferInstanceAs (Decidable (_ ∧ _ ∧ _ ∧ _))

/-- The address lies in a free block at which the search stops. -/
def Enclosed (b : BuddyAllocator) (addr order : ℕ) : Prop :=
  ∃ k < MAX_ORDER, order ≤ k ∧ ∃ p : ℕ, p ∈ b.freeNodes k ∧ p ≤ addr ∧
    addr + b.getOrderSize order ≤ p + b.getOrderSize k ∧ Stops b p k

instance (b : BuddyAllocator) (addr order : ℕ) : Decidable (Enclosed b addr order) :=
  inferInstanceAs (Decidable (∃ k < MAX_ORDER, order ≤ k ∧ ∃ p : ℕ, p ∈ b.freeNodes k ∧ p ≤ addr ∧
    addr + b.getOrderSize order ≤ p + b.getOrderSize k ∧ Stops b p k))

/-- The block of the order at the address is aligned, inside the zone and entirely free. -/
structure Available (b : BuddyAllocator) (addr order : ℕ) : Prop where
  aligned : b.getOrderSize order ∣ addr
  inside : b.start ≤ addr ∧ addr + b.getOrderSize order ≤ b.metaStart
  free : ∀ x, addr ≤ x → x < addr + b.getOrderSize order →
    ∃ c ∈ freeList b b.freeNodes, c.Has x

/-- No aligned block of the zone is larger than those of the largest order. -/
def Largest (b : BuddyAllocator) : Prop :=
  ∀ n p, b.minOrderBits + b.maxOrder < n → 2 ^ n ∣ p → b.start ≤ p → ¬ p + 2 ^ n ≤ b.metaStart

theorem Same.largest (h : Same b b') (hl : Largest b) : Largest b' := by
  unfold Largest
  rw [h.minOrderBits, h.maxOrder, h.start, h.metaStart]
  exact hl

/-- What `new` lays out holds a block as large as any. -/
theorem Inv.largest (h : Inv b seqs []) (hg : Greedy b seqs) : Largest b := by
  intro n p hn hd hlo hhi
  have ht := h.core.tiles
  rw [List.append_nil] at ht
  have hdy : ∀ c ∈ freeBlocks b.minOrderBits seqs, ∃ n, b.minOrderBits ≤ n ∧ IsDyadic n c :=
    fun c hc => (h.core.dyadic hc).imp fun _ hn => ⟨hn.1, hn.2.2⟩
  obtain ⟨k, rfl⟩ : ∃ k, n = b.minOrderBits + k := ⟨n - b.minOrderBits, by omega⟩
  obtain ⟨c, hc, hin⟩ := ht.inside_of_merged hdy (h.apart_of_greedy hg k).merged (by omega) le_rfl
    (b := ⟨p, 2 ^ (b.minOrderBits + k)⟩) ⟨rfl, hd⟩ hlo hhi
  obtain ⟨m, -, hm, hdc⟩ := h.core.dyadic hc
  have hsize := hdc.size
  have hlt : 2 ^ m < 2 ^ (b.minOrderBits + k) := Nat.pow_lt_pow_right (by decide) (by omega)
  unfold Inside at hin
  simp only at hin
  omega

theorem Inv.freeList_freeNodes (h : Inv b seqs live) : freeList b b.freeNodes
    = freeBlocks b.minOrderBits seqs := by
  rw [funext h.freeNodes_eq, h.freeList_eq]

/-- An address of the zone is free when no live allocation has it. -/
theorem Inv.free_iff (h : Inv b seqs live) {x : ℕ} (hlo : b.start ≤ x) (hhi : x < b.metaStart) :
    (∃ c ∈ freeList b b.freeNodes, c.Has x) ↔ ∀ a ∈ live, ¬ a.Has x := by
  rw [h.freeList_freeNodes]
  have hpair := List.pairwise_append.1 (packed_iff_pairwise.1 h.core.tiles.packed)
  constructor
  · rintro ⟨c, hc, hx⟩ a ha
    exact hpair.2.2 c hc a ha x hx
  · intro hlive
    obtain ⟨c, hc, hx⟩ := h.core.tiles.exists_has hlo hhi
    rcases List.mem_append.1 hc with hc | hc
    · exact ⟨c, hc, hx⟩
    · exact absurd hx (hlive c hc)

/-- **A block that is there passes the checks.** -/
theorem Available.checked (h : Inv b seqs live) (hl : Largest b) (ha : Available b addr order) :
    Checked b addr order := by
  obtain ⟨hd, ⟨hlo, hhi⟩, hfree⟩ := ha
  rw [getOrderSize_eq] at hd hhi hfree
  have hpos : 0 < 2 ^ (b.minOrderBits + order) := by positivity
  have hmeta := h.core.geom.meta_lt
  have hb : ∀ i, b.minOrderSize ∣ 2 ^ (b.minOrderBits + i) := fun i => by
    rw [h.core.geom.size_eq]
    exact pow_dvd_pow 2 (by omega)
  have horder : order ≤ b.maxOrder := by
    by_contra hgt
    exact hl _ addr (by omega) hd hlo hhi
  -- no page of the block is marked
  have hclear : ∀ x, addr ≤ x → x < addr + 2 ^ (b.minOrderBits + order) → b.minOrderSize ∣ x →
      b.isAlloced x = false := by
    intro x hx hx' hpage
    rw [Bool.eq_false_iff, ne_eq, h.bitmap x (by omega) (by omega) hpage]
    rintro ⟨a, ha, rfl⟩
    have hlive := (h.free_iff (by omega) (by omega)).1 (hfree _ hx hx') a ha
    exact hlive ⟨le_rfl, by have := (h.live_mem ha).2.2.1; omega⟩
  have h64 : b.minOrderBits + order ≤ 64 := by
    have hle : 2 ^ (b.minOrderBits + order) ≤ 2 ^ 64 := by simp only [usizeMod] at hmeta; omega
    exact (Nat.pow_le_pow_iff_right (by decide)).1 hle
  refine ⟨horder, ?_, hclear addr le_rfl (by omega) ((hb order).trans hd), ?_⟩
  · rw [getOrderSize_eq]
    exact (ucontains_iff h.core.geom hhi hpos).2 ⟨hlo, (hb order).trans hd⟩
  · rw [orderExpandCap, h.core.geom.size_eq]
    have hlt := h.core.geom.maxOrder_lt
    unfold MAX_ORDER at hlt
    refine (le_orderExpandCapFrom_iff (by omega) h64).2 fun i hi => ?_
    have hstep : 2 ^ (b.minOrderBits + i + 1) ≤ 2 ^ (b.minOrderBits + order) :=
      Nat.pow_le_pow_right (by decide) (by omega)
    have hx := xor_two_pow ((pow_dvd_pow 2 (by omega : b.minOrderBits + i + 1 ≤ _)).trans hd)
    rw [pow_succ] at hstep
    have hposi : 0 < 2 ^ (b.minOrderBits + i) := by positivity
    have hpage : b.minOrderSize ∣ addr + 2 ^ (b.minOrderBits + i) :=
      dvd_add ((hb order).trans hd) (hb i)
    rw [Expands, hx, hclear _ (by omega) (by omega) hpage, Nat.mod_eq_of_lt (by omega)]
    simp only [Bool.false_eq_true, or_false, not_or]
    omega

/-- An address that passes the checks is aligned. -/
theorem Checked.aligned (h : Geometry b) (h64 : b.minOrderBits + order ≤ 64)
    (hpage : b.minOrderSize ∣ addr) (hc : Checked b addr order) :
    2 ^ (b.minOrderBits + order) ∣ addr := by
  obtain ⟨hmax, -, -, hcap⟩ := hc
  have hlt := h.maxOrder_lt
  unfold MAX_ORDER at hlt
  rw [orderExpandCap, h.size_eq, le_orderExpandCapFrom_iff (by omega) h64] at hcap
  refine dvd_of_expands (h.size_eq ▸ hpage) fun i hi => ?_
  have := hcap i hi
  rw [Expands, not_or] at this
  omega

/-- **A block in a free block at which the search stops** is there if its checks pass. -/
theorem Enclosed.available (h : Inv b seqs live) (he : Enclosed b addr order)
    (hc : Checked b addr order) : Available b addr order := by
  obtain ⟨k, -, hk, p, hp, hlo, hhi, -⟩ := he
  rw [h.freeNodes_eq] at hp
  rw [getOrderSize_eq, getOrderSize_eq] at hhi
  obtain ⟨hlo', hhi'⟩ := h.core.mem_bounds hp
  have hpos : 0 < 2 ^ (b.minOrderBits + order) := by positivity
  have hmeta := h.core.geom.meta_lt
  have h64 : b.minOrderBits + order ≤ 64 := by
    have hle : 2 ^ (b.minOrderBits + order) ≤ 2 ^ 64 := by simp only [usizeMod] at hmeta; omega
    exact (Nat.pow_le_pow_iff_right (by decide)).1 hle
  have hpage : b.minOrderSize ∣ addr := by
    have hu := hc.2.1
    rw [getOrderSize_eq, ucontains_iff h.core.geom (by omega) hpos] at hu
    exact hu.2
  refine ⟨?_, ⟨by omega, by rw [getOrderSize_eq]; omega⟩, fun x hx hx' => ?_⟩
  · rw [getOrderSize_eq]
    exact hc.aligned h.core.geom h64 hpage
  · rw [getOrderSize_eq] at hx'
    exact (h.free_iff (by omega) (by omega)).2 fun a ha =>
      h.core.not_held hp ha (by omega) (by omega)

theorem oallocAt_of_not_checked (hc : ¬ Checked b addr order) :
    b.oallocAt addr order = some (b, none) := by
  unfold oallocAt
  by_cases h1 : order > b.maxOrder
  · rw [if_pos h1]
  · rw [if_neg h1]
    by_cases h2 : b.ucontains addr (b.getOrderSize order) = false
    · simp only [h2, if_true]
    · have h3 : b.isAlloced addr = true ∨ order > b.orderExpandCap addr b.minOrderSize := by
        by_contra h3
        rw [not_or, Bool.not_eq_true] at h3
        exact hc ⟨by omega, Bool.not_eq_false _ ▸ h2, h3.1, by omega⟩
      simp only [if_neg h2, if_pos h3]

/-- **`oalloc_at`** when the search stops at the block around the address: the block asked for is
handed out exactly when it is there. -/
theorem oallocAt_spec (h : Inv b seqs live) (hl : Largest b)
    (hc : Checked b addr order → Enclosed b addr order) :
    ∃ b' seqs' out, b.oallocAt addr order = some (b', out) ∧ Inv b' seqs' (out.toList ++ live) ∧
      Same b b' ∧ Untouched b b' live ∧ (out = none → b' = b) ∧
      (out.isSome ↔ Available b addr order) ∧ ∀ a ∈ out, a = ⟨addr, b.getOrderSize order⟩ := by
  by_cases hchk : Checked b addr order
  swap
  · refine ⟨b, seqs, none, oallocAt_of_not_checked hchk, h, same_update b _ _ _ _, .refl b live,
      fun _ => rfl, ?_, by simp⟩
    simpa using fun ha => hchk (Available.checked h hl ha)
  have hav := (hc hchk).available h hchk
  obtain ⟨k, -, hk, p, hp, hlo, hhi, hstop⟩ := hc hchk
  obtain ⟨hmax, hu, halloc, hcap⟩ := hchk
  rw [h.freeNodes_eq] at hp
  have hd := hav.aligned
  rw [getOrderSize_eq] at hd hhi
  rw [getOrderSize_eq] at hhi
  obtain ⟨L, N, seqs₁, he₁, h₁, hu₁, hmem⟩ := splitOrderAt_spec h hp hstop hk hd hlo hhi
  obtain ⟨L₂, he₂, h₂, hu₂⟩ := removeNode_spec h₁ hmem
  obtain ⟨B, hB, h₃⟩ := h₂.mark h.live_order h.bitmap hmax hd
    (b.freeSpace - 2 ^ (b.minOrderBits + order))
  refine ⟨_, _, some ⟨addr, 2 ^ (b.minOrderBits + order)⟩, ?_, h₃, same_update b B L₂ N _,
    hu₁.trans hu₂, by simp, by simpa using hav, by simp [getOrderSize_eq]⟩
  rw [oallocAt, if_neg (by omega)]
  have hnull := asRef_of_ne ((h₁.lists.repr order).ne_null hmem)
  simp only [hu, Bool.true_eq_false, if_false, halloc, Bool.false_eq_true, false_or]
  rw [if_neg (by omega)]
  simp only [Option.bind_eq_bind, he₁, Option.bind_some, hnull, he₂, hB, getOrderSize_eq]

theorem allocAt_spec (h : Inv b seqs live) (hl : Largest b)
    (hc : size ≠ 0 → Checked b addr (b.getOrder size) → Enclosed b addr (b.getOrder size)) :
    ∃ b' seqs' out, b.allocAt addr size = some (b', out) ∧ Inv b' seqs' (out.toList ++ live) ∧
      Same b b' ∧ Untouched b b' live := by
  unfold allocAt
  split_ifs with h0
  · exact ⟨b, seqs, none, rfl, h, same_update b _ _ _ _, .refl b live⟩
  · obtain ⟨b', seqs', out, he, h', hsame, hu, -⟩ := oallocAt_spec h hl (hc h0)
    exact ⟨b', seqs', out, he, h', hsame, hu⟩

end BuddyAllocator
end AuroraOs
