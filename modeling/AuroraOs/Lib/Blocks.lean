import Mathlib

/-!
# Blocks of addresses

Half-open ranges of addresses, and how often an address is covered by a list of them.  `Packed`
lists cover no address twice; `Tiles lo hi` lists cover every address of `[lo, hi)` exactly once
and no other.  Both depend on the list up to permutation only, and cutting a block in two changes
no cover, so an allocator that moves and cuts blocks keeps them by rewriting.
-/

namespace Blocks

/-- A range of `size` addresses from `addr` on. -/
structure Block where
  addr : ℕ
  size : ℕ
  deriving DecidableEq, Repr

/-- The address lies in the block. -/
abbrev Block.Has (b : Block) (x : ℕ) : Prop := b.addr ≤ x ∧ x < b.addr + b.size

/-- No address lies in both blocks. -/
def Block.Disjoint (b c : Block) : Prop := ∀ x, b.Has x → ¬ c.Has x

/-- The addresses of the block lie in the other. -/
def Block.Within (b c : Block) : Prop := ∀ x, b.Has x → c.Has x

/-- The number of blocks that an address lies in. -/
def cover (bs : List Block) (x : ℕ) : ℕ := bs.countP fun b => decide (b.Has x)

/-- No address lies in two blocks. -/
def Packed (bs : List Block) : Prop := ∀ x, cover bs x ≤ 1

/-- The blocks partition the range. -/
def Tiles (lo hi : ℕ) (bs : List Block) : Prop :=
  ∀ x, cover bs x = if lo ≤ x ∧ x < hi then 1 else 0

variable {lo mid hi a s t x : ℕ} {b c : Block} {bs cs : List Block}

instance : Std.Symm Block.Disjoint := ⟨fun _ _ h x hc hb => h x hb hc⟩

theorem Block.within_iff (hb : 0 < b.size) :
    b.Within c ↔ c.addr ≤ b.addr ∧ b.addr + b.size ≤ c.addr + c.size := by
  constructor
  · intro h
    have hfirst := h b.addr ⟨le_rfl, by omega⟩
    have hlast := h (b.addr + b.size - 1) ⟨by omega, by omega⟩
    exact ⟨hfirst.1, by omega⟩
  · rintro ⟨h1, h2⟩ x hx
    exact ⟨by omega, by omega⟩

/-- Of two disjoint blocks one ends before the other begins. -/
theorem Block.disjoint_iff (hb : 0 < b.size) (hc : 0 < c.size) :
    b.Disjoint c ↔ b.addr + b.size ≤ c.addr ∨ c.addr + c.size ≤ b.addr := by
  constructor
  · intro h
    by_contra hno
    exact h (max b.addr c.addr) ⟨by omega, by omega⟩ ⟨by omega, by omega⟩
  · intro h x hx hx'
    omega

@[simp] theorem cover_nil : cover [] x = 0 := rfl

theorem cover_cons : cover (b :: bs) x = (if b.Has x then 1 else 0) + cover bs x := by
  rw [cover, List.countP_cons, cover, add_comm]
  simp

@[simp] theorem cover_append : cover (bs ++ cs) x = cover bs x + cover cs x :=
  List.countP_append

theorem cover_perm (h : bs.Perm cs) : cover bs x = cover cs x := h.countP_eq _

/-- Cutting a block in two. -/
theorem cover_cut : cover (⟨a, s + t⟩ :: bs) x = cover (⟨a, s⟩ :: ⟨a + s, t⟩ :: bs) x := by
  simp only [cover_cons, Block.Has]
  split_ifs <;> omega

theorem cover_pos_iff : 0 < cover bs x ↔ ∃ b ∈ bs, b.Has x := by
  rw [cover, List.countP_pos_iff]
  simp

theorem cover_le_cover (h : bs.Sublist cs) : cover bs x ≤ cover cs x :=
  List.Sublist.countP_le h

/-! ### Packed lists -/

theorem Packed.perm (h : Packed bs) (hp : bs.Perm cs) : Packed cs :=
  fun x => cover_perm hp ▸ h x

theorem Packed.sublist (h : Packed cs) (hs : bs.Sublist cs) : Packed bs :=
  fun x => (cover_le_cover hs).trans (h x)

theorem packed_cons : Packed (b :: bs) ↔ Packed bs ∧ ∀ c ∈ bs, b.Disjoint c := by
  constructor
  · intro h
    refine ⟨h.sublist (List.sublist_cons_self b bs), fun c hc x hb hcx => ?_⟩
    have h1 := h x
    have h2 : 0 < cover bs x := cover_pos_iff.2 ⟨c, hc, hcx⟩
    rw [cover_cons, if_pos hb] at h1
    omega
  · rintro ⟨h, hd⟩ x
    rw [cover_cons]
    split_ifs with hb
    · have : ¬ 0 < cover bs x := fun hpos => by
        obtain ⟨c, hc, hcx⟩ := cover_pos_iff.1 hpos
        exact hd c hc x hb hcx
      omega
    · have := h x
      omega

/-- Packed lists are those whose blocks are pairwise disjoint. -/
theorem packed_iff_pairwise : Packed bs ↔ bs.Pairwise Block.Disjoint := by
  induction bs with
  | nil => simp [Packed]
  | cons b bs ih => rw [packed_cons, ih, List.pairwise_cons, and_comm]

/-! ### Tilings -/

theorem Tiles.packed (h : Tiles lo hi bs) : Packed bs := by
  intro x
  rw [h x]
  split_ifs <;> omega

theorem Tiles.perm (h : Tiles lo hi bs) (hp : bs.Perm cs) : Tiles lo hi cs :=
  fun x => cover_perm hp ▸ h x

theorem tiles_nil : Tiles lo lo [] := by
  intro x
  rw [cover_nil, if_neg]
  omega

/-- A tiling grows by a block at its end. -/
theorem Tiles.snoc (h : Tiles lo mid bs) (hle : lo ≤ mid) : Tiles lo (mid + s) (⟨mid, s⟩ :: bs) := by
  intro x
  rw [cover_cons, h x]
  simp only [Block.Has]
  split_ifs <;> omega

theorem Tiles.cut (h : Tiles lo hi (⟨a, s + t⟩ :: bs)) : Tiles lo hi (⟨a, s⟩ :: ⟨a + s, t⟩ :: bs) :=
  fun x => by rw [← cover_cut, h x]

/-- Every address of the range lies in a block. -/
theorem Tiles.exists_has (h : Tiles lo hi bs) (hlo : lo ≤ x) (hhi : x < hi) :
    ∃ b ∈ bs, b.Has x := by
  rw [← cover_pos_iff, h x, if_pos ⟨hlo, hhi⟩]
  exact Nat.one_pos

/-- Every nonempty block lies in the range. -/
theorem Tiles.subset (h : Tiles lo hi bs) (hb : b ∈ bs) (hpos : 0 < b.size) :
    lo ≤ b.addr ∧ b.addr + b.size ≤ hi := by
  have hin : ∀ x, b.Has x → lo ≤ x ∧ x < hi := by
    intro x hx
    have hc : 0 < cover bs x := cover_pos_iff.2 ⟨b, hb, hx⟩
    rw [h x] at hc
    by_contra hn
    rw [if_neg hn] at hc
    omega
  have h1 := hin b.addr ⟨le_rfl, by omega⟩
  have h2 := hin (b.addr + b.size - 1) ⟨by omega, by omega⟩
  omega

/-- Counting addresses below a bound that no block passes counts sizes. -/
theorem sum_cover (h : ∀ b ∈ bs, 0 < b.size → b.addr + b.size ≤ hi) :
    ∑ x ∈ Finset.range hi, cover bs x = (bs.map Block.size).sum := by
  induction bs with
  | nil => simp
  | cons b bs ih =>
    have hb : ∑ x ∈ Finset.range hi, (if b.Has x then 1 else 0) = b.size := by
      rw [← Finset.card_filter]
      rcases Nat.eq_zero_or_pos b.size with h0 | hpos
      · have hempty : (Finset.range hi).filter (fun x => b.Has x) = ∅ :=
          Finset.filter_eq_empty_iff.2 fun x _ hx => by
            have := hx.1
            have := hx.2
            omega
        rw [hempty, Finset.card_empty, h0]
      · have hle := h b List.mem_cons_self hpos
        have hico : (Finset.range hi).filter (fun x => b.Has x)
            = Finset.Ico b.addr (b.addr + b.size) := by
          ext x
          simp only [Finset.mem_filter, Finset.mem_range, Finset.mem_Ico, Block.Has]
          omega
        rw [hico, Nat.card_Ico]
        omega
    simp only [cover_cons, Finset.sum_add_distrib, hb, List.map_cons, List.sum_cons]
    rw [ih fun c hc => h c (List.mem_cons_of_mem _ hc)]

/-- The blocks of a tiling add up to the range. -/
theorem Tiles.sum_size (h : Tiles lo hi bs) : (bs.map Block.size).sum = hi - lo := by
  rw [← sum_cover fun b hb hpos => (h.subset hb hpos).2]
  simp only [h _]
  rw [← Finset.card_filter]
  have hico : (Finset.range hi).filter (fun x => lo ≤ x ∧ x < hi) = Finset.Ico lo hi := by
    ext x
    simp only [Finset.mem_filter, Finset.mem_range, Finset.mem_Ico]
    omega
  rw [hico, Nat.card_Ico]

/-- Nonempty blocks of a packed list start at different addresses. -/
theorem Packed.addr_ne (h : Packed (b :: bs)) (hb : 0 < b.size) (hc : c ∈ bs) (hpos : 0 < c.size) :
    b.addr ≠ c.addr := by
  intro heq
  refine (packed_cons.1 h).2 c hc b.addr ⟨le_rfl, by omega⟩ ⟨heq.ge, by omega⟩

/-! ### Separated lists -/

/-- The block ends before the other one begins, and they do not touch. -/
def Block.Before (b c : Block) : Prop := b.addr + b.size < c.addr

/-- Blocks in the order of their addresses, with gaps in between. -/
def Separated (bs : List Block) : Prop := bs.Pairwise Block.Before

/-- Without a gap to leave, a separated tiling is one block. -/
theorem Tiles.eq_singleton (h : Tiles lo hi bs) (hs : Separated bs) (hpos : ∀ b ∈ bs, 0 < b.size)
    (hlt : lo < hi) : bs = [⟨lo, hi - lo⟩] := by
  cases bs with
  | nil =>
    obtain ⟨b, hb, -⟩ := h.exists_has le_rfl hlt
    simp at hb
  | cons b bs =>
    obtain ⟨hbefore, -⟩ := List.pairwise_cons.1 hs
    obtain ⟨hlo, hhi⟩ := h.subset List.mem_cons_self (hpos b List.mem_cons_self)
    -- the address that begins or ends the first block has a block of its own
    have hfirst : ∀ x, x < b.addr ∨ b.addr + b.size ≤ x → x ≤ b.addr + b.size → lo ≤ x → ¬ x < hi := by
      intro x hout hle hlox hxhi
      obtain ⟨c, hc, hcx⟩ := h.exists_has hlox hxhi
      rcases List.mem_cons.1 hc with rfl | hc
      · simp only [Block.Has] at hcx
        omega
      · have := hbefore c hc
        simp only [Block.Before, Block.Has] at this hcx
        omega
    have h1 := hfirst lo
    have h2 := hfirst (b.addr + b.size)
    have hnil : bs = [] := by
      refine List.eq_nil_iff_forall_not_mem.2 fun c hc => ?_
      have hb := hbefore c hc
      have hsub := h.subset (List.mem_cons_of_mem _ hc) (hpos c (List.mem_cons_of_mem _ hc))
      simp only [Block.Before] at hb
      omega
    obtain ⟨a, s⟩ := b
    simp only at hlo hhi h1 h2
    rw [hnil, show a = lo by omega, show s = hi - lo by omega]

/-! ### Families of lists -/

/-- Adding one element to one list of a family. -/
theorem flatMap_perm_cons {ι α : Type*} {l : List ι} {f g : ι → List α} {i : ι} {e : α}
    (hl : l.Nodup) (hi : i ∈ l) (he : (g i).Perm (e :: f i)) (hne : ∀ j ∈ l, j ≠ i → g j = f j) :
    (l.flatMap g).Perm (e :: l.flatMap f) := by
  induction l with
  | nil => simp at hi
  | cons j l ih =>
    obtain ⟨hj, hl⟩ := List.nodup_cons.1 hl
    rw [List.flatMap_cons, List.flatMap_cons]
    rcases List.mem_cons.1 hi with rfl | hi
    · have : l.flatMap g = l.flatMap f := List.flatMap_congr fun k hk =>
        hne k (by simp [hk]) fun h => hj (h ▸ hk)
      rw [this]
      exact he.append_right _
    · have hji : j ≠ i := fun h => hj (h ▸ hi)
      rw [hne j (by simp) hji]
      refine ((ih hl hi fun k hk => hne k (by simp [hk])).append_left (f j)).trans ?_
      exact List.perm_middle

end Blocks
