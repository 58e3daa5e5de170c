import AuroraOs.Lib.Blocks

/-!
# Dyadic blocks

A block of order `n` has `2 ^ n` addresses and stands at a multiple of its size.  Two of them that
meet are nested.  A range is tiled by dyadic blocks of bounded order in one way only, if no two
blocks of the tiling are the halves of a larger one.
-/

namespace Blocks

/-- A block of order `n`. -/
structure IsDyadic (n : ℕ) (b : Block) : Prop where
  size : b.size = 2 ^ n
  dvd : 2 ^ n ∣ b.addr

/-- Every address of the first block is one of the second. -/
def Inside (b c : Block) : Prop := c.addr ≤ b.addr ∧ b.addr + b.size ≤ c.addr + c.size

/-- The two halves of a block of the next order. -/
def Halves (n : ℕ) (b c : Block) : Prop :=
  b.size = 2 ^ n ∧ 2 ^ (n + 1) ∣ b.addr ∧ c = ⟨b.addr + 2 ^ n, 2 ^ n⟩

/-- No two blocks of order below `M` are halves of a block. -/
def Merged (M : ℕ) (bs : List Block) : Prop :=
  ∀ n < M, ∀ b ∈ bs, ∀ c ∈ bs, ¬ Halves n b c

variable {lo hi n m s M x : ℕ} {b c : Block} {bs cs : List Block}

theorem Inside.has (h : Inside b c) (hx : b.Has x) : c.Has x := by
  unfold Inside at h
  simp only [Block.Has] at *
  omega

/-- The block of order `n` of an address starts at the multiple of `2 ^ n` below it. -/
theorem IsDyadic.addr_eq (h : IsDyadic n b) (hx : b.Has x) : b.addr = x / 2 ^ n * 2 ^ n := by
  obtain ⟨q, hq⟩ := h.dvd
  have hs := h.size
  have hpos : 0 < 2 ^ n := by positivity
  have hdiv : x / 2 ^ n = q := by
    apply Nat.div_eq_of_lt_le
    · rw [mul_comm, ← hq]
      exact hx.1
    · rw [add_mul, mul_comm, ← hq, one_mul, ← hs]
      exact hx.2
  rw [hdiv, hq, mul_comm]

/-- Dyadic blocks that meet are nested. -/
theorem IsDyadic.inside (hb : IsDyadic n b) (hc : IsDyadic m c) (hnm : n ≤ m) (hx : b.Has x)
    (hx' : c.Has x) : Inside b c := by
  obtain ⟨d, rfl⟩ := Nat.exists_eq_add_of_le hnm
  have hbx := hb.addr_eq hx
  have hcx := hc.addr_eq hx'
  have hpos : 0 < 2 ^ n := by positivity
  have hpd : 0 < 2 ^ d := by positivity
  have hq : x / 2 ^ (n + d) = x / 2 ^ n / 2 ^ d := by rw [pow_add, Nat.div_div_eq_div_mul]
  rw [Inside, hb.size, hc.size, hbx, hcx, hq, pow_add]
  generalize x / 2 ^ n = q
  have h1 : q / 2 ^ d * 2 ^ d ≤ q := Nat.div_mul_le_self q _
  have h2 : q < q / 2 ^ d * 2 ^ d + 2 ^ d := Nat.lt_div_mul_add hpd
  constructor
  · calc q / 2 ^ d * (2 ^ n * 2 ^ d) = q / 2 ^ d * 2 ^ d * 2 ^ n := by ring
      _ ≤ q * 2 ^ n := Nat.mul_le_mul_right _ h1
  · calc q * 2 ^ n + 2 ^ n = (q + 1) * 2 ^ n := by ring
      _ ≤ (q / 2 ^ d * 2 ^ d + 2 ^ d) * 2 ^ n := Nat.mul_le_mul_right _ h2
      _ = q / 2 ^ d * (2 ^ n * 2 ^ d) + 2 ^ n * 2 ^ d := by ring

/-- Dyadic blocks of one order that meet are the same. -/
theorem IsDyadic.eq (hb : IsDyadic n b) (hc : IsDyadic n c) (hx : b.Has x) (hx' : c.Has x) :
    b = c := by
  have h1 := hb.addr_eq hx
  have h2 := hc.addr_eq hx'
  have h3 := hb.size
  have h4 := hc.size
  cases b
  cases c
  simp_all

/-- In a tiling by dyadic blocks, a dyadic block of the range lies in a block of the tiling, or there
are two halves below its order. -/
theorem Tiles.inside_or_halves (ht : Tiles lo hi bs) (hd : ∀ b ∈ bs, ∃ n, s ≤ n ∧ IsDyadic n b)
    (hn : s ≤ n) (hb : IsDyadic n b) (hlo : lo ≤ b.addr) (hhi : b.addr + b.size ≤ hi) :
    (∃ c ∈ bs, Inside b c) ∨ ∃ m < n, ∃ c ∈ bs, ∃ d ∈ bs, Halves m c d := by
  induction n, hn using Nat.le_induction generalizing b with
  | base =>
    have hpos : 0 < 2 ^ s := by positivity
    have hs := hb.size
    have hx : b.Has b.addr := ⟨le_rfl, by omega⟩
    obtain ⟨c, hc, hcx⟩ := ht.exists_has hlo (by omega)
    obtain ⟨m, hm, hdc⟩ := hd c hc
    exact .inl ⟨c, hc, hb.inside hdc hm hx hcx⟩
  | succ n hn ih =>
    have hpos : 0 < 2 ^ n := by positivity
    have hs := hb.size
    rw [pow_succ] at hs
    have hdvd : 2 ^ n ∣ b.addr := (pow_dvd_pow 2 (Nat.le_succ n)).trans hb.dvd
    -- the two halves of the block
    have hleft : IsDyadic n ⟨b.addr, 2 ^ n⟩ := ⟨rfl, hdvd⟩
    have hright : IsDyadic n ⟨b.addr + 2 ^ n, 2 ^ n⟩ := ⟨rfl, dvd_add hdvd dvd_rfl⟩
    have hleftx : (⟨b.addr, 2 ^ n⟩ : Block).Has b.addr := ⟨le_rfl, by simp only; omega⟩
    have hrightx : (⟨b.addr + 2 ^ n, 2 ^ n⟩ : Block).Has (b.addr + 2 ^ n) :=
      ⟨le_rfl, by simp only; omega⟩
    rcases ih hleft hlo (by simp only; omega) with ⟨c, hc, hci⟩ | ⟨m, hm, h⟩
    swap
    · exact .inr ⟨m, by omega, h⟩
    rcases ih hright (by simp only; omega) (by simp only; omega) with ⟨d, hdm, hdi⟩ | ⟨m, hm, h⟩
    swap
    · exact .inr ⟨m, by omega, h⟩
    obtain ⟨i, -, hdc⟩ := hd c hc
    obtain ⟨j, -, hdd⟩ := hd d hdm
    by_cases hi' : n + 1 ≤ i
    · exact .inl ⟨c, hc, hb.inside hdc hi' ⟨le_rfl, by omega⟩ (hci.has hleftx)⟩
    by_cases hj' : n + 1 ≤ j
    · exact .inl ⟨d, hdm, hb.inside hdd hj' ⟨by omega, by omega⟩ (hdi.has hrightx)⟩
    -- both are no larger than the halves, so they are the halves
    refine .inr ⟨n, by omega, c, hc, d, hdm, ?_⟩
    have hce : c = ⟨b.addr, 2 ^ n⟩ := by
      have hin := hdc.inside hleft (by omega) (hci.has hleftx) hleftx
      unfold Inside at hci hin
      cases c
      simp only [Block.mk.injEq] at *
      omega
    have hde : d = ⟨b.addr + 2 ^ n, 2 ^ n⟩ := by
      have hin := hdd.inside hright (by omega) (hdi.has hrightx) hrightx
      unfold Inside at hdi hin
      cases d
      simp only [Block.mk.injEq] at *
      omega
    rw [hce, hde]
    exact ⟨rfl, hb.dvd, rfl⟩

/-- A dyadic block of the range that no two halves are below lies in a block of the tiling. -/
theorem Tiles.inside_of_merged (ht : Tiles lo hi bs) (hd : ∀ b ∈ bs, ∃ n, s ≤ n ∧ IsDyadic n b)
    (hm : Merged M bs) (hn : s ≤ n) (hnM : n ≤ M) (hb : IsDyadic n b) (hlo : lo ≤ b.addr)
    (hhi : b.addr + b.size ≤ hi) : ∃ c ∈ bs, Inside b c := by
  rcases ht.inside_or_halves hd hn hb hlo hhi with h | ⟨m, hlt, c, hc, d, hdm, h⟩
  · exact h
  · exact absurd h (hm m (by omega) c hc d hdm)

/-- The block of a merged tiling at an address is at least as large as any dyadic block there. -/
theorem Tiles.order_le (ht : Tiles lo hi bs) (hd : ∀ b ∈ bs, ∃ n, s ≤ n ∧ IsDyadic n b)
    (hm : Merged M bs) (hs : s ≤ m) (hmM : m ≤ M) (hb : IsDyadic n b) (hbm : b ∈ bs)
    (hc : IsDyadic m c) (hlo : lo ≤ c.addr) (hhi : c.addr + c.size ≤ hi) (hx : b.Has x)
    (hx' : c.Has x) : m ≤ n := by
  obtain ⟨d, hdm, hin⟩ := ht.inside_of_merged hd hm hs hmM hc hlo hhi
  have hdx := hin.has hx'
  -- the block of the tiling around `c` is the one at `x`
  have hbd : b = d := by
    by_contra hne
    have hpair := packed_iff_pairwise.1 ht.packed
    exact hpair.forall hbm hdm hne x hx hdx
  subst hbd
  have hsb := hb.size
  have hsc := hc.size
  unfold Inside at hin
  by_contra hlt
  have := Nat.pow_lt_pow_right (a := 2) (by decide) (not_le.1 hlt)
  omega

/-- **A merged tiling is unique.** -/
theorem Tiles.mem_of_merged (ht : Tiles lo hi bs) (ht' : Tiles lo hi cs)
    (hd : ∀ b ∈ bs, ∃ n, s ≤ n ∧ n ≤ M ∧ IsDyadic n b)
    (hd' : ∀ b ∈ cs, ∃ n, s ≤ n ∧ n ≤ M ∧ IsDyadic n b) (hm : Merged M bs) (hm' : Merged M cs)
    (hb : b ∈ bs) : b ∈ cs := by
  obtain ⟨n, hsn, hnM, hdb⟩ := hd b hb
  have hpos : 0 < 2 ^ n := by positivity
  have hsize := hdb.size
  obtain ⟨hlo, hhi⟩ := ht.subset hb (by omega)
  have hx : b.Has b.addr := ⟨le_rfl, by omega⟩
  obtain ⟨c, hc, hcx⟩ := ht'.exists_has hlo (by omega : b.addr < hi)
  obtain ⟨m, hsm, hmM, hdc⟩ := hd' c hc
  have hpos' : 0 < 2 ^ m := by positivity
  have hsize' := hdc.size
  obtain ⟨hlo', hhi'⟩ := ht'.subset hc (by omega)
  have h1 : m ≤ n := ht.order_le (fun b hb => (hd b hb).imp fun _ h => ⟨h.1, h.2.2⟩) hm hsm hmM hdb hb
    hdc hlo' hhi' hx hcx
  have h2 : n ≤ m := ht'.order_le (fun b hb => (hd' b hb).imp fun _ h => ⟨h.1, h.2.2⟩) hm' hsn hnM
    hdc hc hdb hlo hhi hcx hx
  obtain rfl : m = n := le_antisymm h1 h2
  rw [hdb.eq hdc hx hcx]
  exact hc

end Blocks
