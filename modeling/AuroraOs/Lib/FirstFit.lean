import AuroraOs.Lib.Blocks

/-!
# First fit

The gaps of a list of blocks in the order of their addresses, and the scan for the first gap that
is large enough.
-/

namespace Blocks

/-- Blocks one after the other: each ends where the next one begins, or before. -/
def Ordered (bs : List Block) : Prop := bs.Pairwise fun b c => b.addr + b.size ≤ c.addr

/-- The scan from `lo` on: where it ends, and whether the gap there has `size` addresses before the
next block. -/
def firstFit (size : ℕ) : ℕ → List Block → ℕ × Bool
  | lo, [] => (lo, false)
  | lo, b :: bs => if size ≤ b.addr - lo then (lo, true) else firstFit size (b.addr + b.size) bs

/-- The block lies before the gap at which the scan ended, or after what was asked for. -/
def Clear (size : ℕ) (fit : ℕ × Bool) (b : Block) : Prop :=
  b.addr + b.size ≤ fit.1 ∨ fit.2 = true ∧ fit.1 + size ≤ b.addr

variable {size lo hi : ℕ} {b c : Block} {bs : List Block}

/-- No block reaches into the gap. -/
theorem firstFit_clear (h : Ordered bs) (hlo : ∀ b ∈ bs, lo ≤ b.addr) :
    lo ≤ (firstFit size lo bs).1 ∧ ∀ b ∈ bs, Clear size (firstFit size lo bs) b := by
  induction bs generalizing lo with
  | nil => exact ⟨le_rfl, by simp⟩
  | cons b bs ih =>
    obtain ⟨hb, hbs⟩ := List.pairwise_cons.1 h
    have hlob := hlo b List.mem_cons_self
    rw [firstFit]
    split_ifs with hfit
    · refine ⟨le_rfl, fun c hc => Or.inr ⟨rfl, ?_⟩⟩
      rcases List.mem_cons.1 hc with rfl | hc
      · simp only
        omega
      · have := hb c hc
        simp only
        omega
    · obtain ⟨hle, hclear⟩ := ih hbs hb
      refine ⟨by omega, fun c hc => ?_⟩
      rcases List.mem_cons.1 hc with rfl | hc
      · exact Or.inl hle
      · exact hclear c hc

/-- The scan ends at `lo` or at the end of a block. -/
theorem firstFit_mem : (firstFit size lo bs).1 = lo ∨
    ∃ b ∈ bs, (firstFit size lo bs).1 = b.addr + b.size := by
  induction bs generalizing lo with
  | nil => exact Or.inl rfl
  | cons b bs ih =>
    rw [firstFit]
    split_ifs with hfit
    · exact Or.inl rfl
    · rcases @ih (b.addr + b.size) with he | ⟨c, hc, he⟩
      · exact Or.inr ⟨b, List.mem_cons_self, he⟩
      · exact Or.inr ⟨c, List.mem_cons_of_mem _ hc, he⟩

/-- No earlier address has room. -/
theorem firstFit_le (h : Ordered bs) (hlo : ∀ b ∈ bs, lo ≤ b.addr) {a : ℕ} (ha : lo ≤ a)
    (hfree : ∀ b ∈ bs, b.addr + b.size ≤ a ∨ a + size ≤ b.addr) : (firstFit size lo bs).1 ≤ a := by
  induction bs generalizing lo with
  | nil => exact ha
  | cons b bs ih =>
    obtain ⟨hb, hbs⟩ := List.pairwise_cons.1 h
    rw [firstFit]
    split_ifs with hfit
    · exact ha
    · have hlob := hlo b List.mem_cons_self
      have hpast : b.addr + b.size ≤ a := by
        rcases hfree b List.mem_cons_self with hle | hle
        · exact hle
        · omega
      exact ih hbs hb hpast fun c hc => hfree c (List.mem_cons_of_mem _ hc)

/-- A gap that was found has a block after it. -/
theorem firstFit_found (h : (firstFit size lo bs).2 = true) (hlo : ∀ b ∈ bs, lo ≤ b.addr)
    (ho : Ordered bs) : ∃ b ∈ bs, (firstFit size lo bs).1 + size ≤ b.addr := by
  induction bs generalizing lo with
  | nil => simp [firstFit] at h
  | cons b bs ih =>
    obtain ⟨hb, hbs⟩ := List.pairwise_cons.1 ho
    have hlob := hlo b List.mem_cons_self
    rw [firstFit] at h ⊢
    split_ifs at h ⊢ with hfit
    · exact ⟨b, List.mem_cons_self, by simp only; omega⟩
    · obtain ⟨c, hc, hle⟩ := ih h hb hbs
      exact ⟨c, List.mem_cons_of_mem _ hc, hle⟩

end Blocks
