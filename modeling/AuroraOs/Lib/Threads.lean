import Mathlib

/-!
# Sums over threads

A weight of the places that threads can be at, summed over all threads.  Moving one thread changes a
total by the difference of two weights, so an invariant that balances totals is kept by arithmetic.
-/

namespace Threads

variable {Tid P : Type*} [Fintype Tid] {f g : P → ℕ} {pc : Tid → P} {t u : Tid}

/-- The sum of a weight over all threads. -/
def total (f : P → ℕ) (pc : Tid → P) : ℕ := ∑ t, f (pc t)

theorem total_update [DecidableEq Tid] (f : P → ℕ) (pc : Tid → P) (t : Tid) (p : P) :
    total f (Function.update pc t p) + f (pc t) = total f pc + f p := by
  have h1 := Finset.add_sum_erase Finset.univ (fun u => f (Function.update pc t p u))
    (Finset.mem_univ t)
  have h2 := Finset.add_sum_erase Finset.univ (fun u => f (pc u)) (Finset.mem_univ t)
  have hrest : ∑ u ∈ Finset.univ.erase t, f (Function.update pc t p u)
      = ∑ u ∈ Finset.univ.erase t, f (pc u) := by
    refine Finset.sum_congr rfl fun u hu => ?_
    rw [Function.update_of_ne (Finset.ne_of_mem_erase hu)]
  simp only [hrest, Function.update_self] at h1
  simp only [total]
  omega

theorem le_total (t : Tid) : f (pc t) ≤ total f pc :=
  Finset.single_le_sum (f := fun u => f (pc u)) (fun _ _ => Nat.zero_le _) (Finset.mem_univ t)

theorem add_le_total (h : t ≠ u) : f (pc t) + f (pc u) ≤ total f pc := by
  classical
  rw [← Finset.sum_pair (f := fun u => f (pc u)) h]
  exact Finset.sum_le_sum_of_subset (Finset.subset_univ _)

theorem exists_of_total_pos (h : 0 < total f pc) : ∃ t, 0 < f (pc t) := by
  by_contra hn
  push Not at hn
  rw [total, Finset.sum_eq_zero fun t _ => Nat.le_zero.1 (hn t)] at h
  omega

/-- Where a total is at most one, one thread has all of it. -/
theorem eq_of_total_le_one (h : total f pc ≤ 1) (ht : 0 < f (pc t)) (hu : 0 < f (pc u)) :
    t = u := by
  by_contra hne
  have hle : f (pc t) + f (pc u) ≤ total f pc := add_le_total hne
  omega

theorem total_le_card (hf : ∀ p, f p ≤ 1) : total f pc ≤ Fintype.card Tid := by
  have := Finset.sum_le_card_nsmul Finset.univ (fun t => f (pc t)) 1 fun t _ => hf (pc t)
  simpa [total] using this

end Threads
