import AuroraOs.Util

/-!
# Logarithms at compile time

`log2_const` and `log2_up_const` of `libutil/src/misc.rs`.  The loop of `log2_const` asks for the bits of a
word from some position on, and moves the position up as long as there are any.  From position 63 on
`get_bits` answers with bit 63, so that the loop does not end for a word which has it.
-/

namespace AuroraOs

/-- The loop of `log2_const`; nothing where it has not ended after so many turns. -/
def log2ConstFrom (n : ℕ) : ℕ → ℕ → Option ℕ
  | 0, _ => none
  | fuel + 1, out =>
      if getBits n out 64 > 0 then log2ConstFrom n fuel ((out + 1) % usizeMod) else some out

/-- `log2_const`. -/
def log2Const (fuel n : ℕ) : Option ℕ :=
  if n = 0 then some 0 else (log2ConstFrom n fuel 0).map (· - 1)

/-- `log2_up_const`. -/
def log2UpConst (fuel n : ℕ) : Option ℕ :=
  if n = 1 then some 1
  else do
    let bits ← log2Const fuel n
    log2Const fuel (alignUp n (2 ^ bits))

variable {n out fuel : ℕ}

/-- From position 63 on there is one bit. -/
theorem getBits_past {lo : ℕ} (hlo : 63 ≤ lo) (hn : n < usizeMod) : getBits n lo 64 = n / 2 ^ 63 := by
  have hclamp : (if lo > 63 then 63 else lo) = 63 := by
    split_ifs <;> omega
  have hmask : (usizeMod - 1 &&& n) = n := by
    rw [Nat.and_comm, Nat.and_two_pow_sub_one_eq_mod, Nat.mod_eq_of_lt hn]
  simp only [getBits, hclamp, if_neg (show ¬ 64 > 64 by omega), if_neg (show (64 : ℕ) ≠ 0 by decide),
    if_true, hmask]
  rw [Nat.shiftRight_eq_div_pow]
  rfl

/-- A word with bit 63 has bits from every position on. -/
theorem getBits_pos (hn : n < usizeMod) (htop : 2 ^ 63 ≤ n) (lo : ℕ) : 0 < getBits n lo 64 := by
  rcases Nat.lt_or_ge lo 63 with hlt | hge
  · rw [getBits_top (by omega) hn]
    exact Nat.div_pos ((Nat.pow_le_pow_right (by decide) hlt.le).trans htop) (by positivity)
  · rw [getBits_past hge hn]
    exact Nat.div_pos htop (by decide)

/-- The loop does not end for such a word. -/
theorem log2ConstFrom_top (hn : n < usizeMod) (htop : 2 ^ 63 ≤ n) : log2ConstFrom n fuel out = none := by
  induction fuel generalizing out with
  | zero => rfl
  | succ fuel ih => rw [log2ConstFrom, if_pos (getBits_pos hn htop out), ih]

/-- For every other word it ends behind the highest bit. -/
theorem log2ConstFrom_eq (hpos : 0 < n) (htop : n < 2 ^ 63) (hout : out ≤ log2 n + 1)
    (hfuel : log2 n + 1 < out + fuel) : log2ConstFrom n fuel out = some (log2 n + 1) := by
  have hlog : log2 n < 63 := by
    have := (two_pow_log2_le hpos).trans_lt htop
    exact (Nat.pow_lt_pow_iff_right (by decide)).1 this
  induction fuel generalizing out with
  | zero => omega
  | succ fuel ih =>
    rw [log2ConstFrom, getBits_top (by omega) (htop.trans (by decide))]
    rcases hout.lt_or_eq with hlt | rfl
    · have hbits : 0 < n / 2 ^ out :=
        Nat.div_pos ((Nat.pow_le_pow_right (by decide) (by omega)).trans (two_pow_log2_le hpos))
          (by positivity)
      rw [if_pos hbits, Nat.mod_eq_of_lt (by simp only [usizeMod]; omega)]
      exact ih hlt (by omega)
    · rw [Nat.div_eq_of_lt (lt_two_pow_log2_succ n), if_neg (lt_irrefl 0)]

/-- More turns change nothing once it has ended. -/
theorem log2ConstFrom_mono {r : ℕ} (more : ℕ) (h : log2ConstFrom n fuel out = some r) :
    log2ConstFrom n (fuel + more) out = some r := by
  induction fuel generalizing out with
  | zero => cases h
  | succ fuel ih =>
    rw [Nat.succ_add, log2ConstFrom]
    rw [log2ConstFrom] at h
    split_ifs at h ⊢
    · exact ih h
    · exact h

theorem log2Const_eq (hpos : 0 < n) (htop : n < 2 ^ 63) (hfuel : log2 n + 1 < fuel) :
    log2Const fuel n = some (log2 n) := by
  rw [log2Const, if_neg hpos.ne', log2ConstFrom_eq hpos htop (Nat.zero_le _) (by omega)]
  rfl

/-- It returns nothing else, with any fuel. -/
theorem log2Const_unique {bits : ℕ} (hpos : 0 < n) (htop : n < 2 ^ 63)
    (h : log2Const fuel n = some bits) : bits = log2 n := by
  rw [log2Const, if_neg hpos.ne'] at h
  obtain ⟨r, hr, rfl⟩ := Option.map_eq_some_iff.1 h
  have hmore := log2ConstFrom_mono (log2 n + 2) hr
  rw [log2ConstFrom_eq hpos htop (Nat.zero_le _) (by omega)] at hmore
  rw [← Option.some.inj hmore]
  rfl

theorem log2Const_top (hn : n < usizeMod) (htop : 2 ^ 63 ≤ n) : log2Const fuel n = none := by
  rw [log2Const, if_neg (by omega), log2ConstFrom_top hn htop]
  rfl

theorem log2_eq_log (n : ℕ) : log2 n = Nat.log 2 n := by
  unfold log2
  split_ifs with h
  · rw [h, Nat.log_zero_right]
  · exact Nat.log2_eq_log_two

/-! ### Both versions -/

/-- `log2_const` ends, with the logarithm rounded down that `log2` has at run time. -/
def Log2Agrees (n : ℕ) : Prop := (∃ fuel, log2Const fuel n = some (log2 n)) ∧ log2 n = Nat.log 2 n

/-- `log2_up_const` ends, with the value that `log2_up` has at run time. -/
def Log2UpAgrees (n : ℕ) : Prop := ∃ fuel, log2UpConst fuel n = some (log2Up n)

theorem log2Agrees_iff (hpos : 0 < n) (hn : n < usizeMod) : Log2Agrees n ↔ n < 2 ^ 63 := by
  constructor
  · rintro ⟨⟨fuel, h⟩, -⟩
    by_contra htop
    rw [log2Const_top hn (not_lt.1 htop)] at h
    cases h
  · exact fun htop => ⟨⟨_, log2Const_eq hpos htop (Nat.lt_succ_self _)⟩, log2_eq_log n⟩

/-- What is rounded up to: the word itself, or the next power of two. -/
theorem alignUp_log2 (hpos : 0 < n) (htop : n < 2 ^ 63) :
    alignUp n (2 ^ log2 n) = if n = 2 ^ log2 n then n else 2 ^ (log2 n + 1) := by
  have hle := two_pow_log2_le hpos
  have hlt := lt_two_pow_log2_succ n
  have hlog : log2 n < 63 := (Nat.pow_lt_pow_iff_right (by decide)).1 (hle.trans_lt htop)
  have hfit : n + 2 ^ log2 n ≤ usizeMod := by
    simp only [usizeMod]
    omega
  split_ifs with h
  · exact alignUp_of_dvd hfit (by omega) ⟨1, by rw [mul_one]; exact h⟩
  · rw [pow_succ'] at hlt ⊢
    have hdiv : (n + 2 ^ log2 n - 1) / 2 ^ log2 n = 2 := Nat.div_eq_of_lt_le (by omega) (by omega)
    rw [alignUp_eq hfit (by omega), hdiv]

theorem log2UpAgrees_iff (hpos : 0 < n) (hn : n < usizeMod) : Log2UpAgrees n ↔ n ≤ 2 ^ 62 := by
  rcases eq_or_ne n 1 with rfl | h1
  · exact iff_of_true ⟨0, rfl⟩ (by decide)
  have hconst : ∀ fuel, log2UpConst fuel n =
      (log2Const fuel n).bind fun bits => log2Const fuel (alignUp n (2 ^ bits)) := fun fuel => by
    rw [log2UpConst, if_neg h1]
    rfl
  rw [Log2UpAgrees, log2Up, if_neg h1]
  simp only [hconst]
  rcases Nat.lt_or_ge n (2 ^ 63) with htop | htop
  · have hle := two_pow_log2_le hpos
    have hlt := lt_two_pow_log2_succ n
    have hup := alignUp_log2 hpos htop
    have hlog : log2 n < 63 := (Nat.pow_lt_pow_iff_right (by decide)).1 (hle.trans_lt htop)
    by_cases hfit : n ≤ 2 ^ 62
    · -- the rounded word is not above `2 ^ 62` either
      have hbound : 0 < alignUp n (2 ^ log2 n) ∧ alignUp n (2 ^ log2 n) ≤ 2 ^ 62 := by
        rw [hup]
        split_ifs with heq
        · exact ⟨hpos, hfit⟩
        · refine ⟨by positivity, Nat.pow_le_pow_right (by decide) ?_⟩
          have hne : log2 n ≠ 62 := fun h => heq (le_antisymm (h ▸ hfit) hle)
          omega
      refine iff_of_true ⟨65, ?_⟩ hfit
      have hlog' := (Nat.pow_le_pow_iff_right (by decide)).1
        ((two_pow_log2_le hbound.1).trans hbound.2)
      rw [log2Const_eq hpos htop (by omega), Option.bind_some]
      exact log2Const_eq hbound.1 (hbound.2.trans_lt (by decide)) (by omega)
    · -- the rounded word is `2 ^ 63`
      have hlog' := (Nat.pow_lt_pow_iff_right (by decide)).1 ((not_le.1 hfit).trans hlt)
      have h62 : log2 n = 62 := by omega
      have hne : n ≠ 2 ^ log2 n := fun h => hfit (by rw [h, h62])
      refine iff_of_false ?_ hfit
      rintro ⟨fuel, h⟩
      obtain ⟨bits, hbits, h⟩ := Option.bind_eq_some_iff.1 h
      obtain rfl := log2Const_unique hpos htop hbits
      rw [hup, if_neg hne, h62, log2Const_top (by decide) (by decide)] at h
      cases h
  · refine iff_of_false ?_ (by omega)
    rintro ⟨fuel, h⟩
    rw [log2Const_top hn htop] at h
    cases h

/-- **The compile-time logarithms agree** with those at run time exactly up to `2 ^ 62`; `log2_const` alone
does below `2 ^ 63`. -/
theorem log2Const_agrees_iff (hpos : 0 < n) (hn : n < usizeMod) :
    (Log2Agrees n ∧ Log2UpAgrees n ↔ n ≤ 2 ^ 62) ∧ (Log2Agrees n ↔ n < 2 ^ 63) := by
  have hdown := log2Agrees_iff hpos hn
  have hup := log2UpAgrees_iff hpos hn
  refine ⟨⟨fun h => hup.1 h.2, fun h => ⟨hdown.2 ?_, hup.2 h⟩⟩, hdown⟩
  exact h.trans_lt (by decide)

theorem log2Const_agrees_iff_page :
    0 < 4096 ∧ 4096 < usizeMod ∧ (Log2Agrees 4096 ∧ Log2UpAgrees 4096 ↔ 4096 ≤ 2 ^ 62) ∧
      (Log2Agrees 4096 ↔ 4096 < 2 ^ 63) :=
  ⟨by decide, by decide, log2Const_agrees_iff (by decide) (by decide)⟩

/-- `log2_const` does not end for `2 ^ 63`, nor `log2_up_const` for `2 ^ 62 + 1`. -/
theorem log2Const_runs_on :
    ¬ Log2Agrees (2 ^ 63) ∧ log2 (2 ^ 63) = 63 ∧ (∀ fuel, log2Const fuel (2 ^ 63) = none) ∧
      ¬ Log2UpAgrees (2 ^ 62 + 1) ∧ log2Up (2 ^ 62 + 1) = 63 := by
  refine ⟨?_, log2_two_pow 63, fun fuel => log2Const_top (by decide) le_rfl, ?_, ?_⟩
  · rw [log2Agrees_iff (by decide) (by decide)]
    decide
  · rw [log2UpAgrees_iff (by decide) (by decide)]
    decide
  · have hlog : log2 (2 ^ 62 + 1) = 62 := by decide
    rw [log2Up, if_neg (by decide), alignUp_log2 (by decide) (by decide), hlog, if_neg (by decide)]
    exact log2_two_pow 63

end AuroraOs
