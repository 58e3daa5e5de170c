import Mathlib

/-!
# Machine words: alignment, bit scans, bit fields

The helpers of `libutil/src/misc.rs` on `usize` values.  A `usize` is a natural number below
`2 ^ 64`; sums that the machine would wrap are reduced modulo `2 ^ 64` explicitly.  The
specification lemmas turn the bit tricks into division and powers of two, under the bounds that
keep the machine from wrapping.
-/

namespace AuroraOs

/-- A node address; `0` is the null pointer. -/
abbrev Ptr := ℕ

/-- The null pointer. -/
abbrev null : Ptr := 0

/-- `ptr.as_ref().unwrap()`: the null pointer panics. -/
def asRef (p : Ptr) : Option Ptr := if p = null then none else some p

@[simp] theorem asRef_null : asRef null = none := rfl

theorem asRef_of_ne {p : Ptr} (h : p ≠ null) : asRef p = some p := if_neg h

/-- The number of values of a `usize`. -/
abbrev usizeMod : ℕ := 2 ^ 64

instance neZero_usizeMod : NeZero usizeMod := ⟨by decide⟩

/-- `align_up`; `align` must be a power of two. -/
def alignUp (addr align : ℕ) : ℕ := ((addr + align - 1) % usizeMod) &&& (usizeMod - align)

/-- `align_down`; `align` must be a power of two. -/
def alignDown (addr align : ℕ) : ℕ := addr &&& (usizeMod - align)

/-- The scan of the `bsf` instruction, from the lowest bit up, over at most `fuel` bits. -/
def bsfFrom : ℕ → ℕ → ℕ
  | 0, _ => 0
  | fuel + 1, n => if n % 2 = 1 then 0 else bsfFrom fuel (n / 2) + 1

/-- The `bsf` instruction: the index of the lowest set bit. -/
def bsf (n : ℕ) : ℕ := bsfFrom 64 n

/-- `align_of`: the largest power of two dividing the address. -/
def alignOf (addr : ℕ) : ℕ := if addr = 0 then 2 ^ 63 else 2 ^ bsf addr

/-- `log2`, rounding down: the `bsr` instruction, and `0` at `0`. -/
def log2 (n : ℕ) : ℕ := if n = 0 then 0 else Nat.log2 n

/-- `log2_up`; note the value `1` at `1`. -/
def log2Up (n : ℕ) : ℕ := if n = 1 then 1 else log2 (alignUp n (2 ^ log2 n))

/-- `get_bits(n, lo..hi)`. -/
def getBits (n lo hi : ℕ) : ℕ :=
  if hi = 0 then 0
  else
    let l := if lo > 63 then 63 else lo
    let h := if hi > 64 then 63 else hi - 1
    if l > h then 0
    else
      let temp := if h = 63 then usizeMod - 1 else 2 ^ (h + 1) - 1
      (temp &&& n) >>> l

theorem getBits_eq {n lo hi : ℕ} (hlo : lo < hi) (hhi : hi < 64) :
    getBits n lo hi = n / 2 ^ lo % 2 ^ (hi - lo) := by
  have hsplit : 2 ^ hi = 2 ^ lo * 2 ^ (hi - lo) := by
    rw [← pow_add, Nat.add_sub_cancel' hlo.le]
  have hmask : (2 ^ hi - 1 &&& n) = n % 2 ^ hi := by
    rw [Nat.and_comm, Nat.and_two_pow_sub_one_eq_mod]
  simp only [getBits, if_neg (show hi ≠ 0 by omega), if_neg (show ¬ lo > 63 by omega),
    if_neg (show ¬ hi > 64 by omega), if_neg (show ¬ lo > hi - 1 by omega),
    if_neg (show hi - 1 ≠ 63 by omega), show hi - 1 + 1 = hi by omega, hmask]
  rw [Nat.shiftRight_eq_div_pow, hsplit, Nat.mod_mul_right_div_self]

/-- The bits of a `usize` from some position on. -/
theorem getBits_top {n lo : ℕ} (hlo : lo < 64) (hn : n < usizeMod) : getBits n lo 64 = n / 2 ^ lo := by
  have hmask : (usizeMod - 1 &&& n) = n := by
    rw [Nat.and_comm, Nat.and_two_pow_sub_one_eq_mod, Nat.mod_eq_of_lt hn]
  simp only [getBits, if_neg (show ¬ lo > 63 by omega), if_neg (show ¬ 64 > 64 by omega),
    if_neg (show (64 : ℕ) ≠ 0 by decide), if_true, hmask]
  rw [Nat.shiftRight_eq_div_pow]

/-! ### Alignment -/

theorem and_two_pow_sub {x n k : ℕ} (hx : x < 2 ^ n) (hk : k ≤ n) :
    x &&& (2 ^ n - 2 ^ k) = x / 2 ^ k * 2 ^ k := by
  apply Nat.eq_of_testBit_eq
  intro i
  have hpos : 0 < 2 ^ k := by positivity
  have hle : 2 ^ k ≤ 2 ^ n := Nat.pow_le_pow_right (by decide) hk
  have hmask : (2 ^ n - 2 ^ k).testBit i = (decide (i < n) && decide (k ≤ i)) := by
    have := Nat.testBit_two_pow_sub_succ (x := 2 ^ k - 1) (n := n) (by omega) i
    rw [show 2 ^ k - 1 + 1 = 2 ^ k by omega] at this
    rw [this, Nat.testBit_two_pow_sub_one]
    by_cases h : i < k
    · simp [h]
    · simp [h]; omega
  rw [Nat.testBit_and, hmask, Nat.testBit_mul_two_pow, Nat.testBit_div_two_pow]
  by_cases h : k ≤ i
  · simp only [h, decide_true, Bool.and_true, Bool.true_and]
    rw [show i - k + k = i by omega]
    by_cases hi : i < n
    · simp [hi]
    · have : x.testBit i = false := by
        apply Nat.testBit_lt_two_pow
        exact lt_of_lt_of_le hx (Nat.pow_le_pow_right (by decide) (by omega))
      simp [this]
  · simp [h]

theorem alignDown_eq {addr k : ℕ} (ha : addr < usizeMod) (hk : k ≤ 64) :
    alignDown addr (2 ^ k) = addr / 2 ^ k * 2 ^ k :=
  and_two_pow_sub ha hk

theorem alignUp_eq {addr k : ℕ} (ha : addr + 2 ^ k ≤ usizeMod) (hk : k ≤ 64) :
    alignUp addr (2 ^ k) = (addr + 2 ^ k - 1) / 2 ^ k * 2 ^ k := by
  have hpos : 0 < 2 ^ k := by positivity
  have hlt : addr + 2 ^ k - 1 < usizeMod := by omega
  rw [alignUp, Nat.mod_eq_of_lt hlt, and_two_pow_sub hlt hk]

theorem alignUp_of_dvd {addr k : ℕ} (ha : addr + 2 ^ k ≤ usizeMod) (hk : k ≤ 64)
    (hdvd : 2 ^ k ∣ addr) : alignUp addr (2 ^ k) = addr := by
  obtain ⟨q, rfl⟩ := hdvd
  have hpos : 0 < 2 ^ k := by positivity
  have hq : (2 ^ k * q + 2 ^ k - 1) / 2 ^ k = q := by
    rw [Nat.add_sub_assoc hpos, Nat.mul_add_div hpos, Nat.div_eq_of_lt (by omega), add_zero]
  rw [alignUp_eq ha hk, hq, mul_comm]

/-- Clearing the bits of `m` takes away `m` at most. -/
theorem le_and_add {x m : ℕ} (hx : x < usizeMod) (hm : m < usizeMod) :
    x ≤ (x &&& (usizeMod - 1 - m)) + m := by
  have hsplit : ∀ X Y : BitVec 64, X = (X &&& ~~~Y) + (X &&& Y) := by
    intro X Y
    have hand : (X &&& ~~~Y) &&& (X &&& Y) = 0#64 := by
      ext i hi
      simp +contextual
    rw [BitVec.add_eq_or_of_and_eq_zero _ _ hand]
    ext i hi
    simp only [BitVec.getElem_or, BitVec.getElem_and, BitVec.getElem_not]
    cases X[i] <;> cases Y[i] <;> rfl
  have h := congrArg BitVec.toNat (hsplit (BitVec.ofNat 64 x) (BitVec.ofNat 64 m))
  rw [BitVec.toNat_add, BitVec.toNat_and, BitVec.toNat_and, BitVec.toNat_not, BitVec.toNat_ofNat,
    BitVec.toNat_ofNat, Nat.mod_eq_of_lt hx, Nat.mod_eq_of_lt hm] at h
  calc x = ((x &&& (usizeMod - 1 - m)) + (x &&& m)) % usizeMod := h
    _ ≤ (x &&& (usizeMod - 1 - m)) + (x &&& m) := Nat.mod_le _ _
    _ ≤ (x &&& (usizeMod - 1 - m)) + m := Nat.add_le_add_left Nat.and_le_right _

/-- A sum that does not wrap is rounded up. -/
theorem le_alignUp_of_le {addr align : ℕ} (hpos : 0 < align) (h : addr + align ≤ usizeMod) :
    addr ≤ alignUp addr align := by
  have hle := le_and_add (x := addr + align - 1) (m := align - 1) (by omega) (by omega)
  rw [show usizeMod - 1 - (align - 1) = usizeMod - align by omega] at hle
  rw [alignUp, Nat.mod_eq_of_lt (by omega)]
  omega

/-- A sum that wraps is rounded down. -/
theorem alignUp_lt_of_lt {addr align : ℕ} (haddr : addr < usizeMod) (halign : align < usizeMod)
    (h : usizeMod < addr + align) : alignUp addr align < addr := by
  have hmod : (addr + align - 1) % usizeMod = addr + align - 1 - usizeMod := by
    rw [Nat.mod_eq_sub_mod (by omega), Nat.mod_eq_of_lt (by omega)]
  rw [alignUp, hmod]
  exact lt_of_le_of_lt Nat.and_le_left (by omega)

/-! ### Bit scans -/

theorem bsfFrom_dvd (fuel n : ℕ) : n = 0 ∨ 2 ^ bsfFrom fuel n ∣ n := by
  induction fuel generalizing n with
  | zero => right; simp [bsfFrom]
  | succ fuel ih =>
    unfold bsfFrom
    split_ifs with h
    · right; simp
    · rcases ih (n / 2) with h0 | hd
      · left; omega
      · right
        rw [pow_succ']
        have hn : n = 2 * (n / 2) := by omega
        conv_rhs => rw [hn]
        exact Nat.mul_dvd_mul_left 2 hd

theorem le_bsfFrom_of_dvd {fuel n k : ℕ} (hn : 0 < n) (hlt : n < 2 ^ fuel) (hk : 2 ^ k ∣ n) :
    k ≤ bsfFrom fuel n := by
  induction fuel generalizing n k with
  | zero => simp at hlt; omega
  | succ fuel ih =>
    unfold bsfFrom
    cases k with
    | zero => omega
    | succ k =>
      obtain ⟨q, rfl⟩ := hk
      have h2 : 2 ^ (k + 1) * q = 2 * (2 ^ k * q) := by ring
      rw [if_neg (by omega), h2, Nat.mul_div_cancel_left _ (by decide)]
      have : k ≤ bsfFrom fuel (2 ^ k * q) :=
        ih (by rw [h2] at hn; omega) (by rw [h2, pow_succ] at hlt; omega) (dvd_mul_right _ _)
      omega

theorem alignOf_dvd (addr : ℕ) : alignOf addr ∣ addr := by
  unfold alignOf bsf
  split_ifs with h
  · simp [h]
  · exact (bsfFrom_dvd 64 addr).resolve_left h

theorem dvd_alignOf {addr k : ℕ} (hpos : 0 < addr) (hlt : addr < usizeMod) (hk : 2 ^ k ∣ addr) :
    2 ^ k ∣ alignOf addr := by
  rw [alignOf, if_neg hpos.ne']
  exact pow_dvd_pow 2 (le_bsfFrom_of_dvd hpos hlt hk)

theorem alignOf_eq_two_pow (addr : ℕ) : ∃ k, alignOf addr = 2 ^ k := by
  unfold alignOf
  split_ifs
  exacts [⟨63, rfl⟩, ⟨_, rfl⟩]

theorem alignOf_pos (a : ℕ) : 0 < alignOf a := by
  obtain ⟨k, hk⟩ := alignOf_eq_two_pow a
  rw [hk]
  positivity

theorem log2_two_pow (k : ℕ) : log2 (2 ^ k) = k := by
  rw [log2, if_neg (by positivity), Nat.log2_two_pow]

theorem two_pow_log2_le {n : ℕ} (h : 0 < n) : 2 ^ log2 n ≤ n := by
  rw [log2, if_neg h.ne']
  exact Nat.log2_self_le h.ne'

theorem lt_two_pow_log2_succ (n : ℕ) : n < 2 ^ (log2 n + 1) := by
  unfold log2
  split_ifs with h
  · simp [h]
  · exact Nat.lt_log2_self

theorem log2Up_two_pow {k : ℕ} (hk : 0 < k) (h64 : k < 64) : log2Up (2 ^ k) = k := by
  have h1 : 2 ^ k ≠ 1 := by
    have := Nat.one_lt_two_pow hk.ne'
    omega
  have hle : 2 ^ k + 2 ^ k ≤ usizeMod := by
    have : 2 ^ k * 2 ≤ 2 ^ 64 := by
      rw [← pow_succ]; exact Nat.pow_le_pow_right (by decide) h64
    simp only [usizeMod]
    omega
  rw [log2Up, if_neg h1, log2_two_pow, alignUp_of_dvd hle (by omega) dvd_rfl, log2_two_pow]

end AuroraOs
