import Mathlib

/-!
# Memory of bytes

A memory gives a byte for each address; addresses wrap around.  `read` and `write` take several bytes, the
lowest first, at any address.  Words at distances from one base do not overlap if the distances say so, so a
structure in memory is a list of fields, and what was stored to a field is read from it.
-/

namespace Bytes

abbrev Memory (w : ℕ) := BitVec w → BitVec 8

variable {w : ℕ} {m : Memory w} {a b x : BitVec w} {n k v i j : ℕ}

/-- The number that the next bytes are. -/
def read (m : Memory w) (a : BitVec w) : ℕ → ℕ
  | 0 => 0
  | n + 1 => (m a).toNat + 256 * read m (a + 1) n

/-- The next bytes are set to a number. -/
def write (m : Memory w) (a : BitVec w) (n v : ℕ) : Memory w := fun x =>
  if (x - a).toNat < n then BitVec.ofNat 8 (v / 256 ^ (x - a).toNat) else m x

theorem write_of_le (h : n ≤ (x - a).toNat) : write m a n v x = m x := if_neg (by omega)

theorem offset_succ (a : BitVec w) (i : ℕ) : a + 1 + BitVec.ofNat w i = a + BitVec.ofNat w (i + 1) := by
  rw [BitVec.add_assoc, BitVec.ofNat_add, BitVec.add_comm (BitVec.ofNat w i)]
  rfl

theorem toNat_offset (h : i < 2 ^ w) : (a + BitVec.ofNat w i - a).toNat = i := by
  rw [BitVec.add_comm, BitVec.add_sub_cancel, BitVec.toNat_ofNat, Nat.mod_eq_of_lt h]

/-- Only the bytes that are read matter. -/
theorem read_congr {m' : Memory w} (h : ∀ i < n, m' (a + BitVec.ofNat w i) = m (a + BitVec.ofNat w i)) :
    read m' a n = read m a n := by
  induction n generalizing a with
  | zero => rfl
  | succ n ih =>
    have hfirst : m' a = m a := by simpa using h 0 (Nat.succ_pos n)
    rw [read, read, hfirst, ih fun i hi => ?_]
    rw [offset_succ]
    exact h (i + 1) (by omega)

/-- Bytes that are those of a number give the number. -/
theorem read_eq_mod (h : ∀ i < n, m (a + BitVec.ofNat w i) = BitVec.ofNat 8 (v / 256 ^ i)) :
    read m a n = v % 256 ^ n := by
  induction n generalizing a v with
  | zero => simp [read, Nat.mod_one]
  | succ n ih =>
    have hfirst : m a = BitVec.ofNat 8 v := by simpa using h 0 (Nat.succ_pos n)
    have hrest : read m (a + 1) n = v / 256 % 256 ^ n := by
      refine ih fun i hi => ?_
      rw [offset_succ, h (i + 1) (by omega), Nat.div_div_eq_div_mul, pow_succ']
    have hsplit : v % 256 ^ (n + 1) = v % 256 + 256 * (v / 256 % 256 ^ n) := by rw [pow_succ', Nat.mod_mul]
    rw [read, hfirst, hrest, BitVec.toNat_ofNat, hsplit]

/-- **What was written is read**, or the first bytes of it. -/
theorem read_write_self (hk : k ≤ 2 ^ w) (hn : n ≤ k) : read (write m a k v) a n = v % 256 ^ n := by
  refine read_eq_mod fun i hi => ?_
  have hoffset : (a + BitVec.ofNat w i - a).toNat = i := toNat_offset (by omega)
  rw [write, hoffset, if_pos (by omega)]

/-! ### Words at distances from a base -/

/-- Two words do not overlap, and do not come around to each other. -/
def Apart (w : ℕ) (i n j k : ℕ) : Prop := (i + n ≤ j ∨ j + k ≤ i) ∧ i + n ≤ 2 ^ w ∧ j + k ≤ 2 ^ w

instance : Decidable (Apart w i n j k) := inferInstanceAs (Decidable (_ ∧ _))

theorem Apart.shorten {d : ℕ} (h : Apart w i n j k) (hd : d ≤ n) : Apart w i d j k := by
  unfold Apart at h ⊢
  omega

/-- A byte outside of a word, by the distances. -/
theorem write_offset_of_apart (h : Apart w i n j k) {d : ℕ} (hd : d < n) :
    write m (b + BitVec.ofNat w j) k v (b + BitVec.ofNat w (i + d)) = m (b + BitVec.ofNat w (i + d)) := by
  obtain ⟨hapart, hi, hj⟩ := h
  refine write_of_le ?_
  rw [add_sub_add_left_eq_sub, BitVec.toNat_sub, BitVec.toNat_ofNat, BitVec.toNat_ofNat]
  rcases Nat.eq_zero_or_pos k with rfl | hk
  · exact Nat.zero_le _
  rw [Nat.mod_eq_of_lt (by omega : i + d < 2 ^ w), Nat.mod_eq_of_lt (by omega : j < 2 ^ w)]
  rcases hapart with hle | hle
  · rw [Nat.mod_eq_of_lt (by omega)]
    omega
  · rw [show 2 ^ w - j + (i + d) = i + d - j + 2 ^ w by omega, Nat.add_mod_right, Nat.mod_eq_of_lt (by omega)]
    omega

/-- A word is not changed by writing to another one. -/
theorem read_write_of_apart (h : Apart w i n j k) :
    read (write m (b + BitVec.ofNat w j) k v) (b + BitVec.ofNat w i) n = read m (b + BitVec.ofNat w i) n := by
  refine read_congr fun d hd => ?_
  rw [BitVec.add_assoc, ← BitVec.ofNat_add]
  exact write_offset_of_apart h hd

/-! ### Structures -/

/-- A word of a structure: its distance from the base, its size, and what is stored there. -/
structure Field where
  offset : ℕ
  size : ℕ
  value : ℕ

/-- Where a field is. -/
def Field.place (f : Field) : ℕ × ℕ := (f.offset, f.size)

/-- The fields are stored, one after the other. -/
def storeAll (b : BitVec w) : List Field → Memory w → Memory w
  | [], m => m
  | f :: fs, m => storeAll b fs (write m (b + BitVec.ofNat w f.offset) f.size f.value)

/-- Places that do not overlap. -/
def Disjoint (w : ℕ) (places : List (ℕ × ℕ)) : Prop :=
  places.Pairwise fun p q => Apart w p.1 p.2 q.1 q.2

instance {places : List (ℕ × ℕ)} : Decidable (Disjoint w places) := inferInstanceAs (Decidable (List.Pairwise _ _))

variable {fs : List Field} {f : Field}

theorem storeAll_append {fs' : List Field} : storeAll b (fs ++ fs') m = storeAll b fs' (storeAll b fs m) := by
  induction fs generalizing m with
  | nil => rfl
  | cons f fs ih => exact ih

/-- What no field covers stays. -/
theorem read_storeAll_of_apart (h : ∀ p ∈ fs.map Field.place, Apart w i n p.1 p.2) :
    read (storeAll b fs m) (b + BitVec.ofNat w i) n = read m (b + BitVec.ofNat w i) n := by
  induction fs generalizing m with
  | nil => rfl
  | cons f fs ih =>
    rw [List.map_cons, List.forall_mem_cons] at h
    have hfirst : Apart w i n f.offset f.size := h.1
    rw [storeAll, ih h.2, read_write_of_apart hfirst]

/-- **A field is read as it was stored**, or the first bytes of it. -/
theorem read_storeAll (h : Disjoint w (fs.map Field.place)) (hf : f ∈ fs) (hsize : f.size ≤ 2 ^ w) (hn : n ≤ f.size) :
    read (storeAll b fs m) (b + BitVec.ofNat w f.offset) n = f.value % 256 ^ n := by
  induction fs generalizing m with
  | nil => cases hf
  | cons g fs ih =>
    obtain ⟨hfirst, hrest⟩ := List.pairwise_cons.1 h
    rcases List.mem_cons.1 hf with rfl | hf
    · have hapart : ∀ p ∈ fs.map Field.place, Apart w f.offset n p.1 p.2 := fun p hp => (hfirst p hp).shorten hn
      rw [storeAll, read_storeAll_of_apart hapart, read_write_self hsize hn]
    · exact ih hrest hf

end Bytes
