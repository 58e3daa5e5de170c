import Mathlib

/-!
# Ranges cut into pages

A range of `n` units at `virt` is mapped to one at `phys` page by page.  Pages come in several sizes, and a
page is aligned to its size on both sides; `cut` always takes the largest one that fits.

The tables of a mapping are a function from keys to values.  A list of edits sets and clears entries, one
after the other.
-/

namespace Pages

/-! ### Cutting -/

section Cut

variable {κ : Type*} (bytes : κ → ℕ) (sizes : List κ)

/-- A page of this size can be mapped at the start of the range. -/
def Fits (phys virt n : ℕ) (k : κ) : Prop := bytes k ∣ phys ∧ bytes k ∣ virt ∧ bytes k ≤ n

instance (phys virt n : ℕ) (k : κ) : Decidable (Fits bytes phys virt n k) :=
  inferInstanceAs (Decidable (_ ∧ _))

/-- The first of the sizes that fits. -/
def largest (phys virt n : ℕ) : Option κ := sizes.find? fun k => decide (Fits bytes phys virt n k)

/-- A page, with the address of its memory and its own. -/
structure Page (κ : Type*) where
  size : κ
  phys : ℕ
  virt : ℕ
  deriving DecidableEq

/-- The pages of a range. -/
def cut (phys virt n : ℕ) : List (Page κ) :=
  match largest bytes sizes phys virt n with
  | none => []
  | some k =>
      if 0 < bytes k ∧ bytes k ≤ n then
        ⟨k, phys, virt⟩ :: cut (phys + bytes k) (virt + bytes k) (n - bytes k)
      else []
termination_by n
decreasing_by omega

/-- The sizes are multiples of a unit, which is one of them. -/
structure Units (unit : ℕ) : Prop where
  pos : 0 < unit
  dvd : ∀ k ∈ sizes, unit ∣ bytes k
  mem : ∃ k ∈ sizes, bytes k = unit
  bytes_pos : ∀ k ∈ sizes, 0 < bytes k

variable {bytes sizes} {phys virt n unit x : ℕ} {k : κ} {a b : Page κ}

theorem largest_eq_some (h : largest bytes sizes phys virt n = some k) :
    k ∈ sizes ∧ Fits bytes phys virt n k :=
  ⟨List.mem_of_find?_eq_some h, by simpa using List.find?_some h⟩

/-- There is a size that fits until nothing is left. -/
theorem largest_eq_none (hu : Units bytes sizes unit) (hphys : unit ∣ phys) (hvirt : unit ∣ virt)
    (hn : unit ∣ n) (h : largest bytes sizes phys virt n = none) : n = 0 := by
  obtain ⟨k, hk, rfl⟩ := hu.mem
  have hnot : ¬ Fits bytes phys virt n k := by simpa using List.find?_eq_none.1 h k hk
  by_contra hne
  exact hnot ⟨hphys, hvirt, Nat.le_of_dvd (Nat.pos_of_ne_zero hne) hn⟩

theorem cut_of_none (h : largest bytes sizes phys virt n = none) : cut bytes sizes phys virt n = [] := by
  rw [cut, h]

theorem cut_of_some (hu : Units bytes sizes unit) (h : largest bytes sizes phys virt n = some k) :
    cut bytes sizes phys virt n =
      ⟨k, phys, virt⟩ :: cut bytes sizes (phys + bytes k) (virt + bytes k) (n - bytes k) := by
  obtain ⟨hk, -, -, hle⟩ := largest_eq_some h
  rw [cut, h]
  exact if_pos ⟨hu.bytes_pos k hk, hle⟩

/-- **The induction over the pages of a range** of whole units. -/
theorem cut_induction (hu : Units bytes sizes unit) {motive : ℕ → ℕ → ℕ → Prop}
    (zero : ∀ phys virt, motive phys virt 0)
    (page : ∀ phys virt n k, k ∈ sizes → Fits bytes phys virt n k →
      largest bytes sizes phys virt n = some k →
      motive (phys + bytes k) (virt + bytes k) (n - bytes k) → motive phys virt n)
    (hphys : unit ∣ phys) (hvirt : unit ∣ virt) (hn : unit ∣ n) : motive phys virt n := by
  induction n using Nat.strongRecOn generalizing phys virt with
  | ind n ih =>
    cases h : largest bytes sizes phys virt n with
    | none =>
      rw [largest_eq_none hu hphys hvirt hn h]
      exact zero phys virt
    | some k =>
      obtain ⟨hk, hfits⟩ := largest_eq_some h
      have hpos := hu.bytes_pos k hk
      have hdvd := hu.dvd k hk
      have hle := hfits.2.2
      exact page phys virt n k hk hfits h (ih (n - bytes k) (by omega) (hphys.add hdvd) (hvirt.add hdvd)
        (Nat.dvd_sub hn hdvd))

theorem cut_zero (hu : Units bytes sizes unit) (phys virt : ℕ) : cut bytes sizes phys virt 0 = [] := by
  cases h : largest bytes sizes phys virt 0 with
  | none => exact cut_of_none h
  | some k =>
    obtain ⟨hk, -, -, hle⟩ := largest_eq_some h
    have := hu.bytes_pos k hk
    omega

/-- A page of a range is aligned, and lies in the range. -/
theorem cut_mem (hu : Units bytes sizes unit) (hphys : unit ∣ phys) (hvirt : unit ∣ virt) (hn : unit ∣ n)
    (ha : a ∈ cut bytes sizes phys virt n) : a.size ∈ sizes ∧ bytes a.size ∣ a.phys ∧
      bytes a.size ∣ a.virt ∧ virt ≤ a.virt ∧ a.virt + bytes a.size ≤ virt + n := by
  revert ha
  refine cut_induction hu (motive := fun phys virt n => a ∈ cut bytes sizes phys virt n → a.size ∈ sizes ∧
    bytes a.size ∣ a.phys ∧ bytes a.size ∣ a.virt ∧ virt ≤ a.virt ∧ a.virt + bytes a.size ≤ virt + n)
    ?_ ?_ hphys hvirt hn
  · intro phys virt ha
    rw [cut_zero hu] at ha
    cases ha
  · intro phys virt n k hk hfits h ih ha
    obtain ⟨hp, hv, hle⟩ := hfits
    rw [cut_of_some hu h] at ha
    rcases List.mem_cons.1 ha with rfl | ha
    · exact ⟨hk, hp, hv, le_rfl, by simp only; omega⟩
    · obtain ⟨hsize, hp', hv', hlo, hhi⟩ := ih ha
      exact ⟨hsize, hp', hv', by omega, by omega⟩

/-- A page has the memory at its distance from the start. -/
theorem cut_offset (hu : Units bytes sizes unit) (hphys : unit ∣ phys) (hvirt : unit ∣ virt) (hn : unit ∣ n)
    (ha : a ∈ cut bytes sizes phys virt n) : a.phys + virt = a.virt + phys := by
  revert ha
  refine cut_induction hu (motive := fun phys virt n => a ∈ cut bytes sizes phys virt n →
    a.phys + virt = a.virt + phys) ?_ ?_ hphys hvirt hn
  · intro phys virt ha
    rw [cut_zero hu] at ha
    cases ha
  · intro phys virt n k hk hfits h ih ha
    rw [cut_of_some hu h] at ha
    rcases List.mem_cons.1 ha with rfl | ha
    · exact Nat.add_comm _ _
    · have hrest := ih ha
      omega

/-- The pages cover the range. -/
theorem cut_covers (hu : Units bytes sizes unit) (hphys : unit ∣ phys) (hvirt : unit ∣ virt) (hn : unit ∣ n)
    (hlo : virt ≤ x) (hhi : x < virt + n) : ∃ a ∈ cut bytes sizes phys virt n, a.virt ≤ x ∧ x < a.virt + bytes a.size := by
  revert hlo hhi
  refine cut_induction hu (motive := fun phys virt n => virt ≤ x → x < virt + n →
    ∃ a ∈ cut bytes sizes phys virt n, a.virt ≤ x ∧ x < a.virt + bytes a.size) ?_ ?_ hphys hvirt hn
  · intro phys virt hlo hhi
    omega
  · intro phys virt n k hk hfits h ih hlo hhi
    rw [cut_of_some hu h]
    by_cases hx : x < virt + bytes k
    · exact ⟨⟨k, phys, virt⟩, List.mem_cons_self, hlo, hx⟩
    · have hle := hfits.2.2
      obtain ⟨a, ha, hin⟩ := ih (by omega) (by omega)
      exact ⟨a, List.mem_cons_of_mem _ ha, hin⟩

/-- The pages of a range lie one after the other. -/
theorem cut_pairwise (hu : Units bytes sizes unit) (hphys : unit ∣ phys) (hvirt : unit ∣ virt) (hn : unit ∣ n) :
    (cut bytes sizes phys virt n).Pairwise fun a b => a.virt + bytes a.size ≤ b.virt := by
  have hdvd : ∀ k ∈ sizes, unit ∣ bytes k := hu.dvd
  refine (cut_induction hu (motive := fun phys virt n => unit ∣ phys → unit ∣ virt → unit ∣ n →
    (cut bytes sizes phys virt n).Pairwise fun a b => a.virt + bytes a.size ≤ b.virt)
    ?_ ?_ hphys hvirt hn) hphys hvirt hn
  · intro phys virt _ _ _
    rw [cut_zero hu]
    exact .nil
  · intro phys virt n k hk hfits h ih hphys hvirt hn
    have hphys' := hphys.add (hdvd k hk)
    have hvirt' := hvirt.add (hdvd k hk)
    have hn' := Nat.dvd_sub hn (hdvd k hk)
    rw [cut_of_some hu h]
    exact List.pairwise_cons.2 ⟨fun b hb => (cut_mem hu hphys' hvirt' hn' hb).2.2.2.1, ih hphys' hvirt' hn'⟩

end Cut

/-! ### Tables -/

section Tables

variable {K V : Type*} [DecidableEq K]

/-- An entry is set, or cleared. -/
inductive Edit (K V : Type*)
  | set (key : K) (value : V)
  | clear (key : K)

/-- The tables after an edit. -/
def Edit.apply (t : K → Option V) : Edit K V → K → Option V
  | .set key value => Function.update t key (some value)
  | .clear key => Function.update t key none

/-- The tables after edits, one after the other. -/
def applyAll (t : K → Option V) (es : List (Edit K V)) : K → Option V := es.foldl Edit.apply t

variable {t : K → Option V} {key : K} {value : V} {keys : List K} {entries : List (K × V)}

@[simp] theorem applyAll_nil (t : K → Option V) : applyAll t [] = t := rfl

theorem applyAll_append (es es' : List (Edit K V)) : applyAll t (es ++ es') = applyAll (applyAll t es) es' :=
  List.foldl_append

/-- What is cleared is gone, and nothing else is. -/
theorem applyAll_clear : applyAll t (keys.map .clear) key = if key ∈ keys then none else t key := by
  induction keys generalizing t with
  | nil => simp
  | cons k keys ih =>
    rw [List.map_cons, applyAll, List.foldl_cons, ← applyAll, ih]
    by_cases hmem : key ∈ keys
    · simp [hmem]
    · by_cases heq : key = k
      · simp [heq, Edit.apply]
      · simp [hmem, heq, Edit.apply]

/-- What is set is there, if no key is set to two values, and nothing else changes. -/
theorem applyAll_set (hfun : ∀ e ∈ entries, ∀ e' ∈ entries, e.1 = e'.1 → e.2 = e'.2) :
    applyAll t (entries.map fun e => .set e.1 e.2) key = some value ↔
      (key, value) ∈ entries ∨ (∀ e ∈ entries, e.1 ≠ key) ∧ t key = some value := by
  induction entries generalizing t with
  | nil => simp
  | cons e entries ih =>
    rw [List.map_cons, applyAll, List.foldl_cons, ← applyAll, ih fun a ha b hb =>
      hfun a (List.mem_cons_of_mem _ ha) b (List.mem_cons_of_mem _ hb)]
    by_cases heq : e.1 = key
    · subst heq
      simp only [Edit.apply, Function.update_self, Option.some.injEq, List.mem_cons, Prod.ext_iff, true_and]
      constructor
      · rintro (hmem | ⟨-, rfl⟩)
        · exact Or.inl (Or.inr hmem)
        · exact Or.inl (Or.inl rfl)
      · rintro ((rfl | hmem) | ⟨hne, -⟩)
        · by_cases hmem : ∃ e' ∈ entries, e'.1 = e.1
          · obtain ⟨e', he', hkey⟩ := hmem
            have hval := hfun e' (List.mem_cons_of_mem _ he') e List.mem_cons_self hkey
            exact Or.inl (by rwa [← hkey, ← hval])
          · exact Or.inr ⟨fun e' he' hkey => hmem ⟨e', he', hkey⟩, rfl⟩
        · exact Or.inl hmem
        · exact absurd rfl (hne e (Or.inl ⟨rfl, rfl⟩))
    · have hne : (key, value) ≠ e := fun h => heq (by rw [← h])
      simp [Edit.apply, Function.update_of_ne (Ne.symm heq), hne, heq]

/-- The tables have these entries and no others. -/
def Holds (t : K → Option V) (entries : List (K × V)) : Prop :=
  ∀ key value, t key = some value ↔ (key, value) ∈ entries

variable {kept gone new : List (K × V)}

omit [DecidableEq K] in
theorem holds_nil : Holds (fun _ : K => (none : Option V)) [] := by
  intro key value
  simp

/-- Clearing the keys of some entries leaves the others. -/
theorem Holds.clear (h : Holds t (kept ++ gone)) (hnodup : ((kept ++ gone).map Prod.fst).Nodup)
    (hkeys : ∀ key, key ∈ keys ↔ key ∈ gone.map Prod.fst) : Holds (applyAll t (keys.map .clear)) kept := by
  intro key value
  rw [List.map_append] at hnodup
  rw [applyAll_clear]
  split_ifs with hmem
  · have hgone := (hkeys key).1 hmem
    simp only [false_iff]
    intro hkept
    exact (List.nodup_append.1 hnodup).2.2 key (List.mem_map_of_mem (f := Prod.fst) hkept) key hgone rfl
  · rw [h key value, List.mem_append, or_iff_left]
    exact fun hgone => hmem ((hkeys key).2 (List.mem_map_of_mem (f := Prod.fst) hgone))

/-- Setting entries under keys of their own adds them. -/
theorem Holds.set (h : Holds t kept) (hnodup : ((kept ++ new).map Prod.fst).Nodup) :
    Holds (applyAll t (new.map fun e => .set e.1 e.2)) (kept ++ new) := by
  intro key value
  rw [List.map_append] at hnodup
  obtain ⟨-, hnew, hdisjoint⟩ := List.nodup_append.1 hnodup
  have hfun : ∀ e ∈ new, ∀ e' ∈ new, e.1 = e'.1 → e.2 = e'.2 := fun e he e' he' heq =>
    congrArg Prod.snd (List.inj_on_of_nodup_map hnew he he' heq)
  rw [applyAll_set hfun, h key value, List.mem_append, or_comm]
  refine or_congr_left (and_iff_right_of_imp fun hkept e he heq => ?_)
  exact hdisjoint key (List.mem_map_of_mem (f := Prod.fst) hkept) e.1 (List.mem_map_of_mem he) heq.symm

/-- There are tables with any entries that have keys of their own. -/
theorem exists_holds (hnodup : (new.map Prod.fst).Nodup) : ∃ t, Holds t new :=
  ⟨_, @Holds.set K V _ _ [] new holds_nil hnodup⟩

end Tables

end Pages
