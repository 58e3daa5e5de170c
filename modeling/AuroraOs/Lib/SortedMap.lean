import Mathlib

/-!
# Sorted maps

Finite maps as lists of entries in the order of their keys, with the scans that an ordered tree map
offers: the keys below a key from the greatest down, and the keys from a key on.
-/

/-- A finite map: its entries, in the order of their keys. -/
structure SortedMap (κ ν : Type*) [LinearOrder κ] where
  entries : List (κ × ν)
  sorted : entries.Pairwise fun a b => a.1 < b.1

namespace SortedMap

variable {κ ν : Type*} [LinearOrder κ] (m : SortedMap κ ν) (k : κ)

/-- The map without entries. -/
def empty : SortedMap κ ν := ⟨[], List.Pairwise.nil⟩

/-- The keys, in order. -/
def keys : List κ := m.entries.map Prod.fst

/-- The value at a key. -/
def get? : Option ν := (m.entries.find? fun e => decide (e.1 = k)).map Prod.snd

/-- The entries below `k`, from the greatest down. -/
def below : List (κ × ν) := (m.entries.filter fun e => decide (e.1 < k)).reverse

/-- The entries from `k` on. -/
def onward : List (κ × ν) := m.entries.filter fun e => decide (k ≤ e.1)

/-- The map without the entry at `k`. -/
def erase : SortedMap κ ν :=
  ⟨m.entries.filter fun e => decide (e.1 ≠ k), m.sorted.sublist List.filter_sublist⟩

/-- The map with `v` at `k`. -/
def insert (v : ν) : SortedMap κ ν where
  entries := (m.entries.filter fun e => decide (e.1 < k)) ++
    (k, v) :: m.entries.filter fun e => decide (k < e.1)
  sorted := by
    have hmem : ∀ {p : κ × ν → Bool} {e}, e ∈ m.entries.filter p → p e = true :=
      fun he => (List.mem_filter.1 he).2
    refine List.pairwise_append.2 ⟨m.sorted.sublist List.filter_sublist,
      List.pairwise_cons.2 ⟨fun e he => by simpa using hmem he, m.sorted.sublist List.filter_sublist⟩,
      fun a ha b hb => ?_⟩
    have hak : a.1 < k := by simpa using hmem ha
    rcases List.mem_cons.1 hb with rfl | hb
    · exact hak
    · exact hak.trans (by simpa using hmem hb)

/-- The map with the value at `k` changed. -/
def modify (f : ν → ν) : SortedMap κ ν where
  entries := m.entries.map fun e => if e.1 = k then (e.1, f e.2) else e
  sorted := by
    have hfst : ∀ e : κ × ν, (if e.1 = k then (e.1, f e.2) else e).1 = e.1 := by
      intro e
      split <;> rfl
    refine List.pairwise_map.2 (m.sorted.imp fun {a b} hab => ?_)
    rwa [hfst, hfst]

variable {m k} {v v' : ν} {e : κ × ν} {x : κ} {f : ν → ν}

@[ext] theorem ext_entries {m' : SortedMap κ ν} (h : m.entries = m'.entries) : m = m' := by
  cases m
  cases m'
  cases h
  rfl

/-! ### Keys and values -/

theorem keys_pairwise : m.keys.Pairwise (· < ·) := List.pairwise_map.2 m.sorted

theorem mem_keys : x ∈ m.keys ↔ ∃ v, (x, v) ∈ m.entries := by
  simp [keys]

theorem mem_keys_of_mem (h : e ∈ m.entries) : e.1 ∈ m.keys := List.mem_map_of_mem h

/-- Two entries with the same key are one entry. -/
theorem entry_unique {e' : κ × ν} (h : e ∈ m.entries) (h' : e' ∈ m.entries) (hk : e.1 = e'.1) :
    e = e' := by
  by_contra hne
  have hpair : m.entries.Pairwise fun a b => a.1 ≠ b.1 := m.sorted.imp fun h => h.ne
  have : Std.Symm fun a b : κ × ν => a.1 ≠ b.1 := ⟨fun _ _ h => h.symm⟩
  exact hpair.forall h h' hne hk

theorem get?_eq_some : m.get? k = some v ↔ (k, v) ∈ m.entries := by
  unfold get?
  constructor
  · intro h
    obtain ⟨e, he, rfl⟩ := Option.map_eq_some_iff.1 h
    have hek : e.1 = k := by simpa using List.find?_some he
    have hmem := List.mem_of_find?_eq_some he
    rwa [← hek]
  · intro h
    obtain ⟨e, he⟩ : ∃ e, m.entries.find? (fun e => decide (e.1 = k)) = some e := by
      refine Option.isSome_iff_exists.1 (List.find?_isSome.2 ⟨(k, v), h, ?_⟩)
      simp
    have hek : e.1 = k := by simpa using List.find?_some he
    rw [entry_unique (List.mem_of_find?_eq_some he) h hek] at he
    rw [he]
    rfl

theorem get?_eq_none : m.get? k = none ↔ k ∉ m.keys := by
  rw [← not_iff_not, not_not, mem_keys, ← ne_eq, Option.ne_none_iff_exists']
  exact exists_congr fun v => get?_eq_some

/-! ### Changes -/

theorem mem_erase : e ∈ (m.erase k).entries ↔ e ∈ m.entries ∧ e.1 ≠ k := by
  simp [erase]

theorem mem_insert : e ∈ (m.insert k v).entries ↔ e = (k, v) ∨ e ∈ m.entries ∧ e.1 ≠ k := by
  have hne : e.1 ≠ k ↔ e.1 < k ∨ k < e.1 := ⟨lt_or_gt_of_ne, fun h => h.elim ne_of_lt ne_of_gt⟩
  simp only [insert, List.mem_append, List.mem_cons, List.mem_filter, decide_eq_true_eq, hne]
  tauto

theorem mem_modify :
    e ∈ (m.modify k f).entries ↔ (∃ v, (k, v) ∈ m.entries ∧ e = (k, f v)) ∨ e ∈ m.entries ∧ e.1 ≠ k := by
  simp only [modify, List.mem_map]
  constructor
  · rintro ⟨a, ha, rfl⟩
    by_cases hk : a.1 = k
    · rw [if_pos hk]
      subst hk
      exact Or.inl ⟨a.2, ha, rfl⟩
    · rw [if_neg hk]
      exact Or.inr ⟨ha, hk⟩
  · rintro (⟨v, hv, rfl⟩ | ⟨he, hk⟩)
    · exact ⟨(k, v), hv, if_pos rfl⟩
    · exact ⟨e, he, if_neg hk⟩

@[simp] theorem keys_modify : (m.modify k f).keys = m.keys := by
  simp only [keys, modify, List.map_map]
  refine List.map_congr_left fun e _ => ?_
  simp only [Function.comp_apply]
  split <;> rfl

theorem keys_erase : (m.erase x).keys = m.keys.filter fun y => decide (y ≠ x) := by
  simp [keys, erase, List.filter_map, Function.comp_def]

theorem mem_keys_erase : x ∈ (m.erase k).keys ↔ x ∈ m.keys ∧ x ≠ k := by
  simp only [mem_keys, mem_erase, exists_and_right]

theorem mem_keys_insert : x ∈ (m.insert k v).keys ↔ x = k ∨ x ∈ m.keys := by
  simp only [mem_keys, mem_insert, Prod.mk.injEq, exists_or, exists_and_left, exists_eq, and_true,
    exists_and_right]
  by_cases h : x = k <;> simp [h]

theorem get?_modify_self (h : m.get? k = some v) : (m.modify k f).get? k = some (f v) :=
  get?_eq_some.2 (mem_modify.2 (Or.inl ⟨v, get?_eq_some.1 h, rfl⟩))

/-- Changing a value changes the map unless it stays as it is. -/
theorem modify_eq_self_iff (h : m.get? k = some v) : m.modify k f = m ↔ f v = v := by
  constructor
  · intro he
    have hf := get?_modify_self (f := f) h
    rw [he, h] at hf
    exact (Option.some.inj hf).symm
  · intro hv
    refine ext_entries ((List.map_congr_left fun e he => ?_).trans (List.map_id _))
    by_cases hk : e.1 = k
    · have hev : e = (k, v) := entry_unique he (get?_eq_some.1 h) hk
      rw [if_pos hk, hev, hv]
      rfl
    · exact if_neg hk

theorem modify_modify {g : ν → ν} : (m.modify k f).modify k g = m.modify k (g ∘ f) := by
  apply ext_entries
  simp only [modify, List.map_map]
  refine List.map_congr_left fun e _ => ?_
  by_cases hk : e.1 = k
  · simp [hk]
  · simp [hk]

theorem erase_modify : (m.modify k f).erase k = m.erase k := by
  apply ext_entries
  simp only [modify, erase]
  induction m.entries with
  | nil => rfl
  | cons e es ih =>
    rw [List.map_cons]
    by_cases hk : e.1 = k
    · simpa [hk] using ih
    · simpa [hk] using ih

/-! ### The entries beside one key -/

theorem nodup_entries : m.entries.Nodup := m.sorted.imp fun h heq => (heq ▸ h).false

theorem nodup_cons_erase : ((k, v) :: (m.erase k).entries).Nodup :=
  List.nodup_cons.2 ⟨fun h => (mem_erase.1 h).2 rfl, nodup_entries⟩

theorem perm_insert : (m.insert k v).entries.Perm ((k, v) :: (m.erase k).entries) :=
  (List.perm_ext_iff_of_nodup nodup_entries nodup_cons_erase).2 fun _ => by
    rw [mem_insert, List.mem_cons, mem_erase]

theorem perm_erase (h : m.get? k = some v) : m.entries.Perm ((k, v) :: (m.erase k).entries) := by
  refine (List.perm_ext_iff_of_nodup nodup_entries nodup_cons_erase).2 fun e => ?_
  rw [List.mem_cons, mem_erase]
  constructor
  · intro he
    by_cases hk : e.1 = k
    · exact Or.inl (entry_unique he (get?_eq_some.1 h) hk)
    · exact Or.inr ⟨he, hk⟩
  · rintro (rfl | ⟨he, -⟩)
    · exact get?_eq_some.1 h
    · exact he

theorem perm_modify (h : m.get? k = some v) :
    (m.modify k f).entries.Perm ((k, f v) :: (m.erase k).entries) := by
  have hmodified := perm_erase (get?_modify_self (f := f) h)
  rwa [erase_modify] at hmodified

theorem erase_of_none (h : m.get? k = none) : m.erase k = m := by
  refine ext_entries (List.filter_eq_self.2 fun e he => decide_eq_true fun hk => ?_)
  exact get?_eq_none.1 h (hk ▸ mem_keys_of_mem he)

/-! ### Neighbours -/

theorem mem_below : e ∈ m.below k ↔ e ∈ m.entries ∧ e.1 < k := by
  simp [below]

theorem map_fst_below : (m.below k).map Prod.fst = (m.keys.filter fun x => decide (x < k)).reverse := by
  simp [below, keys, List.filter_map, Function.comp_def]

theorem map_fst_onward : (m.onward k).map Prod.fst = m.keys.filter fun x => decide (k ≤ x) := by
  simp [onward, keys, List.filter_map, Function.comp_def]

/-- The scan downward goes from the greatest key to the least. -/
theorem below_pairwise : (m.below k).Pairwise fun a b => b.1 < a.1 :=
  List.pairwise_reverse.2 (m.sorted.sublist List.filter_sublist)

theorem onward_pairwise : (m.onward k).Pairwise fun a b => a.1 < b.1 :=
  m.sorted.sublist List.filter_sublist

theorem map_fst_below_erase :
    ((m.erase x).below k).map Prod.fst = ((m.below k).map Prod.fst).filter fun y => decide (y ≠ x) := by
  simp only [map_fst_below, keys_erase, List.filter_reverse, List.filter_filter, Bool.and_comm]

theorem map_fst_onward_erase :
    ((m.erase x).onward k).map Prod.fst = ((m.onward k).map Prod.fst).filter fun y => decide (y ≠ x) := by
  simp only [map_fst_onward, keys_erase, List.filter_filter, Bool.and_comm]

/-- The head of a list without one of its members. -/
theorem head_filter_ne {l : List κ} (h : l.Nodup) :
    (l.filter fun y => decide (y ≠ x))[0]? = if l[0]? = some x then l[1]? else l[0]? := by
  cases l with
  | nil => rfl
  | cons a l =>
    obtain ⟨ha, -⟩ := List.nodup_cons.1 h
    by_cases hax : a = x
    · subst hax
      have hself : (l.filter fun y => decide (y ≠ a)) = l :=
        List.filter_eq_self.2 fun y hy => decide_eq_true fun he => ha (he ▸ hy)
      rw [List.filter_cons_of_neg (by simp), hself]
      simp
    · rw [List.filter_cons_of_pos (by simpa using hax)]
      simp [hax]

/-- The first key below `k` is the greatest one. -/
theorem head_below_iff :
    ((m.below k).map Prod.fst)[0]? = some x ↔ IsGreatest {y | y ∈ m.keys ∧ y < k} x := by
  have hmem : ∀ y, y ∈ (m.below k).map Prod.fst ↔ y ∈ m.keys ∧ y < k := by simp [map_fst_below]
  have hpair : ((m.below k).map Prod.fst).Pairwise (· > ·) := List.pairwise_map.2 below_pairwise
  simp only [← hmem]
  generalize (m.below k).map Prod.fst = l at hpair
  cases l with
  | nil => simp [IsGreatest]
  | cons a l =>
    have hgreatest : IsGreatest {y | y ∈ a :: l} a := by
      refine ⟨List.mem_cons_self, fun y hy => ?_⟩
      rcases List.mem_cons.1 hy with rfl | hy
      · exact le_rfl
      · exact ((List.pairwise_cons.1 hpair).1 y hy).le
    rw [List.getElem?_cons_zero, Option.some.injEq]
    exact ⟨fun he => he ▸ hgreatest, fun hx => hgreatest.unique hx⟩

theorem head_below_eq_none : ((m.below k).map Prod.fst)[0]? = none ↔ ∀ y ∈ m.keys, k ≤ y := by
  rw [List.getElem?_eq_none_iff, Nat.le_zero, List.length_eq_zero_iff, map_fst_below,
    List.reverse_eq_nil_iff, List.filter_eq_nil_iff]
  simp only [decide_eq_true_eq, not_lt]

theorem head_onward_eq_none : ((m.onward k).map Prod.fst)[0]? = none ↔ ∀ y ∈ m.keys, y < k := by
  rw [List.getElem?_eq_none_iff, Nat.le_zero, List.length_eq_zero_iff, map_fst_onward,
    List.filter_eq_nil_iff]
  simp only [decide_eq_true_eq, not_le]

/-- The first key from `k` on is the least one. -/
theorem head_onward_iff :
    ((m.onward k).map Prod.fst)[0]? = some x ↔ IsLeast {y | y ∈ m.keys ∧ k ≤ y} x := by
  have hmem : ∀ y, y ∈ (m.onward k).map Prod.fst ↔ y ∈ m.keys ∧ k ≤ y := by simp [map_fst_onward]
  have hpair : ((m.onward k).map Prod.fst).Pairwise (· < ·) := List.pairwise_map.2 onward_pairwise
  simp only [← hmem]
  generalize (m.onward k).map Prod.fst = l at hpair
  cases l with
  | nil => simp [IsLeast]
  | cons a l =>
    have hleast : IsLeast {y | y ∈ a :: l} a := by
      refine ⟨List.mem_cons_self, fun y hy => ?_⟩
      rcases List.mem_cons.1 hy with rfl | hy
      · exact le_rfl
      · exact ((List.pairwise_cons.1 hpair).1 y hy).le
    rw [List.getElem?_cons_zero, Option.some.injEq]
    exact ⟨fun he => he ▸ hleast, fun hx => hleast.unique hx⟩

end SortedMap
