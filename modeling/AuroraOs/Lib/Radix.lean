import Mathlib

/-!
# Radix trees

A table has an entry for every index; an entry is absent, a leaf, or another table.  A leaf is at the end
of one path of indices, and a walk along any longer path comes to it as well.  A table is kept at some place,
with a count of its entries.
-/

namespace Radix

/-- An entry, with everything that is reached through it. -/
inductive Node (ι β α : Type*)
  | absent
  | leaf (a : α)
  | table (place : β) (count : ℕ) (sub : ι → Node ι β α)

namespace Node

variable {ι β α : Type*} {n n' : Node ι β α} {sub : ι → Node ι β α} {b : β} {c c' : ℕ} {a : α} {i : ι}
  {p q : List ι} {x : Option α}

/-- There is something at the entry. -/
def present : Node ι β α → Bool
  | absent => false
  | leaf _ => true
  | table _ _ _ => true

/-- The leaf at the end of a path. -/
def leafAt : List ι → Node ι β α → Option α
  | [], leaf a => some a
  | i :: p, table _ _ sub => leafAt p (sub i)
  | _, _ => none

/-- The leaf that a walk along a path comes to. -/
def walk : List ι → Node ι β α → Option α
  | _, leaf a => some a
  | i :: p, table _ _ sub => walk p (sub i)
  | _, _ => none

@[simp] theorem leafAt_absent : leafAt p (absent : Node ι β α) = none := by
  cases p <;> rfl

theorem leafAt_leaf : leafAt p (leaf a : Node ι β α) = if p = [] then some a else none := by
  cases p <;> rfl

@[simp] theorem leafAt_table_nil : leafAt [] (table b c sub) = none := rfl

@[simp] theorem leafAt_table_cons : leafAt (i :: p) (table b c sub) = leafAt p (sub i) := rfl

@[simp] theorem walk_absent : walk p (absent : Node ι β α) = none := by
  cases p <;> rfl

@[simp] theorem walk_leaf : walk p (leaf a : Node ι β α) = some a := by
  cases p <;> rfl

@[simp] theorem walk_table_nil : walk [] (table b c sub) = none := rfl

@[simp] theorem walk_table_cons : walk (i :: p) (table b c sub) = walk p (sub i) := rfl

/-- A walk comes to the leaf whose path is the beginning of the way. -/
theorem walk_eq_some_iff : n.walk p = some a ↔ ∃ q, q <+: p ∧ n.leafAt q = some a := by
  induction p generalizing n with
  | nil =>
    cases n with
    | absent => simp
    | leaf a' => simp [leafAt_leaf]
    | table b c sub => simp
  | cons i p ih =>
    cases n with
    | absent => simp
    | leaf a' =>
      rw [walk_leaf]
      constructor
      · intro h
        exact ⟨[], List.nil_prefix, h⟩
      · rintro ⟨q, -, hq⟩
        rw [leafAt_leaf] at hq
        split_ifs at hq
        exact hq
    | table b c sub =>
      rw [walk_table_cons, ih]
      constructor
      · rintro ⟨q, hq, hleaf⟩
        exact ⟨i :: q, List.cons_prefix_cons.2 ⟨rfl, hq⟩, hleaf⟩
      · rintro ⟨q, hq, hleaf⟩
        cases q with
        | nil => cases hleaf
        | cons j q =>
          obtain ⟨rfl, hprefix⟩ := List.cons_prefix_cons.1 hq
          exact ⟨q, hprefix, hleaf⟩

/-- A leaf is the only one on any way through it. -/
theorem leaf_unique {a' : α} (h : n.leafAt p = some a) (h' : n.leafAt q = some a') (hpq : p <+: q) : p = q := by
  induction p generalizing n q with
  | nil =>
    cases n with
    | leaf b =>
      by_contra hq
      rw [leafAt_leaf, if_neg (Ne.symm hq)] at h'
      cases h'
    | absent => cases h
    | table b c sub => cases h
  | cons i p ih =>
    cases n with
    | table b c sub =>
      cases q with
      | nil => cases h'
      | cons j q =>
        obtain ⟨rfl, hpre⟩ := List.cons_prefix_cons.1 hpq
        rw [ih h h' hpre]
    | absent => cases h
    | leaf b => cases h

section Walk

variable [DecidableEq ι]

/-- A walk that does not go through the leaf that changes. -/
theorem walk_of_other (h : ∀ q, n'.leafAt q = if q = p then x else n.leafAt q) (hq : ¬ p <+: q) :
    n'.walk q = n.walk q := by
  refine Option.ext fun a => ?_
  rw [walk_eq_some_iff, walk_eq_some_iff]
  refine exists_congr fun q' => and_congr_right fun hpre => ?_
  rw [h q', if_neg]
  rintro rfl
  exact hq hpre

/-- **A leaf more**: a walk through its path comes to it. -/
theorem walk_of_added (h : ∀ q, n'.leafAt q = if q = p then some a else n.leafAt q) (q : List ι) :
    n'.walk q = if p <+: q then some a else n.walk q := by
  split_ifs with hq
  · exact walk_eq_some_iff.2 ⟨p, hq, by rw [h p, if_pos rfl]⟩
  · exact walk_of_other h hq

/-- **A leaf less**: a walk through its path comes to nothing. -/
theorem walk_of_removed (hp : n.leafAt p = some a) (h : ∀ q, n'.leafAt q = if q = p then none else n.leafAt q)
    (q : List ι) : n'.walk q = if p <+: q then none else n.walk q := by
  split_ifs with hq
  · refine Option.eq_none_iff_forall_ne_some.2 fun a' ha' => ?_
    obtain ⟨q', hpre, hleaf⟩ := walk_eq_some_iff.1 ha'
    rw [h q'] at hleaf
    split_ifs at hleaf with hne
    rcases List.prefix_or_prefix_of_prefix hq hpre with hle | hle
    · exact hne (leaf_unique hp hleaf hle).symm
    · exact hne (leaf_unique hleaf hp hle)
  · exact walk_of_other h hq

end Walk

/-- Nothing is found in a table without entries. -/
theorem leafAt_of_bare (h : ∀ i, sub i = absent) : leafAt p (table b c sub) = none := by
  cases p with
  | nil => rfl
  | cons i p => rw [leafAt_table_cons, h i, leafAt_absent]

/-- **A change at one path**: below an entry only one leaf changes, so only that leaf changes in the
table. -/
theorem leafAt_update [DecidableEq ι] (h : ∀ q, n.leafAt q = if q = p then x else (sub i).leafAt q)
    (q : List ι) : leafAt q (table b c (Function.update sub i n)) =
      if q = i :: p then x else leafAt q (table b c' sub) := by
  cases q with
  | nil => simp
  | cons j q =>
    by_cases hj : j = i
    · subst hj
      simp [h q]
    · simp [hj]

/-- What has the same leaves, at an entry. -/
theorem leafAt_update_same [DecidableEq ι] (h : ∀ q, n.leafAt q = (sub i).leafAt q) (q : List ι) :
    leafAt q (table b c (Function.update sub i n)) = leafAt q (table b c' sub) := by
  cases q with
  | nil => rfl
  | cons j q =>
    rcases eq_or_ne j i with rfl | hj
    · simp [h q]
    · simp [hj]

/-! ### The way along a path -/

/-- No leaf is on the way before the end of the path. -/
def Way : List ι → Node ι β α → Prop
  | _ :: _, leaf _ => False
  | i :: p, table _ _ sub => Way p (sub i)
  | _, _ => True

theorem way_iff : n.Way p ↔ ∀ q, q <+: p → (n.leafAt q).isSome = true → q = p := by
  induction p generalizing n with
  | nil =>
    refine iff_of_true ?_ fun q hq _ => List.prefix_nil.1 hq
    cases n <;> trivial
  | cons i p ih =>
    cases n with
    | absent =>
      refine iff_of_true trivial fun q _ hleaf => ?_
      rw [leafAt_absent] at hleaf
      cases hleaf
    | leaf a => exact iff_of_false id fun h => List.cons_ne_nil i p (h [] List.nil_prefix rfl).symm
    | table b c sub =>
      rw [Way, ih]
      constructor
      · intro h q hq hleaf
        cases q with
        | nil => cases hleaf
        | cons j q =>
          obtain ⟨rfl, hrest⟩ := List.cons_prefix_cons.1 hq
          rw [h q hrest hleaf]
      · intro h q hq hleaf
        exact (List.cons_eq_cons.1 (h (i :: q) (List.cons_prefix_cons.2 ⟨rfl, hq⟩) hleaf)).2

/-- Everything along the path goes with its end: every table on the way counts one entry. -/
def Goes : List ι → Node ι β α → Prop
  | [], _ => True
  | i :: p, table _ c sub => Goes p (sub i) ∧ c = 1
  | _ :: _, _ => False

/-- A table that goes with the end of the path has nothing beside the way. -/
def Tidy : List ι → Node ι β α → Prop
  | i :: p, table _ c sub => Tidy p (sub i) ∧ (Goes p (sub i) → c = 1 → ∀ j, j ≠ i → sub j = absent)
  | _, _ => True

instance decidableAbsent : (n : Node ι β α) → Decidable (n = absent)
  | absent => isTrue rfl
  | leaf _ => isFalse (fun h => nomatch h)
  | table _ _ _ => isFalse (fun h => nomatch h)

instance decidableGoes : (p : List ι) → (n : Node ι β α) → Decidable (Goes p n)
  | [], _ => isTrue trivial
  | i :: p, table _ c sub =>
      haveI := decidableGoes p (sub i)
      inferInstanceAs (Decidable (Goes p (sub i) ∧ c = 1))
  | _ :: _, absent => isFalse id
  | _ :: _, leaf _ => isFalse id

instance decidableTidy [Fintype ι] [DecidableEq ι] : (p : List ι) → (n : Node ι β α) → Decidable (Tidy p n)
  | i :: p, table _ c sub =>
      haveI := decidableTidy p (sub i)
      inferInstanceAs (Decidable (Tidy p (sub i) ∧ (Goes p (sub i) → c = 1 → ∀ j, j ≠ i → sub j = absent)))
  | [], _ => isTrue (by unfold Tidy; trivial)
  | _ :: _, absent => isTrue trivial
  | _ :: _, leaf _ => isTrue trivial

theorem way_of_leafAt (h : n.leafAt p = some a) : n.Way p := by
  induction p generalizing n with
  | nil => cases n <;> trivial
  | cons i p ih =>
    cases n with
    | absent => trivial
    | leaf b => cases h
    | table b c sub => exact ih h

/-- Where everything along a path goes and the removal is tidy, there is nothing beside the path. -/
theorem head_of_goes {j : ι} (htidy : n.Tidy (i :: p)) (hgoes : n.Goes (i :: p))
    (hleaf : (n.leafAt (j :: q)).isSome = true) : j = i := by
  cases n with
  | absent => cases hleaf
  | leaf a => cases hleaf
  | table b c sub =>
    by_contra hj
    rw [leafAt_table_cons, htidy.2 hgoes.1 hgoes.2 j hj, leafAt_absent] at hleaf
    cases hleaf

/-- A leaf goes. -/
theorem leafAt_of_leaf [DecidableEq ι] (h : (n.leafAt []).isSome = true) (q : List ι) :
    leafAt q (absent : Node ι β α) = if q = [] then none else n.leafAt q := by
  cases n with
  | leaf a =>
    rw [leafAt_absent, leafAt_leaf]
    split_ifs <;> rfl
  | absent => cases h
  | table b c sub => cases h

/-- A table goes that has nothing beside the way. -/
theorem leafAt_of_gone [DecidableEq ι] (h : ∀ j, j ≠ i → sub j = absent)
    (hi : ∀ q, leafAt q (absent : Node ι β α) = if q = p then none else (sub i).leafAt q) (q : List ι) :
    leafAt q (absent : Node ι β α) = if q = i :: p then none else leafAt q (table b c sub) := by
  rw [leafAt_absent]
  cases q with
  | nil => simp
  | cons j q =>
    by_cases hj : j = i
    · subst hj
      have hq := hi q
      rw [leafAt_absent] at hq
      simpa using hq
    · simp [hj, h j hj]

/-! ### All leaves of a tree -/

section Leaves

variable {leaves : Set (List ι × α)}

/-- The tree has these leaves, at the ends of these paths. -/
def Shows (n : Node ι β α) (leaves : Set (List ι × α)) : Prop := ∀ p a, n.leafAt p = some a ↔ (p, a) ∈ leaves

theorem Shows.walk_iff (h : n.Shows leaves) : n.walk q = some a ↔ ∃ p, p <+: q ∧ (p, a) ∈ leaves := by
  simp only [walk_eq_some_iff, h _ _]

theorem Shows.isSome (h : n.Shows leaves) (ha : (p, a) ∈ leaves) : (n.leafAt p).isSome = true := by
  rw [(h p a).2 ha]
  rfl

/-- No leaf is on the way to a path that begins with no other. -/
theorem Shows.way (h : n.Shows leaves) (hp : ∀ x ∈ leaves, x.1 <+: p → x.1 = p) : n.Way p := by
  refine way_iff.2 fun q hq hleaf => ?_
  obtain ⟨a, ha⟩ := Option.isSome_iff_exists.1 hleaf
  exact hp (q, a) ((h q a).1 ha) hq

theorem Shows.added [DecidableEq ι] (h : n.Shows leaves) (hp : ∀ x ∈ leaves, x.1 ≠ p)
    (h' : ∀ q, n'.leafAt q = if q = p then some a else n.leafAt q) : n'.Shows (insert (p, a) leaves) := by
  intro q a'
  rw [h' q, Set.mem_insert_iff, Prod.ext_iff]
  split_ifs with hq
  · subst hq
    simp only [Option.some.injEq, true_and]
    exact ⟨fun ha => Or.inl ha.symm, fun ha => ha.elim Eq.symm fun hmem => absurd rfl (hp _ hmem)⟩
  · simp only [hq, false_and, false_or]
    exact h q a'

theorem Shows.removed [DecidableEq ι] (h : n.Shows leaves)
    (h' : ∀ q, n'.leafAt q = if q = p then none else n.leafAt q) : n'.Shows {x ∈ leaves | x.1 ≠ p} := by
  intro q a'
  rw [h' q, Set.mem_sep_iff]
  split_ifs with hq
  · simp [hq]
  · simp only [ne_eq, hq, not_false_eq_true, and_true]
    exact h q a'

end Leaves

/-! ### Where the tables are -/

/-- The places of the tables. -/
def places : Node ι β α → Set β
  | table b _ sub => insert b (⋃ i, (sub i).places)
  | _ => ∅

/-- No two tables are at one place. -/
def Separated : Node ι β α → Prop
  | table b _ sub => (∀ i, b ∉ (sub i).places) ∧
      (∀ i j, i ≠ j → Disjoint (sub i).places (sub j).places) ∧ ∀ i, (sub i).Separated
  | _ => True

@[simp] theorem places_absent : (absent : Node ι β α).places = ∅ := rfl

@[simp] theorem places_leaf : (leaf a : Node ι β α).places = ∅ := rfl

theorem mem_places {x : β} : x ∈ (table b c sub).places ↔ x = b ∨ ∃ i, x ∈ (sub i).places := by
  simp only [places, Set.mem_insert_iff, Set.mem_iUnion]

theorem mem_places_self : b ∈ (table b c sub).places := mem_places.2 (Or.inl rfl)

theorem places_sub (i : ι) : (sub i).places ⊆ (table b c sub).places := fun _ hx =>
  mem_places.2 (Or.inr ⟨i, hx⟩)

/-- Replacing what is below an entry. -/
theorem mem_places_update [DecidableEq ι] {x : β} (hx : x ∈ (table b c (Function.update sub i n)).places) :
    x ∈ (table b c' sub).places ∨ x ∈ n.places := by
  rcases mem_places.1 hx with rfl | ⟨j, hj⟩
  · exact Or.inl mem_places_self
  · rcases eq_or_ne j i with rfl | hne
    · rw [Function.update_self] at hj
      exact Or.inr hj
    · rw [Function.update_of_ne hne] at hj
      exact Or.inl (places_sub j hj)

/-- The tables stay apart if what is new below an entry was there or is at places of its own. -/
theorem Separated.update [DecidableEq ι] (h : (table b c sub).Separated) (hn : n.Separated)
    (hplaces : ∀ x ∈ n.places, x ∈ (sub i).places ∨ x ∉ (table b c sub).places) :
    (table b c' (Function.update sub i n)).Separated := by
  obtain ⟨hb, hdisjoint, hsub⟩ := h
  have hother : ∀ j, j ≠ i → Disjoint n.places (sub j).places := by
    intro j hj
    refine Set.disjoint_left.2 fun x hx hxj => ?_
    rcases hplaces x hx with hxi | hnot
    · exact Set.disjoint_left.1 (hdisjoint i j (Ne.symm hj)) hxi hxj
    · exact hnot (places_sub j hxj)
  refine ⟨fun j hj => ?_, fun j j' hne => ?_, fun j => ?_⟩
  · rcases eq_or_ne j i with rfl | hji
    · rw [Function.update_self] at hj
      rcases hplaces b hj with hbi | hnot
      · exact hb j hbi
      · exact hnot mem_places_self
    · rw [Function.update_of_ne hji] at hj
      exact hb j hj
  · rcases eq_or_ne j i with rfl | hji
    · rw [Function.update_self, Function.update_of_ne hne.symm]
      exact hother j' hne.symm
    · rw [Function.update_of_ne hji]
      rcases eq_or_ne j' i with rfl | hji'
      · rw [Function.update_self]
        exact (hother j hji).symm
      · rw [Function.update_of_ne hji']
        exact hdisjoint j j' hne
  · rcases eq_or_ne j i with rfl | hji
    · rw [Function.update_self]
      exact hn
    · rw [Function.update_of_ne hji]
      exact hsub j

end Node
end Radix
