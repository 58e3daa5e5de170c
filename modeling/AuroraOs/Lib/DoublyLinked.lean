import Mathlib

/-!
# Doubly linked chains in a memory of links

A memory assigns a `prev` and a `next` link to every cell.  `Linked m p xs n` says that the cells
`xs` are chained in order: each cell's `next` is the following cell and each cell's `prev` is the
preceding one, the first cell's `prev` being `p` and the last cell's `next` being `n`.

* `linked_append` cuts a chain at any point, `linked_concat` at its last cell;
* `Linked.congr` is the frame rule, with its two instances for single writes;
* `linked_reverse` exchanges the two directions, so a fact about `next` gives one about `prev`;
* `chase` and `follow` read a chain back from the memory.
-/

namespace DoublyLinked

variable {α : Type*}

/-- The two links of a cell. -/
structure Links (α : Type*) where
  prev : α
  next : α
  deriving DecidableEq

/-- A memory of links. -/
abbrev LinkMem (α : Type*) := α → Links α

/-- The first cell of a list, or `n` past its end. -/
def first : List α → α → α
  | [], n => n
  | x :: _, _ => x

/-- The last cell of a list, or `p` before its start. -/
def last : α → List α → α
  | p, [] => p
  | _, x :: xs => last x xs

@[simp] theorem first_nil (n : α) : first [] n = n := rfl
@[simp] theorem first_cons (x : α) (xs : List α) (n : α) : first (x :: xs) n = x := rfl
@[simp] theorem last_nil (p : α) : last p [] = p := rfl
@[simp] theorem last_cons (p x : α) (xs : List α) : last p (x :: xs) = last x xs := rfl

@[simp] theorem first_append (xs ys : List α) (n : α) :
    first (xs ++ ys) n = first xs (first ys n) := by
  cases xs <;> rfl

@[simp] theorem last_append (p : α) (xs ys : List α) : last p (xs ++ ys) = last (last p xs) ys := by
  induction xs generalizing p with
  | nil => rfl
  | cons x xs ih => simp [ih]

theorem first_reverse (xs : List α) (p : α) : first xs.reverse p = last p xs := by
  induction xs generalizing p with
  | nil => rfl
  | cons x xs ih => simp [ih]

theorem last_reverse (xs : List α) (n : α) : last n xs.reverse = first xs n := by
  cases xs <;> simp

theorem last_mem (p : α) {xs : List α} (h : xs ≠ []) : last p xs ∈ xs := by
  induction xs using List.reverseRecOn with
  | nil => exact absurd rfl h
  | append_singleton xs x _ => simp

/-- The cells `xs` form a chain entered from `p` and left towards `n`. -/
def Linked (m : LinkMem α) : α → List α → α → Prop
  | _, [], _ => True
  | p, x :: xs, n => (m x).prev = p ∧ (m x).next = first xs n ∧ Linked m x xs n

variable {m m' : LinkMem α} {p n : α}

@[simp] theorem linked_nil : Linked m p [] n := trivial

@[simp] theorem linked_cons {x : α} {xs : List α} :
    Linked m p (x :: xs) n ↔ (m x).prev = p ∧ (m x).next = first xs n ∧ Linked m x xs n := Iff.rfl

theorem linked_append {xs ys : List α} :
    Linked m p (xs ++ ys) n ↔ Linked m p xs (first ys n) ∧ Linked m (last p xs) ys n := by
  induction xs generalizing p with
  | nil => simp
  | cons x xs ih => simp [ih, and_assoc]

theorem linked_concat {xs : List α} {e : α} :
    Linked m p (xs ++ [e]) n ↔ Linked m p xs e ∧ (m e).prev = last p xs ∧ (m e).next = n := by
  simp [linked_append]

/-- Frame rule: a chain only depends on the links of its own cells. -/
theorem Linked.congr {xs : List α} (h : Linked m p xs n) (hm : ∀ x ∈ xs, m' x = m x) :
    Linked m' p xs n := by
  induction xs generalizing p with
  | nil => trivial
  | cons x xs ih =>
    obtain ⟨hp, hn, hl⟩ := h
    rw [linked_cons, hm x (by simp)]
    exact ⟨hp, hn, ih hl fun y hy => hm y (by simp [hy])⟩

/-! ### Writes -/

section Writes

variable [DecidableEq α] (m : LinkMem α) (a v : α)

/-- Overwrite the `prev` link of the cell `a`. -/
def setPrev : LinkMem α := Function.update m a { m a with prev := v }

/-- Overwrite the `next` link of the cell `a`. -/
def setNext : LinkMem α := Function.update m a { m a with next := v }

@[simp] theorem setPrev_same_prev : (setPrev m a v a).prev = v := by simp [setPrev]
@[simp] theorem setNext_same_next : (setNext m a v a).next = v := by simp [setNext]

@[simp] theorem setPrev_next (b : α) : (setPrev m a v b).next = (m b).next := by
  rcases eq_or_ne b a with rfl | h <;> simp [setPrev, *]

@[simp] theorem setNext_prev (b : α) : (setNext m a v b).prev = (m b).prev := by
  rcases eq_or_ne b a with rfl | h <;> simp [setNext, *]

theorem setPrev_of_ne {b : α} (h : b ≠ a) : setPrev m a v b = m b := by simp [setPrev, h]
theorem setNext_of_ne {b : α} (h : b ≠ a) : setNext m a v b = m b := by simp [setNext, h]

variable {m a} {xs : List α}

theorem Linked.setPrev (h : Linked m p xs n) (ha : a ∉ xs) :
    Linked (setPrev m a v) p xs n :=
  h.congr fun x hx => setPrev_of_ne m a v (by rintro rfl; exact ha hx)

theorem Linked.setNext (h : Linked m p xs n) (ha : a ∉ xs) :
    Linked (setNext m a v) p xs n :=
  h.congr fun x hx => setNext_of_ne m a v (by rintro rfl; exact ha hx)

/-- Redirecting the first cell's `prev` moves the entry of the chain. -/
theorem Linked.setPrev_first (h : Linked m p xs n) (hnd : xs.Nodup) :
    Linked (DoublyLinked.setPrev m (first xs n) v) v xs n := by
  cases xs with
  | nil => trivial
  | cons x xs =>
    obtain ⟨-, hn, hl⟩ := h
    exact ⟨by simp, by simpa using hn, hl.setPrev v (List.nodup_cons.1 hnd).1⟩

/-- Redirecting the last cell's `next` moves the exit of the chain. -/
theorem Linked.setNext_last (h : Linked m p xs n) (hnd : xs.Nodup) :
    Linked (DoublyLinked.setNext m (last p xs) v) p xs v := by
  induction xs using List.reverseRecOn with
  | nil => trivial
  | append_singleton xs x _ =>
    have hx : x ∉ xs := fun hmem => (List.nodup_append.1 hnd).2.2 x hmem x (by simp) rfl
    rw [linked_concat] at h ⊢
    simp only [last_append, last_cons, last_nil]
    exact ⟨h.1.setNext v hx, by simpa using h.2.1, by simp⟩

end Writes

/-! ### The reversed chain -/

/-- The memory with the two directions exchanged. -/
def flip (m : LinkMem α) : LinkMem α := fun a => ⟨(m a).next, (m a).prev⟩

@[simp] theorem flip_prev (a : α) : (flip m a).prev = (m a).next := rfl
@[simp] theorem flip_next (a : α) : (flip m a).next = (m a).prev := rfl

theorem linked_reverse {xs : List α} : Linked (flip m) n xs.reverse p ↔ Linked m p xs n := by
  induction xs generalizing p with
  | nil => simp
  | cons x xs ih =>
    rw [List.reverse_cons, linked_concat, ih, linked_cons, last_reverse, flip_prev, flip_next]
    tauto

/-! ### Reading a chain -/

/-- The first `k` cells met from `a` along `next`. -/
def follow (m : LinkMem α) : ℕ → α → List α
  | 0, _ => []
  | k + 1, a => a :: follow m k (m a).next

theorem Linked.follow {xs : List α} (h : Linked m p xs n) :
    DoublyLinked.follow m xs.length (first xs n) = xs := by
  induction xs generalizing p with
  | nil => rfl
  | cons x xs ih =>
    obtain ⟨-, hn, hl⟩ := h
    rw [List.length_cons, first_cons, DoublyLinked.follow, hn, ih hl]

/-- Follow `next` exactly `k` times, stopping at the cell `null`. -/
def chase [DecidableEq α] (null : α) (m : LinkMem α) : ℕ → α → Option α
  | 0, a => some a
  | k + 1, a => if (m a).next = null then none else chase null m k (m a).next

theorem Linked.chase [DecidableEq α] {null : α} {xs : List α} (h : Linked m p xs n)
    (hnull : null ∉ xs) {k : ℕ} (hk : k < xs.length) :
    DoublyLinked.chase null m k (first xs n) = xs[k]? := by
  induction xs generalizing p k with
  | nil => simp at hk
  | cons x xs ih =>
    cases k with
    | zero => rfl
    | succ k =>
      obtain ⟨-, hn, hl⟩ := h
      have hk' : k < xs.length := by simpa using hk
      have hne : (m x).next ≠ null := by
        rw [hn]
        cases xs with
        | nil => simp at hk'
        | cons y ys => rintro rfl; simp at hnull
      rw [first_cons, DoublyLinked.chase, if_neg hne, hn, List.getElem?_cons_succ]
      exact ih hl (fun hmem => hnull (List.mem_cons_of_mem _ hmem)) hk'

end DoublyLinked
