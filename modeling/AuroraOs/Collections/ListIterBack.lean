import AuroraOs.Collections.ListIter
import AuroraOs.Lib.Machine

/-!
# Iterators from both ends

`next_back` of `Iter` and `IterMut` walks from the last node on.  The two pointers of an iterator pass
each other and may leave the list; only the count ends the walk.  `next_back` is `next` with the links
exchanged, so that what one does is known from the other.
-/

namespace AuroraOs.LinkedList

open DoublyLinked

namespace Iter

/-- `Iter::next_back`. -/
def nextBack (m : NodeMem) (it : Iter) : Option (Option Ptr × Iter) :=
  if it.len = 0 then some (none, it)
  else do
    let out ← asRef it.end_
    some (some out, { it with end_ := (m out).prev, len := it.len - 1 })

/-- `Iter::size_hint`. -/
def sizeHint (it : Iter) : ℕ × Option ℕ := (it.len, some it.len)

/-- The iterator that starts at the other end. -/
def flip (it : Iter) : Iter := ⟨it.end_, it.start, it.len⟩

/-- Both pointers are at the ends of the nodes that are left. -/
structure Spans (it : Iter) (rest : List Ptr) : Prop where
  forward : it.At rest
  backward : it.flip.At rest.reverse

variable {m : NodeMem} {it : Iter} {p n x : Ptr} {rest : List Ptr}

/-- `next_back` is `next` from the other end. -/
theorem nextBack_eq (m : NodeMem) (it : Iter) :
    it.nextBack m = (it.flip.next (DoublyLinked.flip m)).map fun r => (r.1, r.2.flip) := by
  unfold nextBack next flip
  split_ifs with h
  · rfl
  · cases asRef it.end_ <;> rfl

theorem Spans.flip (h : it.Spans rest) : it.flip.Spans rest.reverse :=
  ⟨h.backward, by rw [List.reverse_reverse]; exact h.forward⟩

theorem Spans.next_nil (h : it.Spans []) : it.next m = some (none, it) := Iter.next_nil h.forward

theorem Spans.nextBack_nil (h : it.Spans []) : it.nextBack m = some (none, it) := if_pos h.forward.len_eq

/-- `next` hands out the first node that is left. -/
theorem Spans.next_cons (h : it.Spans (x :: rest)) (hlink : Linked m p (x :: rest) n) (hx : x ≠ null) :
    ∃ it', it.next m = some (some x, it') ∧ it'.Spans rest := by
  have hfirst : rest ≠ [] → (m x).next = first rest null := fun hne => by
    rw [hlink.2.1]
    cases rest with
    | nil => exact absurd rfl hne
    | cons y rest => rfl
  obtain ⟨it', hnext, hat, hend⟩ := Iter.next_cons h.forward hx hfirst
  refine ⟨it', hnext, hat, by rw [List.length_reverse]; exact hat.len_eq, fun hne => ?_⟩
  -- the last node is the one it was
  have hlast := h.backward.start_eq (by simp)
  rw [first_reverse, last_cons] at hlast
  show it'.end_ = _
  rw [hend, first_reverse]
  cases rest with
  | nil => exact absurd rfl hne
  | cons y rest => exact hlast

/-- `next_back` hands out the last one. -/
theorem Spans.nextBack_concat (h : it.Spans (rest ++ [x])) (hlink : Linked m p (rest ++ [x]) n)
    (hx : x ≠ null) : ∃ it', it.nextBack m = some (some x, it') ∧ it'.Spans rest := by
  have hflip := h.flip
  have hlink' : Linked (DoublyLinked.flip m) n (rest ++ [x]).reverse p := linked_reverse.2 hlink
  rw [List.reverse_append, List.reverse_singleton, List.singleton_append] at hflip hlink'
  obtain ⟨it', hnext, hspans⟩ := hflip.next_cons hlink' hx
  refine ⟨it'.flip, by rw [nextBack_eq, hnext]; rfl, ?_⟩
  have hback := hspans.flip
  rwa [List.reverse_reverse] at hback

end Iter

variable {m : NodeMem} {l : LinkedList} {xs rest : List Ptr}

theorem Repr.iter_spans (h : Repr m l xs) : l.iter.Spans xs := by
  refine ⟨h.iter_at, by rw [List.length_reverse]; exact h.len_eq, fun hne => ?_⟩
  rw [first_reverse]
  exact h.end_eq (by simpa using hne)

/-! ### Calls in any order -/

/-- An iterator, with what its calls returned: `next` in `front`, and `next_back` in `back`, the latest
last. -/
structure Walk where
  it : Iter
  front : List Ptr
  back : List Ptr

inductive Walk.Call
  | next
  | nextBack

def Walk.call (m : NodeMem) (w : Walk) : Walk.Call → Option Walk
  | .next => (w.it.next m).map fun r => { w with it := r.2, front := w.front ++ r.1.toList }
  | .nextBack => (w.it.nextBack m).map fun r => { w with it := r.2, back := w.back ++ r.1.toList }

/-- The nodes that were not handed out are those between, and the iterator spans them. -/
structure Walk.Left (w : Walk) (xs rest : List Ptr) : Prop where
  split : xs = w.front ++ rest ++ w.back.reverse
  spans : w.it.Spans rest

variable {w w' : Walk}

theorem Walk.Left.call_nil (h : w.Left xs []) (c : Walk.Call) : w.call m c = some w := by
  cases c with
  | next => rw [Walk.call, h.spans.next_nil, Option.map_some, Option.toList_none, List.append_nil]
  | nextBack => rw [Walk.call, h.spans.nextBack_nil, Option.map_some, Option.toList_none, List.append_nil]

/-- The nodes between are chained. -/
theorem Walk.Left.linked (hrepr : Repr m l xs) (h : w.Left xs rest) :
    Linked m (last null w.front) rest (first w.back.reverse null) := by
  have hlink := hrepr.linked
  rw [h.split, List.append_assoc] at hlink
  exact (linked_append.1 (linked_append.1 hlink).2).1

theorem Walk.Left.ne_null (hrepr : Repr m l xs) (h : w.Left xs rest) {x : Ptr} (hx : x ∈ rest) :
    x ≠ null :=
  hrepr.ne_null (h.split ▸ List.mem_append_left _ (List.mem_append_right _ hx))

/-- `next` takes the first of the nodes that are left, if there is one. -/
theorem Walk.Left.next (hrepr : Repr m l xs) (h : w.Left xs rest) :
    ∃ it', w.it.next m = some (rest.head?, it') ∧
      Walk.Left ⟨it', w.front ++ rest.head?.toList, w.back⟩ xs rest.tail := by
  cases rest with
  | nil =>
    refine ⟨w.it, h.spans.next_nil, ?_⟩
    rwa [List.head?_nil, Option.toList_none, List.append_nil]
  | cons x rest =>
    obtain ⟨it', hnext, hspans⟩ := h.spans.next_cons (h.linked hrepr) (h.ne_null hrepr List.mem_cons_self)
    refine ⟨it', hnext, ?_, hspans⟩
    rw [h.split, List.append_assoc, List.append_assoc, List.append_assoc]
    rfl

/-- `next_back` takes the last one. -/
theorem Walk.Left.nextBack (hrepr : Repr m l xs) (h : w.Left xs rest) :
    ∃ it', w.it.nextBack m = some (rest.getLast?, it') ∧
      Walk.Left ⟨it', w.front, w.back ++ rest.getLast?.toList⟩ xs rest.dropLast := by
  induction rest using List.reverseRecOn with
  | nil =>
    refine ⟨w.it, h.spans.nextBack_nil, ?_⟩
    rwa [List.getLast?_nil, Option.toList_none, List.append_nil]
  | append_singleton rest x _ =>
    obtain ⟨it', hnext, hspans⟩ :=
      h.spans.nextBack_concat (h.linked hrepr) (h.ne_null hrepr List.mem_concat_self)
    rw [List.getLast?_concat, List.dropLast_concat]
    refine ⟨it', hnext, ?_, hspans⟩
    rw [h.split, Option.toList_some, List.reverse_append, List.reverse_singleton]
    simp only [List.append_assoc]

/-- A call leaves the others. -/
theorem Walk.Left.call (hrepr : Repr m l xs) (h : w.Left xs rest) (c : Walk.Call) :
    ∃ w' rest', w.call m c = some w' ∧ w'.Left xs rest' := by
  cases c with
  | next =>
    obtain ⟨it', hnext, hleft⟩ := h.next hrepr
    exact ⟨_, rest.tail, by rw [Walk.call, hnext, Option.map_some], hleft⟩
  | nextBack =>
    obtain ⟨it', hnext, hleft⟩ := h.nextBack hrepr
    exact ⟨_, rest.dropLast, by rw [Walk.call, hnext, Option.map_some], hleft⟩

/-- Once nothing is left, no calls change anything. -/
theorem Walk.Left.run_nil (h : w.Left xs []) (calls : List Walk.Call) :
    Machine.run (Walk.call m) w calls = some w := by
  induction calls with
  | nil => rfl
  | cons c calls ih => rw [Machine.run, h.call_nil, Option.bind_some, ih]

/-- **An iterator that is called from both ends** shares the list out: what `next` returned is a prefix,
what `next_back` returned is a suffix from the end, and `size_hint` is what is left between.  While there is
something left both return a node, and once there is not neither ever does. -/
theorem iter_shares (h : Repr m l xs) (calls : List Walk.Call) :
    ∃ w rest, Machine.run (Walk.call m) ⟨l.iter, [], []⟩ calls = some w ∧
      w.front <+: xs ∧ w.back.reverse <:+ xs ∧ xs = w.front ++ rest ++ w.back.reverse ∧
      w.it.sizeHint = (rest.length, some rest.length) ∧
      (∃ it', w.it.next m = some (rest.head?, it')) ∧
      (∃ it', w.it.nextBack m = some (rest.getLast?, it')) ∧
      (rest = [] → ∀ calls', Machine.run (Walk.call m) w calls' = some w) := by
  have hstart : Walk.Left ⟨l.iter, [], []⟩ xs xs := ⟨by simp, h.iter_spans⟩
  have htrue : Machine.Along (Walk.call m) (fun _ _ => True) ⟨l.iter, [], []⟩ calls :=
    Machine.along_of_forall fun _ _ => trivial
  obtain ⟨w, hrun, rest, hleft⟩ := Machine.run_inv
    (fun w : Walk => ∃ rest, w.Left xs rest)
    (fun w c hw _ => by
      obtain ⟨rest, hleft⟩ := hw
      obtain ⟨w', rest', hcall, hleft'⟩ := hleft.call h c
      exact ⟨w', hcall, rest', hleft'⟩)
    ⟨xs, hstart⟩ htrue
  obtain ⟨itF, hnext, -⟩ := hleft.next h
  obtain ⟨itB, hback, -⟩ := hleft.nextBack h
  refine ⟨w, rest, hrun, ?_, ?_, hleft.split, ?_, ⟨itF, hnext⟩, ⟨itB, hback⟩, ?_⟩
  · exact ⟨rest ++ w.back.reverse, by rw [← List.append_assoc]; exact hleft.split.symm⟩
  · exact ⟨w.front ++ rest, hleft.split.symm⟩
  · rw [Iter.sizeHint, hleft.spans.forward.len_eq]
  · rintro rfl calls'
    exact hleft.run_nil calls'

/-- The links of three nodes in a row. -/
def threeNodes : NodeMem := fun p => ⟨p - 1, if p = 3 then 0 else p + 1⟩

/-- Three nodes, taken from the back, the front and the back again, and two calls too many. -/
theorem iter_shares_three :
    ∃ w rest, Machine.run (Walk.call threeNodes) ⟨iter ⟨1, 3, 3⟩, [], []⟩
        [.nextBack, .next, .nextBack, .next, .nextBack] = some w ∧
      w.front <+: [1, 2, 3] ∧ w.back.reverse <:+ [1, 2, 3] ∧
      [1, 2, 3] = w.front ++ rest ++ w.back.reverse ∧
      w.it.sizeHint = (rest.length, some rest.length) ∧
      (∃ it', w.it.next threeNodes = some (rest.head?, it')) ∧
      (∃ it', w.it.nextBack threeNodes = some (rest.getLast?, it')) ∧
      (rest = [] → ∀ calls', Machine.run (Walk.call threeNodes) w calls' = some w) :=
  iter_shares (l := ⟨1, 3, 3⟩) (by constructor <;> simp [threeNodes]) _

end AuroraOs.LinkedList
