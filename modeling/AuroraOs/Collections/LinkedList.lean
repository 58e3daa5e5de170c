import AuroraOs.Util
import AuroraOs.Lib.DoublyLinked

/-!
# The intrusive linked list

`libutil/src/collections/linked_list.rs`.  A list does not own memory: its nodes carry their two
links, and a `LinkedList` value is the pair of end pointers with a length.  Every operation takes
the memory of the nodes and returns it updated; `none` is a panic.

`Repr m l xs` says that the list value `l` represents the sequence `xs` of nodes.  After the last
node is popped `start` and `end` keep stale values, so they are constrained for nonempty lists
only.  Each operation has one specification lemma: it does not panic, the new list value represents
the new sequence, and memory is unchanged outside the nodes involved.
-/

namespace AuroraOs

open DoublyLinked

/-- The links of all nodes. -/
abbrev NodeMem := LinkMem Ptr

/-- `LinkedList`: the two ends and the length. -/
structure LinkedList where
  start : Ptr
  end_ : Ptr
  len : ℕ
  deriving DecidableEq

namespace LinkedList

/-- `LinkedList::new`. -/
def new : LinkedList := ⟨null, null, 0⟩

/-! ### The operations -/

/-- `LinkedList::push`. -/
def push (m : NodeMem) (l : LinkedList) (val : Ptr) : Option (NodeMem × LinkedList × Ptr) :=
  if l.len = 0 then
    some (setNext (setPrev m val null) val null, ⟨val, val, l.len + 1⟩, val)
  else do
    let e ← asRef l.end_
    let m := setNext m e val
    let m := setPrev m val l.end_
    some (setNext m val null, ⟨l.start, val, l.len + 1⟩, val)

/-- `LinkedList::pop`. -/
def pop (m : NodeMem) (l : LinkedList) : Option (NodeMem × LinkedList × Option Ptr) :=
  if l.len = 0 then some (m, l, none)
  else do
    let out ← asRef l.end_
    if l.len > 1 then
      let end_ := (m out).prev
      let e ← asRef end_
      some (setNext m e null, ⟨l.start, end_, l.len - 1⟩, some out)
    else
      some (m, ⟨l.start, l.end_, l.len - 1⟩, some out)

/-- `LinkedList::push_front`. -/
def pushFront (m : NodeMem) (l : LinkedList) (val : Ptr) : Option (NodeMem × LinkedList × Ptr) :=
  if l.len = 0 then
    some (setNext (setPrev m val null) val null, ⟨val, val, l.len + 1⟩, val)
  else do
    let s ← asRef l.start
    let m := setPrev m s val
    let m := setNext m val l.start
    some (setPrev m val null, ⟨val, l.end_, l.len + 1⟩, val)

/-- `LinkedList::pop_front`. -/
def popFront (m : NodeMem) (l : LinkedList) : Option (NodeMem × LinkedList × Option Ptr) :=
  if l.len = 0 then some (m, l, none)
  else do
    let out ← asRef l.start
    if l.len > 1 then
      let start := (m out).next
      let s ← asRef start
      some (setPrev m s null, ⟨start, l.end_, l.len - 1⟩, some out)
    else
      some (m, ⟨l.start, l.end_, l.len - 1⟩, some out)

/-- `LinkedList::get_node` (and `get_node_mut`): walk from the nearer end. -/
def getNode (m : NodeMem) (l : LinkedList) (index : ℕ) : Option Ptr :=
  if index ≥ l.len then none
  else if index * 2 > l.len then do
    let node ← asRef l.end_
    chase null (flip m) (l.len - index - 1) node
  else do
    let node ← asRef l.start
    chase null m index node

/-- `LinkedList::get`. -/
def get (m : NodeMem) (l : LinkedList) (index : ℕ) : Option (Option Ptr) :=
  if index ≥ l.len then some none else (getNode m l index).map some

/-- `LinkedList::get_mut`, which walks with `get_node_mut`, the same code as `get_node`. -/
def getMut (m : NodeMem) (l : LinkedList) (index : ℕ) : Option (Option Ptr) :=
  if index ≥ l.len then some none else (getNode m l index).map some

/-- `LinkedList::insert_before`. -/
def insertBefore (m : NodeMem) (l : LinkedList) (newNode node : Ptr) :
    Option (NodeMem × LinkedList × Ptr) :=
  if l.len = 0 then none
  else
    let prev := (m node).prev
    let start := if prev = null then newNode else l.start
    let m := if prev = null then setPrev m newNode null
      else setNext (setPrev m newNode prev) prev newNode
    let m := setPrev m node newNode
    some (setNext m newNode node, ⟨start, l.end_, l.len + 1⟩, newNode)

/-- `LinkedList::insert_after`. -/
def insertAfter (m : NodeMem) (l : LinkedList) (newNode node : Ptr) :
    Option (NodeMem × LinkedList × Ptr) :=
  if l.len = 0 then none
  else
    let next := (m node).next
    let end_ := if next = null then newNode else l.end_
    let m := if next = null then setNext m newNode null
      else setPrev (setNext m newNode next) next newNode
    let m := setNext m node newNode
    some (setPrev m newNode node, ⟨l.start, end_, l.len + 1⟩, newNode)

/-- `LinkedList::remove_node`. -/
def removeNode (m : NodeMem) (l : LinkedList) (node : Ptr) : NodeMem × LinkedList × Ptr :=
  let prev := (m node).prev
  let next := (m node).next
  let start := if prev = null then next else l.start
  let m := if prev = null then m else setNext m prev next
  let end_ := if next = null then prev else l.end_
  let m := if next = null then m else setPrev m next prev
  (m, ⟨start, end_, l.len - 1⟩, node)

/-- `LinkedList::update_node`. -/
def updateNode (m : NodeMem) (l : LinkedList) (old new : Ptr) : NodeMem × LinkedList :=
  let prev := (m old).prev
  let start := if prev = null then new else l.start
  let m := if prev = null then setPrev m new null else setPrev (setNext m prev new) new prev
  let next := (m old).next
  let end_ := if next = null then new else l.end_
  let m := if next = null then setNext m new null else setNext (setPrev m next new) new next
  (m, ⟨start, end_, l.len⟩)

/-- `LinkedList::insert`; the value is dropped when the index is past the end. -/
def insert (m : NodeMem) (l : LinkedList) (index : ℕ) (val : Ptr) :
    Option (NodeMem × LinkedList × Option Ptr) :=
  if index > l.len then some (m, l, none)
  else if index = 0 then (pushFront m l val).map fun r => (r.1, r.2.1, some r.2.2)
  else if index = l.len then (push m l val).map fun r => (r.1, r.2.1, some r.2.2)
  else do
    let node ← getNode m l index
    (insertBefore m l val node).map fun r => (r.1, r.2.1, some r.2.2)

/-- `LinkedList::remove`. -/
def remove (m : NodeMem) (l : LinkedList) (index : ℕ) :
    Option (NodeMem × LinkedList × Option Ptr) :=
  if index ≥ l.len then some (m, l, none)
  else if index = 0 then popFront m l
  else if index = l.len - 1 then pop m l
  else do
    let node ← getNode m l index
    let r := removeNode m l node
    some (r.1, r.2.1, some r.2.2)

/-- `LinkedList::append`: `self`, then `other`. -/
def append (m : NodeMem) (self other : LinkedList) : Option (NodeMem × LinkedList × LinkedList) :=
  if other.len = 0 then some (m, self, other)
  else if self.len = 0 then some (m, ⟨other.start, other.end_, other.len⟩, ⟨null, null, 0⟩)
  else do
    let e ← asRef self.end_
    let m := setNext m e other.start
    let s ← asRef other.start
    let m := setPrev m s self.end_
    -- `len` is not written
    some (m, { self with end_ := other.end_ }, ⟨null, null, 0⟩)

/-! ### Representation -/

/-- The list value `l` represents the sequence `xs` of nodes. -/
structure Repr (m : NodeMem) (l : LinkedList) (xs : List Ptr) : Prop where
  len_eq : l.len = xs.length
  nodup : xs.Nodup
  not_null : null ∉ xs
  linked : Linked m null xs null
  start_eq : xs ≠ [] → l.start = first xs null
  end_eq : xs ≠ [] → l.end_ = last null xs

theorem repr_new (m : NodeMem) : Repr m new [] := by
  constructor <;> simp [new]

variable {m m' : NodeMem} {l : LinkedList} {xs : List Ptr}

/-- Frame rule: a list is not affected by writes outside its nodes. -/
theorem Repr.congr (h : Repr m l xs) (hm : ∀ x ∈ xs, m' x = m x) : Repr m' l xs :=
  { h with linked := h.linked.congr hm }

theorem Repr.eq_nil_of_len (h : Repr m l xs) (h0 : l.len = 0) : xs = [] :=
  List.eq_nil_of_length_eq_zero (h.len_eq ▸ h0)

theorem Repr.ne_nil_of_len (h : Repr m l xs) (h0 : l.len ≠ 0) : xs ≠ [] := by
  rintro rfl
  exact h0 h.len_eq

theorem Repr.ne_null (h : Repr m l xs) {x : Ptr} (hx : x ∈ xs) : x ≠ null := by
  rintro rfl
  exact h.not_null hx

/-- The outcome of an operation on a represented list: the new list value represents `ys`, and the
memory outside the nodes `touched` is unchanged. -/
structure Outcome (m m' : NodeMem) (l' : LinkedList) (ys touched : List Ptr) : Prop where
  repr : Repr m' l' ys
  frame : ∀ p, p ∉ touched → m' p = m p

theorem push_spec (h : Repr m l xs) {val : Ptr} (hval : val ≠ null) (hfresh : val ∉ xs) :
    ∃ m' l', push m l val = some (m', l', val) ∧ Outcome m m' l' (xs ++ [val]) (val :: xs) := by
  have hnd : (xs ++ [val]).Nodup := by simpa [List.nodup_append] using ⟨h.nodup, by grind⟩
  have hnn : null ∉ xs ++ [val] := by simpa [hval.symm] using h.not_null
  by_cases h0 : l.len = 0
  · obtain rfl := h.eq_nil_of_len h0
    refine ⟨_, _, by rw [push, if_pos h0],
      ⟨by simp [h0], hnd, hnn, by simp, by simp, by simp⟩, fun p hp => ?_⟩
    have hp : p ≠ val := by simpa using hp
    rw [setNext_of_ne _ _ _ hp, setPrev_of_ne _ _ _ hp]
  · have hne := h.ne_nil_of_len h0
    have hlast : last null xs ∈ xs := last_mem null hne
    have hl : Linked (setNext m (last null xs) val) null xs val := h.linked.setNext_last val h.nodup
    refine ⟨_, _, by rw [push, if_neg h0, h.end_eq hne, asRef_of_ne (h.ne_null hlast)]; rfl,
      ⟨by simp [h.len_eq], hnd, hnn, ?_, ?_, by simp⟩, fun p hp => ?_⟩
    · rw [linked_concat]
      exact ⟨(hl.setPrev _ hfresh).setNext _ hfresh, by simp, by simp⟩
    · intro _
      rw [h.start_eq hne]
      cases xs <;> simp_all
    · simp only [List.mem_cons, not_or] at hp
      rw [setNext_of_ne _ _ _ hp.1, setPrev_of_ne _ _ _ hp.1, setNext_of_ne]
      rintro rfl
      exact hp.2 hlast

theorem pushFront_spec (h : Repr m l xs) {val : Ptr} (hval : val ≠ null) (hfresh : val ∉ xs) :
    ∃ m' l', pushFront m l val = some (m', l', val) ∧ Outcome m m' l' (val :: xs) (val :: xs) := by
  have hnd : (val :: xs).Nodup := List.nodup_cons.2 ⟨hfresh, h.nodup⟩
  have hnn : null ∉ val :: xs := by simpa [hval.symm] using h.not_null
  by_cases h0 : l.len = 0
  · obtain rfl := h.eq_nil_of_len h0
    refine ⟨_, _, by rw [pushFront, if_pos h0],
      ⟨by simp [h0], hnd, hnn, by simp, by simp, by simp⟩, fun p hp => ?_⟩
    have hp : p ≠ val := by simpa using hp
    rw [setNext_of_ne _ _ _ hp, setPrev_of_ne _ _ _ hp]
  · have hne := h.ne_nil_of_len h0
    have hfirst : first xs null ∈ xs := by
      cases xs with
      | nil => exact absurd rfl hne
      | cons x xs => simp
    have hl : Linked (setPrev m (first xs null) val) val xs null :=
      h.linked.setPrev_first val h.nodup
    refine ⟨_, _, by rw [pushFront, if_neg h0, h.start_eq hne, asRef_of_ne (h.ne_null hfirst)]; rfl,
      ⟨by simp [h.len_eq], hnd, hnn, ?_, by simp, ?_⟩, fun p hp => ?_⟩
    · exact ⟨by simp, by simp, (hl.setNext _ hfresh).setPrev _ hfresh⟩
    · intro _
      rw [h.end_eq hne]
      cases xs <;> simp_all
    · simp only [List.mem_cons, not_or] at hp
      rw [setPrev_of_ne _ _ _ hp.1, setNext_of_ne _ _ _ hp.1, setPrev_of_ne]
      rintro rfl
      exact hp.2 hfirst

theorem pop_nil (h : Repr m l []) : pop m l = some (m, l, none) :=
  if_pos h.len_eq

theorem popFront_nil (h : Repr m l []) : popFront m l = some (m, l, none) :=
  if_pos h.len_eq

theorem pop_spec {e : Ptr} (h : Repr m l (xs ++ [e])) :
    ∃ m' l', pop m l = some (m', l', some e) ∧ Outcome m m' l' xs (xs ++ [e]) := by
  have hlen : l.len = xs.length + 1 := by simpa using h.len_eq
  have hend : l.end_ = e := by simpa using h.end_eq (by simp)
  obtain ⟨hlink, hprev, -⟩ := linked_concat.1 h.linked
  have hnd : xs.Nodup := (List.nodup_append.1 h.nodup).1
  have hnn : null ∉ xs := fun hmem => h.not_null (by simp [hmem])
  have he : asRef e = some e := asRef_of_ne (h.ne_null (by simp))
  by_cases h1 : l.len > 1
  · have hne : xs ≠ [] := by rintro rfl; simp at hlen; omega
    have hlast := last_mem null hne
    have hlast' : asRef (last null xs) = some (last null xs) :=
      asRef_of_ne (h.ne_null (List.mem_append_left _ hlast))
    refine ⟨setNext m (last null xs) null, ⟨l.start, last null xs, l.len - 1⟩, ?_,
      ⟨by simp [hlen], hnd, hnn, hlink.setNext_last null hnd, fun _ => ?_, fun _ => rfl⟩,
      fun p hp => setNext_of_ne _ _ _ ?_⟩
    · simp [pop, show l.len ≠ 0 by omega, hend, he, h1, hprev, hlast']
    · rw [h.start_eq (by simp)]
      cases xs <;> simp_all
    · rintro rfl
      exact hp (List.mem_append_left _ hlast)
  · obtain rfl : xs = [] := List.eq_nil_of_length_eq_zero (by omega)
    refine ⟨m, ⟨l.start, l.end_, l.len - 1⟩, ?_, ⟨by simp [hlen], hnd, hnn, trivial, by simp,
      by simp⟩, fun _ _ => rfl⟩
    simp [pop, hlen, hend, he]

theorem popFront_spec {x : Ptr} (h : Repr m l (x :: xs)) :
    ∃ m' l', popFront m l = some (m', l', some x) ∧ Outcome m m' l' xs (x :: xs) := by
  have hlen : l.len = xs.length + 1 := by simpa using h.len_eq
  have hstart : l.start = x := h.start_eq (by simp)
  obtain ⟨-, hnext, hlink⟩ := linked_cons.1 h.linked
  have hnd : xs.Nodup := (List.nodup_cons.1 h.nodup).2
  have hnn : null ∉ xs := fun hmem => h.not_null (by simp [hmem])
  have hx : asRef x = some x := asRef_of_ne (h.ne_null (by simp))
  cases xs with
  | nil =>
    refine ⟨m, ⟨l.start, l.end_, l.len - 1⟩, ?_, ⟨by simp [hlen], hnd, hnn, trivial, by simp,
      by simp⟩, fun _ _ => rfl⟩
    simp [popFront, hlen, hstart, hx]
  | cons y ys =>
    have hy : asRef y = some y := asRef_of_ne (h.ne_null (by simp))
    refine ⟨setPrev m y null, ⟨y, l.end_, l.len - 1⟩, ?_,
      ⟨by simp [hlen], hnd, hnn, hlink.setPrev_first null hnd, fun _ => rfl, fun _ => ?_⟩,
      fun p hp => setPrev_of_ne _ _ _ ?_⟩
    · simp [popFront, hlen, hstart, hx, hnext, hy]
    · simpa using h.end_eq (by simp)
    · rintro rfl
      simp at hp

/-! ### Index walks -/

theorem getNode_spec (h : Repr m l xs) {index : ℕ} (hi : index < xs.length) :
    getNode m l index = xs[index]? := by
  have hne : xs ≠ [] := by rintro rfl; simp at hi
  have hlast : last null xs ≠ null := h.ne_null (last_mem null hne)
  rw [getNode, if_neg (by rw [h.len_eq]; omega)]
  split_ifs
  · -- from the end: the same walk over the reversed chain
    have hrev := linked_reverse.2 h.linked
    rw [h.end_eq hne, asRef_of_ne hlast, Option.bind_eq_bind, Option.bind_some, ← first_reverse,
      hrev.chase (by simpa using h.not_null) (by simp [h.len_eq]; omega),
      List.getElem?_reverse (by rw [h.len_eq]; omega)]
    congr 1
    rw [h.len_eq]
    omega
  · have hfirst : first xs null ≠ null := by
      cases xs with
      | nil => exact absurd rfl hne
      | cons x xs => exact h.ne_null (by simp)
    rw [h.start_eq hne, asRef_of_ne hfirst, Option.bind_eq_bind, Option.bind_some,
      h.linked.chase h.not_null hi]

/-- The nodes of a list, one after the other. -/
def nodes (m : NodeMem) (l : LinkedList) : List Ptr :=
  (List.range l.len).filterMap (getNode m l)

theorem filterMap_range_getElem? (xs : List Ptr) :
    (List.range xs.length).filterMap (fun i => xs[i]?) = xs := by
  induction xs with
  | nil => rfl
  | cons x xs ih =>
    rw [List.length_cons, List.range_succ_eq_map, List.filterMap_cons_some (b := x) (by rfl),
      List.filterMap_map]
    exact congrArg (x :: ·) ih

theorem Repr.nodes_eq (h : Repr m l xs) : nodes m l = xs := by
  rw [nodes, h.len_eq]
  conv_rhs => rw [← filterMap_range_getElem? xs]
  refine List.filterMap_congr fun i hi => ?_
  rw [List.mem_range] at hi
  rw [getNode_spec h hi, List.getElem?_eq_getElem hi]

theorem get_spec (h : Repr m l xs) (index : ℕ) : get m l index = some xs[index]? := by
  unfold get
  split_ifs with hi
  · rw [List.getElem?_eq_none (h.len_eq ▸ hi)]
  · have hi : index < xs.length := by rw [← h.len_eq]; omega
    rw [getNode_spec h hi, List.getElem?_eq_getElem hi]
    rfl

/-! ### Operations at a node -/

variable {as bs : List Ptr} {node : Ptr}

theorem last_eq_null_iff (h : null ∉ as) : last null as = null ↔ as = [] := by
  refine ⟨fun he => ?_, by rintro rfl; rfl⟩
  by_contra hne
  exact h (he ▸ last_mem null hne)

theorem first_eq_null_iff (h : null ∉ bs) : first bs null = null ↔ bs = [] := by
  cases bs with
  | nil => simp
  | cons b bs =>
    simp only [first_cons, reduceCtorEq, iff_false]
    rintro rfl
    simp at h

/-- What a representation says about the node at a cut of the sequence. -/
theorem Repr.cut (h : Repr m l (as ++ node :: bs)) :
    (m node).prev = last null as ∧ (m node).next = first bs null ∧
      Linked m null as node ∧ Linked m node bs null ∧ as.Nodup ∧ bs.Nodup ∧
      node ∉ as ∧ node ∉ bs ∧ (∀ x ∈ as, x ∉ bs) ∧ null ∉ as ∧ null ∉ bs := by
  have hl := linked_append.1 h.linked
  have hnd := h.nodup
  have hnn := h.not_null
  rw [List.nodup_append, List.nodup_cons] at hnd
  simp only [List.mem_append, List.mem_cons, not_or] at hnn
  refine ⟨hl.2.1, hl.2.2.1, hl.1, hl.2.2.2, hnd.1, hnd.2.1.2, ?_, hnd.2.1.1, ?_, hnn.1, hnn.2.2⟩
  · exact fun hmem => hnd.2.2 node hmem node (by simp) rfl
  · exact fun x hx hx' => hnd.2.2 x hx x (by simp [hx']) rfl

/-- A sequence whose two halves around `mid` are chained to it is represented. -/
theorem Repr.relink {l' : LinkedList} {mid : List Ptr} (h : Repr m l (as ++ node :: bs))
    (hmid : (as ++ mid ++ bs).Nodup) (hnull : null ∉ mid)
    (hla : Linked m' null as (first mid (first bs null)))
    (hlm : Linked m' (last null as) mid (first bs null))
    (hlb : Linked m' (last (last null as) mid) bs null)
    (hlen : l'.len + 1 = l.len + mid.length)
    (hstart : l'.start = if as = [] then first mid (first bs null) else l.start)
    (hend : l'.end_ = if bs = [] then last (last null as) mid else l.end_) :
    Repr m' l' (as ++ mid ++ bs) := by
  have hnn := h.not_null
  simp only [List.mem_append, List.mem_cons, not_or] at hnn
  refine ⟨?_, hmid, by simp [hnn, hnull], ?_, fun _ => ?_, fun _ => ?_⟩
  · have := h.len_eq
    simp only [List.length_append, List.length_cons] at this ⊢
    omega
  · exact linked_append.2 ⟨linked_append.2 ⟨hla, hlm⟩, by simpa using hlb⟩
  · rw [hstart, h.start_eq (by simp)]
    cases as <;> simp
  · rw [hend, h.end_eq (by simp)]
    cases bs <;> simp

/-- Redirect the exit of a chain that starts at the null pointer, if it is not empty. -/
def redirectLast (m : NodeMem) (as : List Ptr) (v : Ptr) : NodeMem :=
  if last null as = null then m else setNext m (last null as) v

/-- Redirect the entry of a chain that ends at the null pointer, if it is not empty. -/
def redirectFirst (m : NodeMem) (bs : List Ptr) (v : Ptr) : NodeMem :=
  if first bs null = null then m else setPrev m (first bs null) v

theorem linked_redirectLast {n : Ptr} (v : Ptr) (h : Linked m null as n) (hnd : as.Nodup)
    (hnn : null ∉ as) : Linked (redirectLast m as v) null as v := by
  unfold redirectLast
  split_ifs with h0
  · rw [(last_eq_null_iff hnn).1 h0]
    trivial
  · exact h.setNext_last v hnd

theorem linked_redirectFirst {p : Ptr} (v : Ptr) (h : Linked m p bs null) (hnd : bs.Nodup)
    (hnn : null ∉ bs) : Linked (redirectFirst m bs v) v bs null := by
  unfold redirectFirst
  split_ifs with h0
  · rw [(first_eq_null_iff hnn).1 h0]
    trivial
  · exact h.setPrev_first v hnd

theorem redirectLast_of_notMem {p : Ptr} (v : Ptr) (hp : p ∉ as) : redirectLast m as v p = m p := by
  unfold redirectLast
  split_ifs with h0
  · rfl
  · refine setNext_of_ne _ _ _ ?_
    rintro rfl
    exact hp (last_mem null (by rintro rfl; exact h0 rfl))

theorem redirectFirst_of_notMem {p : Ptr} (v : Ptr) (hp : p ∉ bs) :
    redirectFirst m bs v p = m p := by
  unfold redirectFirst
  split_ifs with h0
  · rfl
  · refine setPrev_of_ne _ _ _ ?_
    rintro rfl
    cases bs with
    | nil => exact h0 rfl
    | cons b bs => exact hp (by simp)

theorem removeNode_spec (h : Repr m l (as ++ node :: bs)) :
    ∃ m' l', removeNode m l node = (m', l', node) ∧
      Outcome m m' l' (as ++ bs) (as ++ node :: bs) := by
  obtain ⟨hprev, hnext, hla, hlb, hnda, hndb, hna, hnb, hdisj, hnna, hnnb⟩ := h.cut
  set m₁ := redirectLast m as (first bs null) with hm₁
  have hla₁ : Linked m₁ null as (first bs null) := linked_redirectLast _ hla hnda hnna
  have hlb₁ : Linked m₁ node bs null :=
    hlb.congr fun x hx => redirectLast_of_notMem _ fun hx' => hdisj x hx' hx
  refine ⟨redirectFirst m₁ bs (last null as),
    ⟨if last null as = null then first bs null else l.start,
      if first bs null = null then last null as else l.end_, l.len - 1⟩, ?_, ?_, fun p hp => ?_⟩
  · simp [removeNode, hprev, hnext, hm₁, redirectLast, redirectFirst]
  · have hnd : (as ++ [] ++ bs).Nodup := by
      simpa using List.nodup_append.2 ⟨hnda, hndb, by grind⟩
    have hlen : l.len ≠ 0 := by rw [h.len_eq]; simp
    simpa using h.relink hnd (by simp)
      (hla₁.congr fun x hx => redirectFirst_of_notMem _ (hdisj x hx)) trivial
      (linked_redirectFirst _ hlb₁ hndb hnnb)
      (show l.len - 1 + 1 = l.len + 0 by omega) (by simp [last_eq_null_iff hnna])
      (by simp [first_eq_null_iff hnnb])
  · simp only [List.mem_append, List.mem_cons, not_or] at hp
    rw [redirectFirst_of_notMem _ hp.2.2, hm₁, redirectLast_of_notMem _ hp.1]

theorem insertBefore_spec (h : Repr m l (as ++ node :: bs)) {v : Ptr} (hv : v ≠ null)
    (hfresh : v ∉ as ++ node :: bs) :
    ∃ m' l', insertBefore m l v node = some (m', l', v) ∧
      Outcome m m' l' (as ++ v :: node :: bs) (v :: (as ++ node :: bs)) := by
  obtain ⟨hprev, hnext, hla, hlb, hnda, hndb, hna, hnb, hdisj, hnna, hnnb⟩ := h.cut
  simp only [List.mem_append, List.mem_cons, not_or] at hfresh
  obtain ⟨hva, hvn, hvb⟩ := hfresh
  have hlen : l.len ≠ 0 := by rw [h.len_eq]; simp
  set m₁ := redirectLast (setPrev m v (last null as)) as v with hm₁
  have hla₁ : Linked m₁ null as v := linked_redirectLast _ (hla.setPrev _ hva) hnda hnna
  have hm₁v : (m₁ v).prev = last null as := by simp [hm₁, redirectLast_of_notMem _ hva]
  have hm₁n : (m₁ node).next = first bs null := by
    simp [hm₁, redirectLast_of_notMem _ hna, hnext]
  have hstart : (if last null as = null then v else l.start) = if as = [] then v else l.start := by
    simp [last_eq_null_iff hnna]
  have hend : l.end_ = if bs = [] then node else l.end_ := by
    split_ifs with hb
    · simpa [hb] using h.end_eq (by simp)
    · rfl
  refine ⟨setNext (setPrev m₁ node v) v node,
    ⟨if last null as = null then v else l.start, l.end_, l.len + 1⟩, ?_, ?_, fun p hp => ?_⟩
  · simp only [insertBefore, hprev, if_neg hlen, hm₁, redirectLast]
    split_ifs with h0 <;> simp [h0]
  · have hnd : (as ++ [v, node] ++ bs).Nodup := by
      simp [List.nodup_append, hnda, hndb, hvn, hvb, hnb]
      grind
    suffices hr : Repr (setNext (setPrev m₁ node v) v node)
        ⟨if last null as = null then v else l.start, l.end_, l.len + 1⟩ (as ++ [v, node] ++ bs) by
      simpa using hr
    exact h.relink hnd
      (by simpa using ⟨hv.symm, (h.ne_null (x := node) (by simp)).symm⟩)
      ((hla₁.setPrev v hna).setNext node hva)
      ⟨by simp [setPrev_of_ne _ _ _ hvn, hm₁v], by simp,
        by simp, by simp [setNext_of_ne _ _ _ (Ne.symm hvn), hm₁n], trivial⟩
      (hlb.congr fun x hx => by
        rw [setNext_of_ne _ _ _ (by rintro rfl; exact hvb hx),
          setPrev_of_ne _ _ _ (by rintro rfl; exact hnb hx), hm₁,
          redirectLast_of_notMem _ fun hx' => hdisj x hx' hx,
          setPrev_of_ne _ _ _ (by rintro rfl; exact hvb hx)])
      (show l.len + 1 + 1 = l.len + 2 by omega) hstart hend
  · simp only [List.mem_append, List.mem_cons, not_or] at hp
    rw [setNext_of_ne _ _ _ hp.1, setPrev_of_ne _ _ _ hp.2.2.1, hm₁,
      redirectLast_of_notMem _ hp.2.1, setPrev_of_ne _ _ _ hp.1]

theorem insertAfter_spec (h : Repr m l (as ++ node :: bs)) {v : Ptr} (hv : v ≠ null)
    (hfresh : v ∉ as ++ node :: bs) :
    ∃ m' l', insertAfter m l v node = some (m', l', v) ∧
      Outcome m m' l' (as ++ node :: v :: bs) (v :: (as ++ node :: bs)) := by
  obtain ⟨hprev, hnext, hla, hlb, hnda, hndb, hna, hnb, hdisj, hnna, hnnb⟩ := h.cut
  simp only [List.mem_append, List.mem_cons, not_or] at hfresh
  obtain ⟨hva, hvn, hvb⟩ := hfresh
  have hlen : l.len ≠ 0 := by rw [h.len_eq]; simp
  set m₁ := redirectFirst (setNext m v (first bs null)) bs v with hm₁
  have hlb₁ : Linked m₁ v bs null := linked_redirectFirst _ (hlb.setNext _ hvb) hndb hnnb
  have hm₁v : (m₁ v).next = first bs null := by simp [hm₁, redirectFirst_of_notMem _ hvb]
  have hm₁n : (m₁ node).prev = last null as := by
    simp [hm₁, redirectFirst_of_notMem _ hnb, hprev]
  have hstart : l.start = if as = [] then node else l.start := by
    split_ifs with ha
    · simpa [ha] using h.start_eq (by simp)
    · rfl
  have hend : (if first bs null = null then v else l.end_) = if bs = [] then v else l.end_ := by
    simp [first_eq_null_iff hnnb]
  refine ⟨setPrev (setNext m₁ node v) v node,
    ⟨l.start, if first bs null = null then v else l.end_, l.len + 1⟩, ?_, ?_, fun p hp => ?_⟩
  · simp only [insertAfter, hnext, if_neg hlen, hm₁, redirectFirst]
    split_ifs with h0 <;> simp [h0]
  · have hnd : (as ++ [node, v] ++ bs).Nodup := by
      simp [List.nodup_append, hnda, hndb, Ne.symm hvn, hvb, hnb]
      grind
    suffices hr : Repr (setPrev (setNext m₁ node v) v node)
        ⟨l.start, if first bs null = null then v else l.end_, l.len + 1⟩ (as ++ [node, v] ++ bs) by
      simpa using hr
    exact h.relink hnd
      (by simpa using ⟨(h.ne_null (x := node) (by simp)).symm, hv.symm⟩)
      (hla.congr fun x hx => by
        rw [setPrev_of_ne _ _ _ (by rintro rfl; exact hva hx),
          setNext_of_ne _ _ _ (by rintro rfl; exact hna hx), hm₁,
          redirectFirst_of_notMem _ (hdisj x hx),
          setNext_of_ne _ _ _ (by rintro rfl; exact hva hx)])
      ⟨by simp [setPrev_of_ne _ _ _ (Ne.symm hvn), hm₁n], by simp,
        by simp, by simp [setNext_of_ne _ _ _ hvn, hm₁v], trivial⟩
      ((hlb₁.setNext v hnb).setPrev node hvb)
      (show l.len + 1 + 1 = l.len + 2 by omega) hstart hend
  · simp only [List.mem_append, List.mem_cons, not_or] at hp
    rw [setPrev_of_ne _ _ _ hp.1, setNext_of_ne _ _ _ hp.2.2.1, hm₁,
      redirectFirst_of_notMem _ hp.2.2.2, setNext_of_ne _ _ _ hp.1]

theorem updateNode_spec (h : Repr m l (as ++ node :: bs)) {v : Ptr} (hv : v ≠ null)
    (hfresh : v ∉ as ++ node :: bs) :
    ∃ m' l', updateNode m l node v = (m', l') ∧
      Outcome m m' l' (as ++ v :: bs) (v :: (as ++ node :: bs)) := by
  obtain ⟨hprev, hnext, hla, hlb, hnda, hndb, hna, hnb, hdisj, hnna, hnnb⟩ := h.cut
  simp only [List.mem_append, List.mem_cons, not_or] at hfresh
  obtain ⟨hva, hvn, hvb⟩ := hfresh
  set m₁ := setPrev (redirectLast m as v) v (last null as) with hm₁
  have hla₁ : Linked m₁ null as v := (linked_redirectLast _ hla hnda hnna).setPrev _ hva
  have hm₁n : (m₁ node).next = first bs null := by
    rw [hm₁, setPrev_of_ne _ _ _ (Ne.symm hvn), redirectLast_of_notMem _ hna, hnext]
  have hlb₁ : Linked m₁ node bs null := hlb.congr fun x hx => by
    rw [hm₁, setPrev_of_ne _ _ _ (by rintro rfl; exact hvb hx),
      redirectLast_of_notMem _ fun hx' => hdisj x hx' hx]
  refine ⟨setNext (redirectFirst m₁ bs v) v (first bs null),
    ⟨if last null as = null then v else l.start,
      if first bs null = null then v else l.end_, l.len⟩, ?_, ?_, fun p hp => ?_⟩
  · have h₁ : (if last null as = null then setPrev m v null
        else setPrev (setNext m (last null as) v) v (last null as)) = m₁ := by
      rw [hm₁, redirectLast]
      split_ifs with h0 <;> simp [h0]
    simp only [updateNode, hprev, h₁, hm₁n, redirectFirst]
    split_ifs with h0 <;> simp [h0]
  · have hnd : (as ++ [v] ++ bs).Nodup := by
      simp [List.nodup_append, hnda, hndb, hvb]
      grind
    suffices hr : Repr (setNext (redirectFirst m₁ bs v) v (first bs null))
        ⟨if last null as = null then v else l.start,
          if first bs null = null then v else l.end_, l.len⟩ (as ++ [v] ++ bs) by
      simpa using hr
    exact h.relink hnd (by simpa using hv.symm)
      ((hla₁.congr fun x hx => redirectFirst_of_notMem _ (hdisj x hx)).setNext _ hva)
      ⟨by simp [redirectFirst_of_notMem _ hvb, hm₁], by simp, trivial⟩
      ((linked_redirectFirst _ hlb₁ hndb hnnb).setNext _ hvb)
      rfl (by simp [last_eq_null_iff hnna]) (by simp [first_eq_null_iff hnnb])
  · simp only [List.mem_append, List.mem_cons, not_or] at hp
    rw [setNext_of_ne _ _ _ hp.1, redirectFirst_of_notMem _ hp.2.2.2, hm₁,
      setPrev_of_ne _ _ _ hp.1, redirectLast_of_notMem _ hp.2.1]

/-! ### Operations at an index -/

theorem insertIdx_length (as bs : List Ptr) (v : Ptr) :
    (as ++ bs).insertIdx as.length v = as ++ v :: bs := by
  induction as with
  | nil => simp
  | cons a as ih => simp [ih]

theorem insert_spec (h : Repr m l xs) {val : Ptr} (hval : val ≠ null) (hfresh : val ∉ xs)
    {index : ℕ} (hi : index ≤ xs.length) :
    ∃ m' l', insert m l index val = some (m', l', some val) ∧
      Outcome m m' l' (xs.insertIdx index val) (val :: xs) := by
  rw [insert, if_neg (by rw [h.len_eq]; omega)]
  split_ifs with h0 hend
  · subst h0
    obtain ⟨m', l', he, ho⟩ := pushFront_spec h hval hfresh
    exact ⟨m', l', by simp [he], by simpa using ho⟩
  · obtain ⟨m', l', he, ho⟩ := push_spec h hval hfresh
    refine ⟨m', l', by simp [he], ?_⟩
    rw [hend, h.len_eq, List.insertIdx_length_self]
    exact ho
  · have hlt : index < xs.length := by rw [← h.len_eq] at hi ⊢; omega
    obtain ⟨as, node, bs, rfl, rfl⟩ : ∃ as node bs, xs = as ++ node :: bs ∧ as.length = index :=
      ⟨xs.take index, xs[index], xs.drop (index + 1), by simp, by simp; omega⟩
    obtain ⟨m', l', he, ho⟩ := insertBefore_spec h hval hfresh
    refine ⟨m', l', ?_, ?_⟩
    · rw [getNode_spec h hlt]
      simp [he]
    · rwa [insertIdx_length]

theorem insert_past_end (h : Repr m l xs) (val : Ptr) {index : ℕ} (hi : xs.length < index) :
    insert m l index val = some (m, l, none) := by
  rw [insert, if_pos (by rw [h.len_eq]; omega)]

theorem remove_spec (h : Repr m l xs) {index : ℕ} (hi : index < xs.length) :
    ∃ m' l', remove m l index = some (m', l', some xs[index]) ∧
      Outcome m m' l' (xs.eraseIdx index) xs := by
  obtain ⟨as, node, bs, rfl, rfl⟩ : ∃ as node bs, xs = as ++ node :: bs ∧ as.length = index :=
    ⟨xs.take index, xs[index], xs.drop (index + 1), by simp, by simp; omega⟩
  have herase : (as ++ node :: bs).eraseIdx as.length = as ++ bs := by
    simp [List.eraseIdx_append_of_length_le]
  have hget : (as ++ node :: bs)[as.length] = node := by simp
  have hlen := h.len_eq
  simp only [List.length_append, List.length_cons] at hlen
  rw [remove, if_neg (by omega), herase, hget]
  split_ifs with h0 hend
  · obtain rfl : as = [] := List.eq_nil_of_length_eq_zero h0
    exact popFront_spec h
  · obtain rfl : bs = [] := List.eq_nil_of_length_eq_zero (by omega)
    rw [List.append_nil]
    exact pop_spec h
  · obtain ⟨m', l', he, ho⟩ := removeNode_spec h
    refine ⟨m', l', ?_, ho⟩
    rw [getNode_spec h (by simp)]
    simp [he]

theorem remove_past_end (h : Repr m l xs) {index : ℕ} (hi : xs.length ≤ index) :
    remove m l index = some (m, l, none) := by
  rw [remove, if_pos (by rw [h.len_eq]; omega)]

/-! ### What the memory shows -/

/-- What can be read off a list value and the memory of its nodes. -/
structure Represents (m : NodeMem) (l : LinkedList) (xs : List Ptr) : Prop where
  len : l.len = xs.length
  /-- following `next` from `start` for `len` steps -/
  forward : follow m l.len l.start = xs
  /-- following `prev` from `end` for `len` steps -/
  backward : follow (flip m) l.len l.end_ = xs.reverse
  first_prev : 0 < l.len → (m l.start).prev = null
  last_next : 0 < l.len → (m l.end_).next = null
  get : ∀ i, get m l i = some xs[i]?
  getMut : ∀ i, getMut m l i = some xs[i]?

theorem Repr.represents (h : Repr m l xs) :
    Represents m l xs := by
  refine ⟨h.len_eq, ?_, ?_, fun h0 => ?_, fun h0 => ?_, get_spec h, get_spec h⟩
  · rcases eq_or_ne xs [] with rfl | hne
    · rw [h.len_eq]
      rfl
    · rw [h.len_eq, h.start_eq hne]
      exact h.linked.follow
  · rcases eq_or_ne xs [] with rfl | hne
    · rw [h.len_eq]
      rfl
    · rw [h.len_eq, h.end_eq hne, ← first_reverse, ← List.length_reverse]
      exact (linked_reverse.2 h.linked).follow
  · have hne := h.ne_nil_of_len h0.ne'
    obtain ⟨x, xs, rfl⟩ := List.exists_cons_of_ne_nil hne
    rw [h.start_eq hne]
    exact h.linked.1
  · have hne := h.ne_nil_of_len h0.ne'
    obtain ⟨ys, e, rfl⟩ := (List.eq_nil_or_concat' xs).resolve_left hne
    rw [h.end_eq hne]
    simpa using (linked_concat.1 h.linked).2.2

end LinkedList
end AuroraOs
