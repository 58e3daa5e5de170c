import AuroraOs.Util
import AuroraOs.Lib.Machine
import AuroraOs.Lib.SortedMap
import AuroraOs.Lib.BinarySearch

/-!
# The map on a vec of nodes: `NLVecMap`

The map of one thread: a vector of pointers to nodes on the heap, in the order of their keys.  Each
call is one `write` of the vec, and a `write` that no other thread disturbs does to the vector what
its closure does to the clone.  `none` is the use of a node that is not on the heap.

An insertion is given the address that the heap hands out for its node.  A `World` has the finite map
that the calls should make beside the memory.
-/

namespace AuroraOs.NLVecMap

variable {K V : Type} [LinearOrder K]

structure MapNode (K V : Type) where
  key : K
  value : V

/-- The vector of the map, and the nodes on the heap. -/
structure Mem (K V : Type) where
  vec : List Ptr
  heap : Ptr → Option (MapNode K V)

/-- `to_heap`, with the address it returns. -/
def Mem.toHeap (m : Mem K V) (node : MapNode K V) (addr : Ptr) : Mem K V :=
  { m with heap := Function.update m.heap addr (some node) }

/-- `from_heap`: the node, which is freed. -/
def Mem.fromHeap (m : Mem K V) (ptr : Ptr) : Option (MapNode K V × Mem K V) :=
  (m.heap ptr).map fun node => (node, { m with heap := Function.update m.heap ptr none })

/-- `search`: `ok` is the index of the key, and `error` where it should go. -/
def Mem.search (m : Mem K V) (key : K) : Option (Except ℕ ℕ) :=
  BinarySearch.search (fun ptr => (m.heap ptr).map fun node => compare node.key key) m.vec

def Mem.len (m : Mem K V) : ℕ := m.vec.length

def Mem.get (m : Mem K V) (key : K) : Option (Option V) := do
  match ← m.search key with
  | .ok index =>
      let ptr ← m.vec[index]?
      let node ← m.heap ptr
      return some node.value
  | .error _ => return none

def Mem.insert (m : Mem K V) (key : K) (value : V) (node : Ptr) : Option (Option V × Mem K V) := do
  let m := m.toHeap ⟨key, value⟩ node
  match ← m.search key with
  | .ok index =>
      let out ← m.vec[index]?
      let (old, m') ← Mem.fromHeap { m with vec := (m.vec.eraseIdx index).insertIdx index node } out
      return (some old.value, m')
  | .error index => return (none, { m with vec := m.vec.insertIdx index node })

/-- `remove`: the closure returns the pointer, and leaves the clone as it is. -/
def Mem.remove (m : Mem K V) (key : K) : Option (Option V × Mem K V) := do
  match ← m.search key with
  | .ok index =>
      let ptr ← m.vec[index]?
      let (node, m') ← m.fromHeap ptr
      return (some node.value, m')
  | .error _ => return (none, m)

/-! ### Sequences of calls -/

inductive Op (K V : Type)
  | get (key : K)
  | insert (key : K) (value : V) (node : Ptr)
  | remove (key : K)

def Op.key : Op K V → K
  | .get key => key
  | .insert key _ _ => key
  | .remove key => key

/-- What a call should make of the map. -/
def Op.apply (map : SortedMap K V) : Op K V → SortedMap K V
  | .get _ => map
  | .insert key value _ => map.insert key value
  | .remove key => map.erase key

/-- A call: what it returns, and the memory after it. -/
def Mem.call (m : Mem K V) : Op K V → Option (Option V × Mem K V)
  | .get key => (m.get key).map fun out => (out, m)
  | .insert key value node => m.insert key value node
  | .remove key => m.remove key

/-- The memory, and the map that the calls so far should have made. -/
structure World (K V : Type) [LinearOrder K] where
  mem : Mem K V
  map : SortedMap K V

/-- `NLVecMap::new`, with other nodes on the heap already. -/
def World.boot (heap : Ptr → Option (MapNode K V)) : World K V := ⟨⟨[], heap⟩, SortedMap.empty⟩

def step (w : World K V) (op : Op K V) : Option (World K V) :=
  (w.mem.call op).map fun r => ⟨r.2, op.apply w.map⟩

/-- The heap hands out an address that is not in use. -/
def Fresh (w : World K V) : Op K V → Prop
  | .insert _ _ node => w.mem.heap node = none
  | _ => True

/-- The memory reads as the map: as many elements, the keys in strict order, and `get` answers as the
map does for every key. -/
structure Agrees (m : Mem K V) (map : SortedMap K V) : Prop where
  len : m.len = map.entries.length
  sorted : ∃ nodes : List (MapNode K V), m.vec.map m.heap = nodes.map some ∧
    nodes.Pairwise fun a b => a.key < b.key
  get : ∀ key, m.get key = some (map.get? key)

/-- A call uses no freed node, returns the value that the map had at its key, and leaves the memory to
read as the map after it. -/
def Behaves (w : World K V) (op : Op K V) : Prop :=
  ∃ out m', w.mem.call op = some (out, m') ∧ out = w.map.get? op.key ∧ Agrees m' (op.apply w.map)

/-- No key that the map has is removed. -/
def Absent (w : World K V) : Op K V → Prop
  | .remove key => w.map.get? key = none
  | _ => True

/-! ### Lists cut at an index -/

section Lists

variable {α : Type} {l : List α} {i i' : ℕ} {p : α → Bool}

theorem insertIdx_eq (a : α) (hi : i ≤ l.length) : l.insertIdx i a = l.take i ++ a :: l.drop i := by
  induction l generalizing i with
  | nil =>
    obtain rfl : i = 0 := Nat.le_zero.1 hi
    rfl
  | cons b l ih =>
    cases i with
    | zero => rfl
    | succ i =>
      rw [List.insertIdx_succ_cons, ih (Nat.le_of_succ_le_succ hi)]
      rfl

theorem replaceIdx_eq (a : α) (hi : i < l.length) :
    (l.eraseIdx i).insertIdx i a = l.take i ++ a :: l.drop (i + 1) := by
  have hlen : (l.take i).length = i := by
    rw [List.length_take]
    omega
  rw [insertIdx_eq a (by rw [List.length_eraseIdx_of_lt hi]; omega), List.eraseIdx_eq_take_drop_succ,
    List.take_append_of_le_length hlen.ge, List.drop_append_of_le_length hlen.ge,
    List.take_of_length_le hlen.le, List.drop_of_length_le hlen.le, List.nil_append]

theorem filter_eq_take (hbelow : ∀ j x, j < i → l[j]? = some x → p x = true)
    (habove : ∀ j x, i ≤ j → l[j]? = some x → p x = false) : l.filter p = l.take i := by
  have htake : (l.take i).filter p = l.take i := by
    refine List.filter_eq_self.2 fun x hx => ?_
    obtain ⟨j, hj⟩ := List.mem_iff_getElem?.1 hx
    rw [List.getElem?_take] at hj
    split_ifs at hj with hji
    exact hbelow j x hji hj
  have hdrop : (l.drop i).filter p = [] := by
    refine List.filter_eq_nil_iff.2 fun x hx => ?_
    obtain ⟨j, hj⟩ := List.mem_iff_getElem?.1 hx
    rw [List.getElem?_drop] at hj
    simp [habove (i + j) x (Nat.le_add_right _ _) hj]
  conv_lhs => rw [← List.take_append_drop i l, List.filter_append, htake, hdrop, List.append_nil]

theorem filter_eq_drop (hbelow : ∀ j x, j < i → l[j]? = some x → p x = false)
    (habove : ∀ j x, i ≤ j → l[j]? = some x → p x = true) : l.filter p = l.drop i := by
  have htake : (l.take i).filter p = [] := by
    refine List.filter_eq_nil_iff.2 fun x hx => ?_
    obtain ⟨j, hj⟩ := List.mem_iff_getElem?.1 hx
    rw [List.getElem?_take] at hj
    split_ifs at hj with hji
    simp [hbelow j x hji hj]
  have hdrop : (l.drop i).filter p = l.drop i := by
    refine List.filter_eq_self.2 fun x hx => ?_
    obtain ⟨j, hj⟩ := List.mem_iff_getElem?.1 hx
    rw [List.getElem?_drop] at hj
    exact habove (i + j) x (Nat.le_add_right _ _) hj
  conv_lhs => rw [← List.take_append_drop i l, List.filter_append, htake, hdrop, List.nil_append]

end Lists

/-! ### The memory as a map -/

/-- The node of an entry. -/
def nodeOf (e : K × V) : Option (MapNode K V) := some ⟨e.1, e.2⟩

/-- The vector has one node for each entry of the map, in the same order. -/
structure Represents (m : Mem K V) (map : SortedMap K V) : Prop where
  cells : m.vec.map m.heap = map.entries.map nodeOf
  nodup : m.vec.Nodup

variable {m : Mem K V} {map : SortedMap K V} {key : K}

theorem Represents.length_eq (h : Represents m map) : m.vec.length = map.entries.length := by
  simpa using congrArg List.length h.cells

theorem Represents.search_spec (h : Represents m map) (key : K) :
    ∃ r, m.search key = some r ∧ BinarySearch.Answers map.keys key r := by
  refine BinarySearch.search_spec ?_ map.keys_pairwise
  have hmap := congrArg (List.map (Option.map fun node => compare node.key key)) h.cells
  simpa [SortedMap.keys, nodeOf, Function.comp_def] using hmap

/-- The node at the index of a key. -/
theorem Represents.at_key (h : Represents m map) {i : ℕ} (hi : map.keys[i]? = some key) :
    ∃ ptr value, m.vec[i]? = some ptr ∧ m.heap ptr = some ⟨key, value⟩ ∧ map.get? key = some value := by
  rw [SortedMap.keys, List.getElem?_map] at hi
  obtain ⟨⟨k, value⟩, he, rfl⟩ := Option.map_eq_some_iff.1 hi
  have hcell := congrArg (·[i]?) h.cells
  simp only [List.getElem?_map, he, Option.map_some] at hcell
  obtain ⟨ptr, hptr, hheap⟩ := Option.map_eq_some_iff.1 hcell
  exact ⟨ptr, value, hptr, hheap, SortedMap.get?_eq_some.2 (List.mem_of_getElem? he)⟩

theorem Represents.get_eq (h : Represents m map) (key : K) : m.get key = some (map.get? key) := by
  obtain ⟨r, hr, hanswers⟩ := h.search_spec key
  cases r with
  | ok i =>
    obtain ⟨ptr, value, hptr, hheap, hget⟩ := h.at_key hanswers
    simp [Mem.get, hr, hptr, hheap, hget]
  | error i => simp [Mem.get, hr, SortedMap.get?_eq_none.2 hanswers.not_mem]

theorem Represents.agrees (h : Represents m map) : Agrees m map where
  len := h.length_eq
  sorted := ⟨map.entries.map fun e => ⟨e.1, e.2⟩, by
    rw [h.cells, List.map_map]
    rfl, List.pairwise_map.2 map.sorted⟩
  get := h.get_eq

/-- Every pointer of the vector leads to a node. -/
theorem Represents.live (h : Represents m map) {ptr : Ptr} (hptr : ptr ∈ m.vec) : m.heap ptr ≠ none := by
  intro hnone
  have hmem : none ∈ map.entries.map nodeOf := h.cells ▸ hnone ▸ List.mem_map_of_mem hptr
  obtain ⟨e, -, he⟩ := List.mem_map.1 hmem
  cases he

/-- The entries of a map between which a key belongs: those before `i` are below it, those from `i'` on
above it, and between them is at most its own. -/
structure Cut (map : SortedMap K V) (key : K) (i i' : ℕ) : Prop where
  le : i ≤ i'
  below : ∀ j e, j < i → map.entries[j]? = some e → e.1 < key
  middle : ∀ j e, i ≤ j → j < i' → map.entries[j]? = some e → e.1 = key
  above : ∀ j e, i' ≤ j → map.entries[j]? = some e → key < e.1

theorem Cut.insert_entries {i i' : ℕ} (h : Cut map key i i') (value : V) :
    (map.insert key value).entries =
      map.entries.take i ++ (key, value) :: map.entries.drop i' := by
  have hbelow : (map.entries.filter fun e => decide (e.1 < key)) = map.entries.take i := by
    refine filter_eq_take (fun j e hj he => decide_eq_true (h.below j e hj he)) fun j e hj he => ?_
    rcases Nat.lt_or_ge j i' with hji | hij
    · exact decide_eq_false (h.middle j e hj hji he).not_lt
    · exact decide_eq_false (h.above j e hij he).not_gt
  have habove : (map.entries.filter fun e => decide (key < e.1)) = map.entries.drop i' := by
    refine filter_eq_drop (fun j e hj he => ?_) fun j e hj he => decide_eq_true (h.above j e hj he)
    rcases Nat.lt_or_ge j i with hji | hij
    · exact decide_eq_false (h.below j e hji he).not_gt
    · exact decide_eq_false (h.middle j e hij hj he).not_gt
  show map.entries.filter _ ++ (key, value) :: map.entries.filter _ = _
  rw [hbelow, habove]

/-- A key that was found cuts the entries at its own. -/
theorem Cut.of_ok {i : ℕ} (h : BinarySearch.Answers map.keys key (.ok i)) : Cut map key i (i + 1) := by
  obtain ⟨e₀, he₀, rfl⟩ : ∃ e₀, map.entries[i]? = some e₀ ∧ e₀.1 = key := by
    rw [BinarySearch.Answers, SortedMap.keys, List.getElem?_map] at h
    exact Option.map_eq_some_iff.1 h
  have horder : ∀ (j j' : ℕ) (e e' : K × V), j < j' → map.entries[j]? = some e →
      map.entries[j']? = some e' → e.1 < e'.1 := by
    intro j j' e e' hj he he'
    obtain ⟨hlt, rfl⟩ := List.getElem?_eq_some_iff.1 he
    obtain ⟨hlt', rfl⟩ := List.getElem?_eq_some_iff.1 he'
    exact List.pairwise_iff_getElem.1 map.sorted j j' hlt hlt' hj
  refine ⟨Nat.le_succ i, fun j e hj he => horder j i e e₀ hj he he₀, fun j e hij hji he => ?_,
    fun j e hj he => horder i j e₀ e hj he₀ he⟩
  obtain rfl : j = i := by omega
  rw [he₀] at he
  rw [Option.some.inj he]

/-- A key that was not found cuts the entries where it would go. -/
theorem Cut.of_error {i : ℕ} (h : BinarySearch.Answers map.keys key (.error i)) : Cut map key i i := by
  have hkey : ∀ (j : ℕ) (e : K × V), map.entries[j]? = some e → map.keys[j]? = some e.1 := by
    intro j e he
    rw [SortedMap.keys, List.getElem?_map, he]
    rfl
  exact ⟨le_rfl, fun j e hj he => h.2.1 j e.1 hj (hkey j e he), fun j e hj hj' _ => by omega,
    fun j e hj he => h.2.2 j e.1 hj (hkey j e he)⟩

/-- A node put where its key belongs, in the place of the one with the key. -/
theorem Represents.splice (h : Represents m map) {i i' : ℕ} (hcut : Cut map key i i') {node : Ptr}
    {value : V} (hnode : node ∉ m.vec) (heap : Ptr → Option (MapNode K V))
    (hnew : heap node = some ⟨key, value⟩)
    (hkept : ∀ ptr ∈ m.vec.take i ++ m.vec.drop i', heap ptr = m.heap ptr) :
    Represents ⟨m.vec.take i ++ node :: m.vec.drop i', heap⟩ (map.insert key value) := by
  constructor
  · show (m.vec.take i ++ node :: m.vec.drop i').map heap = _
    rw [hcut.insert_entries, List.map_append, List.map_cons, List.map_append, List.map_cons, hnew]
    have htake : (m.vec.take i).map heap = (map.entries.take i).map nodeOf := by
      rw [List.map_congr_left fun ptr hptr => hkept ptr (List.mem_append_left _ hptr), List.map_take,
        h.cells, List.map_take]
    have hdrop : (m.vec.drop i').map heap = (map.entries.drop i').map nodeOf := by
      rw [List.map_congr_left fun ptr hptr => hkept ptr (List.mem_append_right _ hptr), List.map_drop,
        h.cells, List.map_drop]
    rw [htake, hdrop]
    rfl
  · have hsub : (m.vec.take i ++ m.vec.drop i').Sublist m.vec := by
      conv_rhs => rw [← List.take_append_drop i m.vec]
      refine (List.Sublist.refl _).append ?_
      rw [← Nat.add_sub_cancel' hcut.le, ← List.drop_drop]
      exact List.drop_sublist _ _
    rw [List.nodup_middle, List.nodup_cons]
    exact ⟨fun hmem => hnode (hsub.subset hmem), h.nodup.sublist hsub⟩

/-! ### The calls -/

theorem Represents.toHeap (h : Represents m map) {node : Ptr} (hfree : m.heap node = none)
    (new : MapNode K V) : Represents (m.toHeap new node) map := by
  have hnode : ∀ ptr ∈ m.vec, ptr ≠ node := by
    rintro ptr hptr rfl
    exact h.live hptr hfree
  refine ⟨?_, h.nodup⟩
  rw [← h.cells]
  exact List.map_congr_left fun ptr hptr => Function.update_of_ne (hnode ptr hptr) _ _

theorem Represents.insert_spec (h : Represents m map) {node : Ptr} (hfree : m.heap node = none)
    (key : K) (value : V) :
    ∃ m', m.insert key value node = some (map.get? key, m') ∧
      Represents m' (map.insert key value) := by
  have hnode : node ∉ m.vec := fun hmem => h.live hmem hfree
  have h₁ := h.toHeap hfree ⟨key, value⟩
  have hnew : (m.toHeap ⟨key, value⟩ node).heap node = some ⟨key, value⟩ := Function.update_self ..
  generalize hm₁ : m.toHeap ⟨key, value⟩ node = m₁ at h₁ hnew
  have hvec : m₁.vec = m.vec := hm₁ ▸ rfl
  rw [← hvec] at hnode
  obtain ⟨r, hr, hanswers⟩ := h₁.search_spec key
  cases r with
  | ok i =>
    obtain ⟨ptr, old, hptr, hheap, hget⟩ := h₁.at_key hanswers
    obtain ⟨hi, hi'⟩ := List.getElem?_eq_some_iff.1 hptr
    -- the old node is not among the others
    have hsplit : m₁.vec = m₁.vec.take i ++ ptr :: m₁.vec.drop (i + 1) := by
      rw [← hi', ← List.drop_eq_getElem_cons hi, List.take_append_drop]
    have hothers : ptr ∉ m₁.vec.take i ++ m₁.vec.drop (i + 1) :=
      (List.nodup_cons.1 (List.nodup_middle.1 (hsplit ▸ h₁.nodup))).1
    have hne : node ≠ ptr := by
      rintro rfl
      exact hnode (List.mem_of_getElem? hptr)
    refine ⟨_, ?_, h₁.splice (Cut.of_ok hanswers) hnode
      (Function.update m₁.heap ptr none) ?_ fun p hp => Function.update_of_ne ?_ _ _⟩
    · simp [Mem.insert, hm₁, hr, hptr, Mem.fromHeap, hheap, hget, replaceIdx_eq _ hi]
    · rw [Function.update_of_ne hne, hnew]
    · rintro rfl
      exact hothers hp
  | error i =>
    have hi : i ≤ m₁.vec.length := by
      rw [h₁.length_eq]
      simpa [SortedMap.keys] using hanswers.1
    refine ⟨_, ?_, h₁.splice (Cut.of_error hanswers) hnode m₁.heap hnew fun _ _ => rfl⟩
    simp [Mem.insert, hm₁, hr, SortedMap.get?_eq_none.2 hanswers.not_mem, insertIdx_eq node hi]

theorem erase_absent (h : map.get? key = none) : map.erase key = map := by
  refine SortedMap.ext_entries (List.filter_eq_self.2 fun e he => decide_eq_true ?_)
  rintro rfl
  exact SortedMap.get?_eq_none.1 h (SortedMap.mem_keys_of_mem he)

/-- `remove` leaves the vector as it is, and so as many elements as before. -/
theorem Represents.remove_spec (h : Represents m map) (key : K) :
    ∃ m', m.remove key = some (map.get? key, m') ∧ m'.vec = m.vec ∧
      (map.get? key = none → m' = m) := by
  obtain ⟨r, hr, hanswers⟩ := h.search_spec key
  cases r with
  | ok i =>
    obtain ⟨ptr, value, hptr, hheap, hget⟩ := h.at_key hanswers
    refine ⟨{ m with heap := Function.update m.heap ptr none }, ?_, rfl, fun hnone => ?_⟩
    · simp [Mem.remove, hr, hptr, Mem.fromHeap, hheap, hget]
    · rw [hnone] at hget
      cases hget
  | error i =>
    refine ⟨m, ?_, rfl, fun _ => rfl⟩
    simp [Mem.remove, hr, SortedMap.get?_eq_none.2 hanswers.not_mem]

/-- A call from a memory that is the map behaves exactly if it does not remove a key of the map, and
the memory is the map after it then. -/
theorem behaves_iff {w : World K V} (h : Represents w.mem w.map) {op : Op K V} (hfresh : Fresh w op) :
    (Behaves w op ↔ Absent w op) ∧
      (Absent w op → ∀ w' ∈ step w op, Represents w'.mem w'.map) := by
  have hkept : ∀ {out m'}, w.mem.call op = some (out, m') → out = w.map.get? op.key →
      Represents m' (op.apply w.map) → Behaves w op ∧ ∀ w' ∈ step w op, Represents w'.mem w'.map := by
    intro out m' hcall hout hm'
    refine ⟨⟨out, m', hcall, hout, hm'.agrees⟩, fun w' hw' => ?_⟩
    rw [step, hcall] at hw'
    cases hw'
    exact hm'
  cases op with
  | get key =>
    obtain ⟨hb, hr⟩ := hkept (by rw [Mem.call, h.get_eq]; rfl) rfl h
    exact ⟨iff_of_true hb trivial, fun _ => hr⟩
  | insert key value node =>
    obtain ⟨m', hcall, hm'⟩ := h.insert_spec hfresh key value
    obtain ⟨hb, hr⟩ := hkept hcall rfl hm'
    exact ⟨iff_of_true hb trivial, fun _ => hr⟩
  | remove key =>
    obtain ⟨m', hcall, hvec, habsent⟩ := h.remove_spec key
    by_cases hget : w.map.get? key = none
    · obtain ⟨hb, hr⟩ := hkept hcall rfl (by
        rw [habsent hget]
        show Represents w.mem (w.map.erase key)
        rwa [erase_absent hget])
      exact ⟨iff_of_true hb hget, fun _ => hr⟩
    · refine ⟨iff_of_false ?_ hget, fun hno => absurd hno hget⟩
      rintro ⟨out, m'', hcall', -, hagrees⟩
      obtain rfl : m' = m'' := by
        have := hcall.symm.trans hcall'
        cases this
        rfl
      -- the vector has the removed entry still
      have hlen : (w.map.erase key).entries.length < w.map.entries.length := by
        obtain ⟨value, hvalue⟩ := Option.ne_none_iff_exists'.1 hget
        exact List.length_filter_lt_length_iff_exists.2
          ⟨(key, value), SortedMap.get?_eq_some.1 hvalue, by simp⟩
      have hlen' := hagrees.len
      rw [Mem.len, hvec, h.length_eq] at hlen'
      exact absurd hlen' hlen.ne'

/-- **The map behaves as a finite map exactly along the calls that remove no key it has**, the heap
handing out addresses that are not in use. -/
theorem behaves_along_iff (heap : Ptr → Option (MapNode K V)) (ops : List (Op K V))
    (hfresh : Machine.Along step Fresh (World.boot heap) ops) :
    Agrees (World.boot heap).mem (World.boot (K := K) heap).map ∧
      (Machine.Along step Behaves (World.boot heap) ops ↔
        Machine.Along step Absent (World.boot heap) ops) := by
  have hboot : Represents (World.boot heap).mem (World.boot (K := K) heap).map := ⟨rfl, List.nodup_nil⟩
  exact ⟨hboot.agrees, Machine.along_iff (fun w => Represents w.mem w.map)
    (fun w op hw hf => behaves_iff hw hf) hboot hfresh⟩

theorem behaves_along_iff_insert :
    Machine.Along step Behaves (World.boot (K := ℕ) (V := ℕ) fun _ => none)
        [.insert 3 30 8, .insert 3 31 16, .get 3] ↔
      Machine.Along step Absent (World.boot (K := ℕ) (V := ℕ) fun _ => none)
        [.insert 3 30 8, .insert 3 31 16, .get 3] :=
  (behaves_along_iff (fun _ => none) [.insert 3 30 8, .insert 3 31 16, .get 3]
    ⟨rfl, fun _ h => ⟨by cases h; rfl, fun _ _ => ⟨trivial, fun _ _ => trivial⟩⟩⟩).2

/-- A key removed twice: the node is freed by the first call and used by the second. -/
theorem removed_node_used :
    Machine.Along step Fresh (World.boot (K := ℕ) (V := ℕ) fun _ => none)
        [.insert 3 30 8, .remove 3, .remove 3] ∧
      (Machine.run step (World.boot (K := ℕ) (V := ℕ) fun _ => none)
        [.insert 3 30 8, .remove 3]).map (fun w => w.mem.len) = some 1 ∧
      Machine.run step (World.boot (K := ℕ) (V := ℕ) fun _ => none)
        [.insert 3 30 8, .remove 3, .remove 3] = none ∧
      ¬ Machine.Along step Behaves (World.boot (K := ℕ) (V := ℕ) fun _ => none)
        [.insert 3 30 8, .remove 3, .remove 3] := by
  refine ⟨⟨rfl, fun _ _ => ⟨trivial, fun _ _ => ⟨trivial, fun _ _ => trivial⟩⟩⟩, rfl, rfl, fun h => ?_⟩
  obtain ⟨out, m', hcall, -, -⟩ := (h.2 _ rfl).2 _ rfl |>.1
  cases hcall

end AuroraOs.NLVecMap
