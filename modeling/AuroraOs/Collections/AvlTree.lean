import AuroraOs.Util
import AuroraOs.Lib.TreeZipper

/-!
# The intrusive AVL tree

`libutil/src/collections/tree.rs`.  The nodes of a tree carry their key, their balance and the
pointers to parent and children; an `AvlTree` value is the root pointer with a length.  The memory
of the nodes is kept as one function per field, so a write to one field leaves the others alone by
definition.

Every operation takes the memory and returns it updated; `none` is a panic (a null pointer
unwrapped) or, for the three loops of the source, which take `fuel`, a loop that has not ended.
Balances are integers: the invariant keeps them within `-2 … 2`, far inside `i8`.

The upward loop `rebalance` also hands out the value of its variable `node` where it returns, and
`insert` and `remove` pass it on as their last component; the source drops it.
-/

namespace AuroraOs

/-- The memory of the tree nodes, field by field. -/
structure TreeMem (K : Type) where
  parent : Ptr → Ptr
  left : Ptr → Ptr
  right : Ptr → Ptr
  key : Ptr → K
  balance : Ptr → ℤ

/-- How a node hangs in its tree. -/
inductive ParentType
  | leftOf (p : Ptr)
  | rightOf (p : Ptr)
  | root
  deriving DecidableEq

/-! ### The `TreeNode` trait -/

namespace TreeMem

variable {K : Type} (m : TreeMem K)

def setParent (p v : Ptr) : TreeMem K := { m with parent := Function.update m.parent p v }
def setLeft (p v : Ptr) : TreeMem K := { m with left := Function.update m.left p v }
def setRight (p v : Ptr) : TreeMem K := { m with right := Function.update m.right p v }
def setKey (p : Ptr) (k : K) : TreeMem K := { m with key := Function.update m.key p k }
def setBalance (p : Ptr) (b : ℤ) : TreeMem K := { m with balance := Function.update m.balance p b }

/-- `set_leftp`: set the left child, and its parent if there is one. -/
def setLeftp (p v : Ptr) : TreeMem K :=
  if v = null then m.setLeft p v else (m.setLeft p v).setParent v p

/-- `set_rightp`: set the right child, and its parent if there is one. -/
def setRightp (p v : Ptr) : TreeMem K :=
  if v = null then m.setRight p v else (m.setRight p v).setParent v p

/-- `inc_balance`. -/
def incBalance (p : Ptr) (n : ℤ) : TreeMem K := m.setBalance p (m.balance p + n)

/-- `is_balanced`. -/
def isBalanced (p : Ptr) : Bool := decide (m.balance p ≥ -1) && decide (m.balance p ≤ 1)

/-- `parent_type`. -/
def parentType (p : Ptr) : ParentType :=
  if m.parent p = null then .root
  else if p = m.left (m.parent p) then .leftOf (m.parent p)
  else .rightOf (m.parent p)

/-- Enter a node where another one hung; a new root goes into `out`. -/
def relink (parent : ParentType) (p : Ptr) (out : Option Ptr) : TreeMem K × Option Ptr :=
  match parent with
  | .leftOf node => (m.setLeft node p, out)
  | .rightOf node => (m.setRight node p, out)
  | .root => (m, some p)

/-- The first half of `swap`: exchange the children. -/
def swapChildren (self other : Ptr) : TreeMem K :=
  let ptr := m.left self
  let m := m.setLeftp self (m.left other)
  let m := m.setLeftp other ptr
  let ptr := m.right self
  let m := m.setRightp self (m.right other)
  m.setRightp other ptr

/-- `swap`: exchange the places of two nodes; the new root, if one of them was the root. -/
def swap (self other : Ptr) : TreeMem K × Option Ptr :=
  let m := m.swapChildren self other
  let ptr := m.parent self
  let parent := m.parentType self
  let m := m.setParent self (m.parent other)
  let (m, out) := m.relink parent other none
  let parent := m.parentType other
  let m := m.setParent other ptr
  let (m, out) := m.relink parent self out
  let m := m.setParent other ptr
  let bf := m.balance self
  let m := m.setBalance self (m.balance other)
  (m.setBalance other bf, out)

/-- `rotate_right`; the top of the new subtree. -/
def rotateRight (self : Ptr) : Option (TreeMem K × Ptr) := do
  let leftChild ← asRef (m.left self)
  let parent := m.parent self
  let m := m.setLeftp self (m.right leftChild)
  let m := m.setRightp leftChild self
  let m := m.setParent leftChild parent
  let m := m.incBalance self
    (if m.balance leftChild < 0 then 1 - m.balance leftChild else 1)
  let m := m.incBalance leftChild (if m.balance self > 0 then 1 + m.balance self else 1)
  some (m, leftChild)

/-- `rotate_left`; the top of the new subtree. -/
def rotateLeft (self : Ptr) : Option (TreeMem K × Ptr) := do
  let rightChild ← asRef (m.right self)
  let parent := m.parent self
  let m := m.setRightp self (m.left rightChild)
  let m := m.setLeftp rightChild self
  let m := m.setParent rightChild parent
  let m := m.incBalance self
    (-(if m.balance rightChild > 0 then 1 + m.balance rightChild else 1))
  let m := m.incBalance rightChild (if m.balance self < 0 then -1 + m.balance self else -1)
  some (m, rightChild)

/-- `TreeNode::rebalance`: the top of the subtree after at most two rotations. -/
def rebalance (self : Ptr) : Option (TreeMem K × Ptr) :=
  if m.isBalanced self then some (m, self)
  else if m.balance self < -1 then do
    let child ← asRef (m.left self)
    if m.balance child = 1 then do
      let (m, top) ← m.rotateLeft child
      (m.setLeft self top).rotateRight self
    else m.rotateRight self
  else do
    let child ← asRef (m.right self)
    if m.balance child = -1 then do
      let (m, top) ← m.rotateRight child
      (m.setRight self top).rotateLeft self
    else m.rotateLeft self

end TreeMem

/-! ### The tree -/

/-- Where a search ends. -/
inductive SearchResult
  | present (p : Ptr)
  | leftOf (p : Ptr)
  | rightOf (p : Ptr)
  | root
  deriving DecidableEq

/-- Whether a subtree grew or shrank. -/
inductive BalMode
  | add
  | del
  deriving DecidableEq

/-- `AvlTree`: the root and the number of nodes. -/
structure AvlTree where
  root : Ptr
  len : ℕ
  deriving DecidableEq

namespace AvlTree

variable {K : Type}

/-- `AvlTree::new`. -/
def new : AvlTree := ⟨null, 0⟩

/-- The change of height that the loop of `rebalance` reads off the balances. -/
def hchange (mode : BalMode) (oldBf newBf : ℤ) : ℤ :=
  if mode = .add ∧ oldBf = 0 ∧ |newBf| = 1 then 1
  else if mode = .del ∧ |oldBf| = 1 ∧ newBf = 0 then -1
  else 0

/-- `AvlTree::rebalance`: climb from `node` while the height of the subtree changes. -/
def rebalance (m : TreeMem K) (t : AvlTree) (mode : BalMode) :
    ℕ → Ptr → ℤ → Option (TreeMem K × AvlTree × Ptr)
  | 0, _, _ => none
  | fuel + 1, node, bfChange => do
      let oldBf := m.balance node
      let parent := m.parentType node
      let (m, ptr) ← (m.incBalance node bfChange).rebalance node
      let node ← asRef ptr
      let h := hchange mode oldBf (m.balance node)
      match parent with
      | .leftOf p =>
          if h = 1 then rebalance (m.setLeft p ptr) t mode fuel p (-1)
          else if h = -1 then rebalance (m.setLeft p ptr) t mode fuel p 1
          else some (m.setLeft p ptr, t, node)
      | .rightOf p =>
          if h = 1 then rebalance (m.setRight p ptr) t mode fuel p 1
          else if h = -1 then rebalance (m.setRight p ptr) t mode fuel p (-1)
          else some (m.setRight p ptr, t, node)
      | .root => some (m, { t with root := ptr }, node)

/-- `remove_edge_node`: unlink a node with at most one child. -/
def removeEdgeNode (fuel : ℕ) (m : TreeMem K) (t : AvlTree) (node : Ptr) :
    Option (TreeMem K × AvlTree × Option Ptr × Option Ptr) :=
  if m.right node = null ∨ m.left node = null then
    let child := if m.right node = null then m.left node else m.right node
    match m.parentType node with
    | .leftOf p => do
        let (m, t, stop) ← rebalance (m.setLeftp p child) t .del fuel p 1
        some (m, t, some node, some stop)
    | .rightOf p => do
        let (m, t, stop) ← rebalance (m.setRightp p child) t .del fuel p (-1)
        some (m, t, some node, some stop)
    | .root =>
        some (if child = null then m else m.setParent child null, { t with root := child },
          some node, none)
  else some (m, t, none, none)

/-- The loop of `remove`: the rightmost node below `child`. -/
def rightmost (m : TreeMem K) : ℕ → Ptr → Option Ptr
  | 0, _ => none
  | fuel + 1, child =>
      if m.right child = null then some child else rightmost m fuel (m.right child)

/-- The loop of `pop`: a leaf below `out`. -/
def findLeaf (m : TreeMem K) : ℕ → Ptr → Option Ptr
  | 0, _ => none
  | fuel + 1, out =>
      if m.left out ≠ null then findLeaf m fuel (m.left out)
      else if m.right out ≠ null then findLeaf m fuel (m.right out)
      else some out

/-- `AvlTree::pop`. -/
def pop (fuel : ℕ) (m : TreeMem K) (t : AvlTree) : Option (TreeMem K × AvlTree × Option Ptr) :=
  if t.root = null then some (m, t, none)
  else do
    let out ← findLeaf m fuel t.root
    let t := { t with len := t.len - 1 }
    match m.parentType out with
    | .root => some (m, { t with root := null }, some out)
    | .leftOf parent => some ((m.setLeft parent null).incBalance parent 1, t, some out)
    | .rightOf parent => some ((m.setRight parent null).incBalance parent (-1), t, some out)

section Ordered

variable [LinearOrder K]

/-- The loop of `search`. -/
def searchFrom (m : TreeMem K) (key : K) : ℕ → Ptr → Option SearchResult
  | 0, _ => none
  | fuel + 1, node =>
      if key < m.key node then
        if m.left node = null then some (.leftOf node) else searchFrom m key fuel (m.left node)
      else if m.key node < key then
        if m.right node = null then some (.rightOf node) else searchFrom m key fuel (m.right node)
      else some (.present node)

/-- `AvlTree::search`. -/
def search (fuel : ℕ) (m : TreeMem K) (t : AvlTree) (key : K) : Option SearchResult :=
  if t.root = null then some .root else searchFrom m key fuel t.root

/-- `AvlTree::insert`: `Ok` with the inserted node or `Err` with the rejected one. -/
def insert (fuel : ℕ) (m : TreeMem K) (t : AvlTree) (key : K) (v : Ptr) :
    Option (TreeMem K × AvlTree × Except Ptr Ptr × Option Ptr) := do
  let m := ((m.setLeft v null).setRight v null).setBalance v 0
  match ← search fuel m t key with
  | .present _ => some (m, t, .error v, none)
  | .leftOf p =>
      let (m, t, stop) ← rebalance ((m.setLeftp p v).setKey v key) t .add fuel p (-1)
      some (m, { t with len := t.len + 1 }, .ok v, some stop)
  | .rightOf p =>
      let (m, t, stop) ← rebalance ((m.setRightp p v).setKey v key) t .add fuel p 1
      some (m, { t with len := t.len + 1 }, .ok v, some stop)
  | .root => some ((m.setParent v null).setKey v key, ⟨v, t.len + 1⟩, .ok v, none)

/-- `AvlTree::remove`. -/
def remove (fuel : ℕ) (m : TreeMem K) (t : AvlTree) (key : K) :
    Option (TreeMem K × AvlTree × Option Ptr × Option Ptr) := do
  match ← search fuel m t key with
  | .present node =>
      let t := { t with len := t.len - 1 }
      if m.left node = null ∨ m.right node = null then removeEdgeNode fuel m t node
      else
        let child ← rightmost m fuel (m.left node)
        let (m, root) := m.swap node child
        removeEdgeNode fuel m { t with root := root.getD t.root } node
  | _ => some (m, t, none, none)

/-- `AvlTree::get`. -/
def get (fuel : ℕ) (m : TreeMem K) (t : AvlTree) (key : K) : Option (Option Ptr) := do
  match ← search fuel m t key with
  | .present p => some (some p)
  | _ => some none

/-- `AvlTree::get_mut`: the same search. -/
def getMut (fuel : ℕ) (m : TreeMem K) (t : AvlTree) (key : K) : Option (Option Ptr) := do
  match ← search fuel m t key with
  | .present p => some (some p)
  | _ => some none

end Ordered

end AvlTree
end AuroraOs
