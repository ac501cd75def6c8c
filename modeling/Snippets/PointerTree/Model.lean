import Snippets.Lib.RedBlack
import Mathlib.Data.Option.Basic
import Mathlib.Logic.Function.Basic

/-!
# `PointerTree.Model` — the red-black tree of `rbtree/rbtree.hpp`

Nodes live on the heap and know their parent. `new` gives out addresses in order; what is not allocated (never, or no
longer) has no contents, and its use, like a failing `assert` or the use of a null pointer, has no result (`none`).

`rotate_left` and `rotate_right` are one definition for a `Side`, and so are the mirrored branches of `insert_fixup`
and `erase_fixup`. Loops run for at most `limit` steps: a longer one has met a node three times. `size_` counts nodes,
which are distinct objects, so it does not overflow. The line that `erase` prints is left out.
-/

namespace Snippets

open Lib

namespace PointerTree

/-- `RBNode *`; `none` is `NULL`. -/
abbrev Ptr := Option Nat

structure RBNode (K V : Type) where
  v : K × V
  p : Ptr
  l : Ptr
  r : Ptr
  c : Color

variable {K V : Type}

namespace RBNode

def child (n : RBNode K V) : Side → Ptr
  | .left => n.l
  | .right => n.r

def setChild (n : RBNode K V) (side : Side) (q : Ptr) : RBNode K V :=
  match side with
  | .left => { n with l := q }
  | .right => { n with r := q }

def setParent (n : RBNode K V) (q : Ptr) : RBNode K V := { n with p := q }

def paint (n : RBNode K V) (c : Color) : RBNode K V := { n with c := c }

/-- `num_of_children`. -/
def numOfChildren (n : RBNode K V) : Nat := (if n.l.isSome then 1 else 0) + (if n.r.isSome then 1 else 0)

end RBNode

/-- The nodes that are allocated. -/
structure Heap (K V : Type) where
  cells : Nat → Option (RBNode K V)
  next : Nat
  fresh : ∀ a, next ≤ a → cells a = none

namespace Heap

/-- Change a node that is allocated. -/
def modify (h : Heap K V) (a : Nat) (f : RBNode K V → RBNode K V) : Heap K V where
  cells := Function.update h.cells a ((h.cells a).map f)
  next := h.next
  fresh b hb := by
    by_cases hba : b = a
    · rw [hba, Function.update_self, ← hba, h.fresh b hb]
      rfl
    · rw [Function.update_of_ne hba]
      exact h.fresh b hb

/-- `new RBNode(p)`. -/
def alloc (h : Heap K V) (n : RBNode K V) : Heap K V where
  cells := Function.update h.cells h.next (some n)
  next := h.next + 1
  fresh b hb := by
    rw [Function.update_of_ne (Nat.ne_of_gt hb)]
    exact h.fresh b (Nat.le_of_lt hb)

/-- `delete node`. -/
def free (h : Heap K V) (a : Nat) : Heap K V where
  cells := Function.update h.cells a none
  next := h.next
  fresh b hb := by
    by_cases hba : b = a
    · rw [hba, Function.update_self]
    · rw [Function.update_of_ne hba]
      exact h.fresh b hb

/-- No node is allocated. -/
def empty : Heap K V := ⟨fun _ => none, 0, fun _ _ => rfl⟩

end Heap

end PointerTree

/-- `class RBTree`, with the heap its nodes live on. -/
structure PointerTree (K V : Type) where
  root : PointerTree.Ptr
  size : Nat
  heap : PointerTree.Heap K V

namespace PointerTree

variable {K V : Type} (cmp : Comparator K)

/-- `RBTree()`. -/
def empty : PointerTree K V := ⟨none, 0, .empty⟩

/-- How long a loop can go on. -/
def limit (s : PointerTree K V) : Nat := 2 * s.heap.next + 2

def deref (s : PointerTree K V) (q : Ptr) : Option (RBNode K V) := q.bind s.heap.cells

/-- A store through a pointer. -/
def write (s : PointerTree K V) (q : Ptr) (f : RBNode K V → RBNode K V) : Option (PointerTree K V) :=
  match q with
  | none => none
  | some a => if (s.heap.cells a).isSome then some { s with heap := s.heap.modify a f } else none

/-- `is_red`. -/
def isRed (s : PointerTree K V) (q : Ptr) : Option Bool :=
  match q with
  | none => some false
  | some a => (s.heap.cells a).map fun n => n.c = .red

/-- `is_black`. -/
def isBlack (s : PointerTree K V) (q : Ptr) : Option Bool := (s.isRed q).map (!·)

/-- `if (p->l == node) p->l = q; else p->r = q`. -/
def redirect (s : PointerTree K V) (p node q : Ptr) : Option (PointerTree K V) := do
  let n ← s.deref p
  if n.l = node then s.write p fun n => n.setChild .left q else s.write p fun n => n.setChild .right q

/-- What hangs at the place of `node` is now `q`: the parent's child, or `root_`. -/
def replaceChild (s : PointerTree K V) (p node q : Ptr) : Option (PointerTree K V) :=
  if p.isSome then s.redirect p node q else some { s with root := q }

/-- `if (child) child->p = q`. -/
def setParent (s : PointerTree K V) (child q : Ptr) : Option (PointerTree K V) :=
  if child.isSome then s.write child fun n => n.setParent q else some s

/-! ## Walking -/

/-- `while (res->child) res = res->child`. -/
def extreme (side : Side) (s : PointerTree K V) : Nat → Ptr → Option Ptr
  | 0, _ => none
  | fuel + 1, res =>
      match s.deref res with
      | none => none
      | some n => if (n.child side).isSome then extreme side s fuel (n.child side) else some res

/-- `while (res and res->child == node) { node = res; res = node->p; }`. -/
def climb (side : Side) (s : PointerTree K V) : Nat → Ptr → Ptr → Option Ptr
  | 0, _, _ => none
  | fuel + 1, node, res =>
      match res with
      | none => some none
      | some a =>
          match s.heap.cells a with
          | none => none
          | some n => if n.child side = node then climb side s fuel res n.p else some res

/-- The neighbour on a side, in order: `predecessor` on the left, `successor` on the right. -/
def neighbour (side : Side) (s : PointerTree K V) (node : Ptr) : Option Ptr := do
  let n ← s.deref node
  if (n.child side).isSome then s.extreme side.other s.limit (n.child side) else s.climb side s.limit node n.p

def successor (s : PointerTree K V) (node : Ptr) : Option Ptr := s.neighbour .right node

/-- `min` and `max`. -/
def outermost (side : Side) (s : PointerTree K V) : Option Ptr :=
  if s.root.isSome then s.extreme side s.limit s.root else some none

def min (s : PointerTree K V) : Option Ptr := s.outermost .left

def max (s : PointerTree K V) : Option Ptr := s.outermost .right

/-- What is met from `node` on, by steps to the neighbour on a side, until there is none. -/
def walkFrom (side : Side) (s : PointerTree K V) : Nat → Ptr → Option (List (K × V))
  | 0, _ => none
  | fuel + 1, node =>
      if node.isNone then some []
      else do
        let n ← s.deref node
        let next ← s.neighbour side node
        let rest ← walkFrom side s fuel next
        return n.v :: rest

/-- From `min()` by `successor()` (to the right), or from `max()` by `predecessor()` (to the left). -/
def walk (side : Side) (s : PointerTree K V) : Option (List (K × V)) := do
  let first ← s.outermost side.other
  s.walkFrom side s.limit first

/-! ## Rotations -/

/-- The child on the other side goes up, and the node goes down on `side`. -/
def rotate (side : Side) (s : PointerTree K V) (node : Ptr) : Option (PointerTree K V) := do
  let n ← s.deref node
  let up := n.child side.other
  let _ ← s.deref up
  let s ← s.replaceChild n.p node up
  let s ← s.write up fun u => u.setParent n.p
  let s ← s.write node fun n => n.setParent up
  let u ← s.deref up
  let s ← s.setParent (u.child side) node
  let s ← s.write node fun n => n.setChild side.other (u.child side)
  s.write up fun u => u.setChild side node

def rotateLeft (s : PointerTree K V) (node : Ptr) : Option (PointerTree K V) := s.rotate .left node

def rotateRight (s : PointerTree K V) (node : Ptr) : Option (PointerTree K V) := s.rotate .right node

/-! ## Insertion -/

/-- `root_->c = kBlack`. -/
def blackenRoot (s : PointerTree K V) : Option (PointerTree K V) := s.write s.root fun n => n.paint .black

/-- The inner node of `insert_fixup` goes up first: `p` goes down, and the two change roles. -/
def straighten (side : Side) (s : PointerTree K V) (node p : Ptr) : Option (PointerTree K V × Ptr) := do
  let n ← s.deref p
  if n.child side.other = node then
    let s ← s.write (n.child side.other) fun m => m.paint n.c
    let s ← s.write p fun n => n.paint .red
    let s ← s.rotate side p
    return (s, node)
  else return (s, p)

/-- The branch of `insert_fixup` that rotates, for `p` the child of `pp` on `side`. -/
def fixupRotate (side : Side) (s : PointerTree K V) (node p pp : Ptr) : Option (PointerTree K V) := do
  let (s, p) ← s.straighten side node p
  let g ← s.deref pp
  let s ← s.write p fun n => n.paint g.c
  let s ← s.write pp fun n => n.paint .red
  s.rotate side.other pp

/-- The loop of `insert_fixup`. -/
def insertFixup : Nat → PointerTree K V → Ptr → Option (PointerTree K V)
  | 0, _, _ => none
  | fuel + 1, s, node => do
      let n ← s.deref node
      if node = s.root then s.blackenRoot
      else if ← s.isRed n.p then
        let m ← s.deref n.p
        let g ← s.deref m.p
        let ps := if g.l = n.p then g.r else g.l
        if ← s.isRed ps then
          guard (g.c = .black)
          let s ← s.write m.p fun n => n.paint .red
          let s ← s.write n.p fun n => n.paint .black
          let s ← s.write ps fun n => n.paint .black
          insertFixup fuel s m.p
        else if g.l = n.p then
          let s ← s.fixupRotate .left node n.p m.p
          s.blackenRoot
        else
          guard (g.r = n.p)
          let s ← s.fixupRotate .right node n.p m.p
          s.blackenRoot
      else s.blackenRoot

/-- The new node of `insert_impl`, hung at its place. -/
def hang (s : PointerTree K V) (prev : Ptr) (res : Int) (p : K × V) : Option (PointerTree K V) :=
  let node := some s.heap.next
  let s := { s with heap := s.heap.alloc ⟨p, prev, none, none, .red⟩ }
  if prev.isSome then do
    guard (res ≠ 0)
    if res < 0 then s.write prev fun n => n.setChild .left node else s.write prev fun n => n.setChild .right node
  else do
    let s ← s.write node fun n => n.paint .black
    return { s with root := node }

/-- `insert_impl`, with the node it returns an iterator to. -/
def insertImpl (s : PointerTree K V) (prev : Ptr) (res : Int) (p : K × V) : Option (PointerTree K V × Ptr) := do
  let node := some s.heap.next
  let s ← s.hang prev res p
  let n ← s.deref node
  if ← s.isRed n.p then
    let s ← s.insertFixup s.limit node
    return (s, node)
  else return (s, node)

/-- The loop of `find`. -/
def findFrom (s : PointerTree K V) (key : K) : Nat → Ptr → Option Ptr
  | 0, _ => none
  | fuel + 1, node =>
      match node with
      | none => some none
      | some a =>
          match s.heap.cells a with
          | none => none
          | some n =>
              if !cmp.less key n.v.1 && !cmp.less n.v.1 key then some node
              else if cmp.less key n.v.1 then findFrom s key fuel n.l
              else findFrom s key fuel n.r

def find (s : PointerTree K V) (key : K) : Option Ptr := s.findFrom cmp key s.limit s.root

/-- The loop of `insert`: `prev`, `node` and `res`. -/
def descend (s : PointerTree K V) (key : K) : Nat → Ptr → Ptr → Int → Option (Ptr × Ptr × Int)
  | 0, _, _, _ => none
  | fuel + 1, prev, node, res =>
      match node with
      | none => some (prev, none, res)
      | some a =>
          match s.heap.cells a with
          | none => none
          | some n =>
              if cmp.less key n.v.1 then descend s key fuel node n.l (-1)
              else if cmp.less n.v.1 key then descend s key fuel node n.r 1
              else some (prev, node, 0)

def insert (s : PointerTree K V) (p : K × V) : Option (PointerTree K V × Ptr × Bool) := do
  let (prev, node, res) ← s.descend cmp p.1 s.limit s.root s.root 0
  if node = prev then
    guard (prev = none)
    let s := { s with size := s.size + 1 }
    let (s, iter) ← s.insertImpl prev res p
    return (s, iter, true)
  else if res = 0 then
    let s ← s.write node fun n => { n with v := (n.v.1, p.2) }
    return (s, node, false)
  else
    let s := { s with size := s.size + 1 }
    let (s, iter) ← s.insertImpl prev res p
    return (s, iter, true)

/-- `operator[]`: the node whose value is referred to. `zero` is `mapped_type()`. -/
def index (zero : V) (s : PointerTree K V) (key : K) : Option (PointerTree K V × Ptr) := do
  let (s, iter, _) ← s.insert cmp (key, zero)
  let _ ← s.deref iter
  return (s, iter)

/-- `tree[key] = val`. -/
def assign (zero : V) (s : PointerTree K V) (key : K) (val : V) : Option (PointerTree K V) := do
  let (s, iter) ← s.index cmp zero key
  s.write iter fun n => { n with v := (n.v.1, val) }

/-! ## Deletion -/

/-- `unlink_leaf`. -/
def unlinkLeaf (s : PointerTree K V) (node : Ptr) : Option (PointerTree K V) := do
  let n ← s.deref node
  if s.root = node then return s
  else
    let m ← s.deref n.p
    guard (m.l = node ∨ m.r = node)
    s.redirect n.p node none

/-- The sibling's child on the side of the node, when it is red, takes the sibling's place. -/
def bendSibling (side : Side) (s : PointerTree K V) (sib : Ptr) : Option (PointerTree K V × Ptr) := do
  let b ← s.deref sib
  if ← s.isRed (b.child side) then
    let s ← s.write (b.child side) fun n => n.paint .black
    let s ← s.write sib fun n => n.paint .red
    let s ← s.rotate side.other sib
    let b ← s.deref sib
    return (s, b.p)
  else return (s, sib)

/-- The branch of `erase_fixup` that rotates at `p`, for a node on `side`. -/
def borrow (side : Side) (s : PointerTree K V) (p sib : Ptr) : Option (PointerTree K V) := do
  let (s, sib) ← s.bendSibling side sib
  let b ← s.deref sib
  guard (← s.isBlack (b.child side))
  guard (← s.isRed (b.child side.other))
  let m ← s.deref p
  let s ← s.write sib fun n => n.paint m.c
  let s ← s.write (b.child side.other) fun n => n.paint .black
  let s ← s.write p fun n => n.paint .black
  s.rotate side p

/-- The branch of `erase_fixup` for a red sibling, on the side other than the node's. -/
def turnSibling (s : PointerTree K V) (p sib : Ptr) : Option (PointerTree K V) := do
  let b ← s.deref sib
  guard (← s.isBlack p)
  guard b.l.isSome
  guard b.r.isSome
  guard (← s.isBlack b.l)
  guard (← s.isBlack b.r)
  let s ← s.write p fun n => n.paint .red
  let s ← s.write sib fun n => n.paint .black
  let m ← s.deref p
  if sib = m.r then s.rotateLeft p else s.rotateRight p

/-- The loop of `erase_fixup`. -/
def eraseFixup : Nat → PointerTree K V → Ptr → Option (PointerTree K V)
  | 0, _, _ => none
  | fuel + 1, s, node => do
      let n ← s.deref node
      if node = s.root then s.blackenRoot
      else if ← s.isBlack node then
        let m ← s.deref n.p
        let sib := if m.l = node then m.r else m.l
        let b ← s.deref sib
        if ← s.isRed sib then
          let s ← s.turnSibling n.p sib
          eraseFixup fuel s node
        else if (← s.isBlack b.l) && (← s.isBlack b.r) then
          let s ← s.write sib fun n => n.paint .red
          if ← s.isRed n.p then
            let s ← s.write n.p fun n => n.paint .black
            s.blackenRoot
          else eraseFixup fuel s n.p
        else if node = m.l then
          let s ← s.borrow .left n.p sib
          s.blackenRoot
        else
          let s ← s.borrow .right n.p sib
          s.blackenRoot
      else s.blackenRoot

/-- `if (node->p) ...`, without the other branch. -/
def redirectParent (s : PointerTree K V) (p node q : Ptr) : Option (PointerTree K V) :=
  if p.isSome then s.redirect p node q else some s

/-- Change places with a successor that is the right child. `root_` stays as it is, and so do the colours. -/
def swapNear (s : PointerTree K V) (node successor : Ptr) : Option (PointerTree K V) := do
  let n ← s.deref node
  let s ← s.redirectParent n.p node successor
  let b ← s.deref successor
  guard (b.l = none)
  let s ← s.setParent b.r node
  let s ← s.write node fun n => n.setChild .right b.r
  let s ← s.write successor fun b => b.setChild .right node
  let n ← s.deref node
  let s ← s.write successor fun b => b.setParent n.p
  let s ← s.write node fun n => n.setParent successor
  let s ← s.write n.l fun m => m.setParent successor
  let b ← s.deref successor
  let n ← s.deref node
  let s ← s.write successor fun b => b.setChild .left n.l
  s.write node fun n => n.setChild .left b.l

/-- Change places with a successor further down. The colours stay as they are. -/
def swapFar (s : PointerTree K V) (node successor : Ptr) : Option (PointerTree K V) := do
  let b ← s.deref successor
  guard (b.l = none)
  let m ← s.deref b.p
  guard (successor = m.l)
  let n ← s.deref node
  let s ← s.replaceChild n.p node successor
  let n ← s.deref node
  let s ← s.write n.l fun m => m.setParent successor
  let s ← s.write n.r fun m => m.setParent successor
  let b ← s.deref successor
  let s ← s.write b.p fun m => m.setChild .left node
  let b ← s.deref successor
  let n ← s.deref node
  let s ← s.write successor fun b => b.setChild .left n.l
  let s ← s.write node fun n => n.setChild .left b.l
  let s ← s.write successor fun b => b.setParent n.p
  let s ← s.write node fun n => n.setParent b.p
  let b ← s.deref successor
  let n ← s.deref node
  guard n.r.isSome
  let s ← s.setParent b.r node
  let s ← s.write successor fun b => b.setChild .right n.r
  s.write node fun n => n.setChild .right b.r

/-- An internal node changes places with its successor. -/
def swapSuccessor (s : PointerTree K V) (node : Ptr) : Option (PointerTree K V) := do
  let successor ← s.successor node
  let n ← s.deref node
  if n.r = successor then s.swapNear node successor else s.swapFar node successor

/-- `destroy_node`. -/
def destroyNode (s : PointerTree K V) (node : Ptr) : Option (PointerTree K V) :=
  match node with
  | none => none
  | some a => some { s with heap := s.heap.free a }

/-- A black node with one child is replaced by the child. -/
def spliceChild (s : PointerTree K V) (node : Ptr) : Option (PointerTree K V) := do
  let n ← s.deref node
  let child := if n.l.isSome then n.l else n.r
  guard (← s.isRed child)
  let m ← s.deref child
  guard (m.numOfChildren = 0)
  let s ← s.write child fun m => m.setParent n.p
  let s ← s.replaceChild n.p node child
  s.write child fun m => m.paint .black

/-- A black leaf, after the tree has been made ready for its removal. -/
def dropLeaf (s : PointerTree K V) (node : Ptr) : Option (PointerTree K V) := do
  let s ← s.eraseFixup s.limit node
  let n ← s.deref node
  guard n.p.isSome
  s.redirect n.p node none

/-- Take `node_to_del` out of the tree. -/
def detach (s : PointerTree K V) (node : Ptr) : Option (PointerTree K V) := do
  let n ← s.deref node
  if n.c = .red ∧ n.numOfChildren = 0 then s.unlinkLeaf node
  else if n.c = .black ∧ n.numOfChildren = 1 then s.spliceChild node
  else s.dropLeaf node

/-- The second half of `erase_impl`: `node_to_del` is removed. -/
def remove (s : PointerTree K V) (node : Ptr) : Option (PointerTree K V) := do
  let s ← s.detach node
  s.destroyNode node

def eraseImpl (s : PointerTree K V) (node : Ptr) : Option (PointerTree K V) := do
  let n ← s.deref node
  if n.numOfChildren = 0 ∧ n.c = .red then s.remove node
  else if node = s.root ∧ n.numOfChildren = 0 then destroyNode { s with root := none } node
  else if n.c = .black ∧ n.numOfChildren = 1 then s.remove node
  else if n.c = .black ∧ n.numOfChildren = 0 then s.remove node
  else do
    guard (n.numOfChildren = 2)
    let s ← s.swapSuccessor node
    s.remove node

/-- `erase(key)`. -/
def erase (s : PointerTree K V) (key : K) : Option (PointerTree K V × Nat) := do
  let iter ← s.find cmp key
  if iter = none then return (s, 0)
  else
    let _ ← s.successor iter
    let s ← s.eraseImpl iter
    guard (1 ≤ s.size)
    let s := { s with size := s.size - 1 }
    return (s, 1)

end PointerTree
end Snippets
