import Snippets.MemoryList.Runs
import Snippets.Lib.LeftLeaning

/-!
# `RBTree.Model` — the arena tree of `udpserver/src/base/rbtree.h`

`RBTree` keeps a left-leaning red-black tree in the slices of a `MemoryList`. A node is the payload of a slice,
seen as an `RBNode`: `nodes id` is what the payload of slice `id` holds. The allocator never touches payloads, and
slices do not overlap (`MemoryList.Runs`), so nodes and slice heads are kept apart.

A failing `assert`, and the use of a null pointer, have no result (`none`). The recursions run for at most
`capacity + 1` calls: a deeper one has met a node twice. `Delete` may `throw 0`; the stores made until then stay.
-/

namespace Snippets

open Lib

namespace RBTree

abbrev NodeId := MemoryList.SliceId

def kInvalidNodeId : NodeId := MemoryList.kInvalidSliceId

/-- `sizeof(MetaData)`. -/
def kHeaderSize : Nat := 32

structure RBNode (K V : Type) where
  c : Color
  p : NodeId
  l : NodeId
  r : NodeId
  v : K × V

/-- What the payloads of the slices hold. -/
structure Heap (K V : Type) where
  payload : NodeId → RBNode K V

instance (K V : Type) : CoeFun (Heap K V) fun _ => NodeId → RBNode K V := ⟨Heap.payload⟩

variable {K V : Type}

/-- `RBNode::Init`. -/
def RBNode.init (key : K) (val : V) : RBNode K V := ⟨.red, kInvalidNodeId, kInvalidNodeId, kInvalidNodeId, (key, val)⟩

/-! ## Pointers -/

namespace Heap

/-- `GetPointer`: the inner `none` is `NULL`, the outer one the failing assert of `GetSliceById`. -/
def getPointer (h : Heap K V) (id : NodeId) : Option (Option (RBNode K V)) :=
  if id = kInvalidNodeId then some none else if 0 ≤ id then some (some (h id)) else none

/-- `GetPointer` and then `assert (node)`, or a dereference. -/
def node (h : Heap K V) (id : NodeId) : Option (RBNode K V) := (h.getPointer id).join

/-- `*node = value`. -/
def write (h : Heap K V) (id : NodeId) (value : RBNode K V) : Heap K V := ⟨fun j => if j = id then value else h j⟩

/-- Change the node behind a pointer. -/
def store (h : Heap K V) (id : NodeId) (change : RBNode K V → RBNode K V) : Heap K V := h.write id (change (h id))

/-- `node and node->c == kRed`. -/
def isRed (h : Heap K V) (id : NodeId) : Option Bool :=
  (h.getPointer id).map fun node => node.any fun node => node.c = .red

/-- `if (node) node->p = p`. -/
def setParent (h : Heap K V) (id p : NodeId) : Option (Heap K V) :=
  (h.getPointer id).map fun node => if node.isSome then h.store id fun n => { n with p := p } else h

end Heap

/-! ## Rotations and colours -/

inductive Side
  | left
  | right
deriving DecidableEq

def Side.other : Side → Side
  | .left => .right
  | .right => .left

def RBNode.child (n : RBNode K V) : Side → NodeId
  | .left => n.l
  | .right => n.r

def RBNode.setChild (n : RBNode K V) (side : Side) (id : NodeId) : RBNode K V :=
  match side with
  | .left => { n with l := id }
  | .right => { n with r := id }

namespace Heap

/-- The child on the other side goes up, and the node goes down on `side`. -/
def rotate (side : Side) (h : Heap K V) (id : NodeId) : Option (Heap K V × NodeId) := do
  let node ← h.node id
  let childId := node.child side.other
  let child ← h.node childId
  guard (child.c = .red)
  let h := h.store id fun n => n.setChild side.other (child.child side)
  let h ← h.setParent (child.child side) id
  let h := h.store childId fun n => n.setChild side id
  let h := h.store childId fun n => { n with p := (h id).p }
  let h := h.store id fun n => { n with p := childId }
  let h := h.store childId fun n => { n with c := (h id).c }
  let h := h.store id fun n => { n with c := .red }
  return (h, childId)

def rotateLeft (h : Heap K V) (id : NodeId) : Option (Heap K V × NodeId) := h.rotate .left id

def rotateRight (h : Heap K V) (id : NodeId) : Option (Heap K V × NodeId) := h.rotate .right id

/-- `RBNode::FlipColor`. -/
def flipColor (h : Heap K V) (id : NodeId) : Heap K V := h.store id fun n => { n with c := n.c.flip }

def flipColors (h : Heap K V) (id : NodeId) : Option (Heap K V) := do
  let node ← h.node id
  let _ ← h.node node.l
  let _ ← h.node node.r
  return ((h.flipColor id).flipColor node.l).flipColor node.r

/-- First part of `KeepBalance`: a red right child. -/
def fixRight (h : Heap K V) (id : NodeId) : Option (Heap K V × NodeId) := do
  let node ← h.node id
  if ← h.isRed node.r then h.rotateLeft id else return (h, id)

/-- Second part: a red left child with a red left child. -/
def fixLeft (h : Heap K V) (id : NodeId) : Option (Heap K V × NodeId) := do
  let node ← h.node id
  if ← h.isRed node.l then
    let left ← h.node node.l
    if ← h.isRed left.l then h.rotateRight id else return (h, id)
  else return (h, id)

/-- Third part: two red children. -/
def fixBoth (h : Heap K V) (id : NodeId) : Option (Heap K V × NodeId) := do
  let node ← h.node id
  if (← h.isRed node.l) && (← h.isRed node.r) then return (← h.flipColors id, id) else return (h, id)

def keepBalance (h : Heap K V) (id : NodeId) : Option (Heap K V × NodeId) := do
  let (h, id) ← h.fixRight id
  let (h, id) ← h.fixLeft id
  h.fixBoth id

def moveRedLeft (h : Heap K V) (id : NodeId) : Option (Heap K V × NodeId) := do
  let node ← h.node id
  guard (node.c = .red)
  let left ← h.node node.l
  guard (left.c = .black)
  guard !(← h.isRed left.l)
  let h ← h.flipColors id
  let right ← h.node node.r
  if ← h.isRed right.l then
    let (h, r) ← h.rotateRight node.r
    let h := h.store id fun n => { n with r := r }
    let (h, id) ← h.rotateLeft id
    return (← h.flipColors id, id)
  else return (h, id)

def moveRedRight (h : Heap K V) (id : NodeId) : Option (Heap K V × NodeId) := do
  let node ← h.node id
  let left ← h.node node.l
  let right ← h.node node.r
  guard (right.c = .black)
  guard !(← h.isRed right.r)
  let h ← h.flipColors id
  if ← h.isRed left.l then
    let (h, id) ← h.rotateRight id
    return (← h.flipColors id, id)
  else return (h, id)

/-! ## Walking the tree -/

/-- `Get`. -/
def get (cmp : Comparator K) (h : Heap K V) (key : K) : Nat → NodeId → Option NodeId
  | 0, _ => none
  | fuel + 1, id =>
      match h.getPointer id with
      | none => none
      | some none => some kInvalidNodeId
      | some (some node) =>
          if cmp.less node.v.1 key then get cmp h key fuel node.r
          else if cmp.less key node.v.1 then get cmp h key fuel node.l
          else some id

/-- The loop of `GetMin`. -/
def getMin (h : Heap K V) : Nat → NodeId → Option NodeId
  | 0, _ => none
  | fuel + 1, id =>
      match h.node id with
      | none => none
      | some node => if node.l ≠ kInvalidNodeId then getMin h fuel node.l else some id

/-- The climbing loop of `GetNext`: up as long as `cur` is a right child. -/
def climb (h : Heap K V) : Nat → NodeId → NodeId → Option NodeId
  | 0, _, _ => none
  | fuel + 1, cur, parent =>
      match h.getPointer parent with
      | none => none
      | some none => some kInvalidNodeId
      | some (some p) => if p.r = cur then climb h fuel parent p.p else some parent

def getNext (h : Heap K V) (fuel : Nat) (id : NodeId) : Option NodeId :=
  match h.getPointer id with
  | none => none
  | some none => some kInvalidNodeId
  | some (some node) =>
      if node.r ≠ kInvalidNodeId then h.getMin fuel node.r else h.climb fuel id node.p

/-- The loop of `GetMax`. -/
def getMax (h : Heap K V) : Nat → NodeId → Option NodeId
  | 0, _ => none
  | fuel + 1, id =>
      match h.node id with
      | none => none
      | some node => if node.r ≠ kInvalidNodeId then getMax h fuel node.r else some id

/-- The climbing loop of `GetPrev`: up as long as `cur` is a left child. -/
def climbBack (h : Heap K V) : Nat → NodeId → NodeId → Option NodeId
  | 0, _, _ => none
  | fuel + 1, cur, parent =>
      match h.getPointer parent with
      | none => none
      | some none => some kInvalidNodeId
      | some (some p) => if p.l = cur then climbBack h fuel parent p.p else some parent

def getPrev (h : Heap K V) (fuel : Nat) (id : NodeId) : Option NodeId :=
  match h.getPointer id with
  | none => none
  | some none => some kInvalidNodeId
  | some (some node) =>
      if node.l ≠ kInvalidNodeId then h.getMax fuel node.l else h.climbBack fuel id node.p

end Heap

end RBTree

/-! ## The tree -/

/-- `class RBTree`: the meta data, the allocator and the payloads of its slices. -/
structure RBTree (K V : Type) where
  root : RBTree.NodeId
  size : Nat
  depth : Nat
  ml : MemoryList
  nodes : RBTree.Heap K V

namespace RBTree

variable {K V : Type} (cmp : Comparator K)

def maxSize (s : RBTree K V) : Nat := s.ml.capacity

/-- How deep a recursion can go. -/
def limit (s : RBTree K V) : Nat := s.ml.capacity + 1

def setSize (s : RBTree K V) (n : Int) : RBTree K V := { s with size := toSize n }

def store (s : RBTree K V) (id : NodeId) (change : RBNode K V → RBNode K V) : RBTree K V :=
  { s with nodes := s.nodes.store id change }

/-- Run a function of the nodes. -/
def onNodes (s : RBTree K V) (f : Heap K V → Option (Heap K V × NodeId)) : Option (RBTree K V × NodeId) :=
  (f s.nodes).map fun r => ({ s with nodes := r.1 }, r.2)

/-- The new node of `Put`. -/
def newNode (s : RBTree K V) (key : K) (val : V) : Option (RBTree K V × NodeId) := do
  let (ml, newId) ← s.ml.getSlice
  let _ ← s.nodes.node newId
  let s := { s with ml := ml, nodes := s.nodes.store newId fun _ => .init key val }
  return (s.setSize (s.size + 1), newId)

/-- `node->child = child; GetPointer(node->child)->p = node_id; return KeepBalance(node_id)`, for either child. -/
def attach (s : RBTree K V) (side : Side) (nodeId child : NodeId) : Option (RBTree K V × NodeId) := do
  let s := s.store nodeId fun n => n.setChild side child
  let _ ← s.nodes.node child
  let s := s.store child fun n => { n with p := nodeId }
  s.onNodes fun h => h.keepBalance nodeId

def put (key : K) (val : V) : Nat → RBTree K V → NodeId → Option (RBTree K V × NodeId)
  | 0, _, _ => none
  | fuel + 1, s, nodeId =>
      match s.nodes.getPointer nodeId with
      | none => none
      | some none => s.newNode key val
      | some (some node) =>
          if cmp.less key node.v.1 then
            match put key val fuel s node.l with
            | none => none
            | some (s, child) => s.attach .left nodeId child
          else if cmp.less node.v.1 key then
            match put key val fuel s node.r with
            | none => none
            | some (s, child) => s.attach .right nodeId child
          else some (s.store nodeId fun n => { n with v := (n.v.1, val) }, nodeId)

/-! ## Deletion -/

/-- `memset(node, 0x0, sizeof(RBNode)); ml_->FreeSlice(node_id); --md_->size`. -/
def freeNode [Zero K] [Zero V] (s : RBTree K V) (id : NodeId) : Option (RBTree K V) := do
  let s := s.store id fun _ => ⟨.red, 0, 0, 0, (0, 0)⟩
  let ml ← s.ml.freeSlice id
  return { s with ml := ml }.setSize (s.size - 1)

/-- Before going left: `MoveRedLeft` when the left child is a 2-node. -/
def Heap.spareLeft (h : Heap K V) (id : NodeId) : Option (Heap K V × NodeId) := do
  let node ← h.node id
  let left ← h.node node.l
  if left.c = .black then
    if !(← h.isRed left.l) then h.moveRedLeft id else return (h, id)
  else return (h, id)

/-- Before going right: `MoveRedRight` when the right child is a 2-node. -/
def Heap.spareRight (h : Heap K V) (id : NodeId) : Option (Heap K V × NodeId) := do
  let node ← h.node id
  match ← h.getPointer node.r with
  | none => return (h, id)
  | some right =>
      if right.c = .black then
        if !(← h.isRed right.l) then h.moveRedRight id else return (h, id)
      else return (h, id)

/-- Borrow from a red left child. -/
def Heap.leanRight (h : Heap K V) (id : NodeId) : Option (Heap K V × NodeId) := do
  let node ← h.node id
  if ← h.isRed node.l then h.rotateRight id else return (h, id)

def deleteMin [Zero K] [Zero V] : Nat → RBTree K V → NodeId → Option (RBTree K V × NodeId)
  | 0, _, _ => none
  | fuel + 1, s, nodeId => do
      let node ← s.nodes.node nodeId
      if node.l = kInvalidNodeId then
        guard (node.c = .red)
        return (← s.freeNode nodeId, kInvalidNodeId)
      else
        let (s, nodeId) ← s.onNodes fun h => h.spareLeft nodeId
        let node ← s.nodes.node nodeId
        let (s, child) ← deleteMin fuel s node.l
        let s := s.store nodeId fun n => { n with l := child }
        s.onNodes fun h => h.keepBalance nodeId

/-- `if (p->l == node_id) p->l = successor_id; else p->r = successor_id`, when there is a parent. -/
def Heap.redirect (h : Heap K V) (p nodeId successorId : NodeId) : Option (Heap K V) :=
  (h.getPointer p).map fun parent => match parent with
    | none => h
    | some parent =>
        if parent.l = nodeId then h.store p fun n => { n with l := successorId }
        else h.store p fun n => { n with r := successorId }

/-- The successor is deeper in the right subtree: the two nodes trade places. -/
def Heap.swapFar (h : Heap K V) (nodeId successorId : NodeId) : Option (Heap K V) := do
  let node ← h.node nodeId
  let successor ← h.node successorId
  let h ← h.redirect node.p nodeId successorId
  let h ← h.setParent node.l successorId
  let h ← h.setParent node.r successorId
  let p ← h.node successor.p
  guard (p.l = successorId)
  let h := h.store successor.p fun n => { n with l := nodeId }
  let h ← h.setParent successor.r nodeId
  let (a, b) := (h successorId, h nodeId)
  let h := h.store successorId fun n => { n with p := b.p, l := b.l, r := b.r, c := b.c }
  return h.store nodeId fun n => { n with p := a.p, l := a.l, r := a.r, c := a.c }

/-- The successor is the right child itself. `node->r` is taken from the new `successor->r`, which is the node. -/
def Heap.swapNear (h : Heap K V) (nodeId successorId : NodeId) : Option (Heap K V) := do
  let node ← h.node nodeId
  let successor ← h.node successorId
  guard (nodeId = successor.p)
  let h ← h.redirect node.p nodeId successorId
  let h ← h.setParent node.l successorId
  let h ← h.setParent successor.r nodeId
  let h := h.store successorId fun n => { n with p := (h nodeId).p }
  let h := h.store nodeId fun n => { n with p := successorId }
  let h := h.store successorId fun n => { n with l := (h nodeId).l }
  let h := h.store nodeId fun n => { n with l := kInvalidNodeId }
  let h := h.store successorId fun n => { n with r := nodeId }
  let h := h.store nodeId fun n => { n with r := (h successorId).r }
  let (a, b) := (h successorId, h nodeId)
  let h := h.store successorId fun n => { n with c := b.c }
  return h.store nodeId fun n => { n with c := a.c }

/-- The node changes places with its successor, and is deleted there. -/
def deleteHere [Zero K] [Zero V] (fuel : Nat) (s : RBTree K V) (nodeId : NodeId) : Option (RBTree K V × NodeId) := do
  let node ← s.nodes.node nodeId
  let successorId ← s.nodes.getMin s.limit node.r
  let successor ← s.nodes.node successorId
  guard (successor.l = kInvalidNodeId)
  let h ← if successorId ≠ node.r then s.nodes.swapFar nodeId successorId else s.nodes.swapNear nodeId successorId
  let s := { s with nodes := h }
  let node ← s.nodes.node successorId
  let (s, child) ← deleteMin fuel s node.r
  let s := s.store successorId fun n => { n with r := child }
  s.onNodes fun h => h.keepBalance successorId

/-- `Delete`: the inner `none` is `throw 0`. -/
def delete [Zero K] [Zero V] (key : K) : Nat → RBTree K V → NodeId → Option (RBTree K V × Option NodeId)
  | 0, _, _ => none
  | fuel + 1, s, nodeId => do
      let node ← s.nodes.node nodeId
      if cmp.less key node.v.1 then
        if node.l = kInvalidNodeId then return (s, none)
        else
          let (s, nodeId) ← s.onNodes fun h => h.spareLeft nodeId
          let node ← s.nodes.node nodeId
          match ← delete key fuel s node.l with
          | (s, none) => return (s, none)
          | (s, some child) =>
              let s := s.store nodeId fun n => { n with l := child }
              let (s, id) ← s.onNodes fun h => h.keepBalance nodeId
              return (s, some id)
      else
        let (s, nodeId) ← s.onNodes fun h => h.leanRight nodeId
        let node ← s.nodes.node nodeId
        if cmp.equiv key node.v.1 && node.r = kInvalidNodeId then
          return (← s.freeNode nodeId, some kInvalidNodeId)
        else
          let (s, nodeId) ← s.onNodes fun h => h.spareRight nodeId
          let node ← s.nodes.node nodeId
          if cmp.equiv key node.v.1 then
            let (s, id) ← s.deleteHere fuel nodeId
            return (s, some id)
          else if node.r = kInvalidNodeId then return (s, none)
          else
            match ← delete key fuel s node.r with
            | (s, none) => return (s, none)
            | (s, some child) =>
                let s := s.store nodeId fun n => { n with r := child }
                let (s, id) ← s.onNodes fun h => h.keepBalance nodeId
                return (s, some id)

/-! ## The public interface -/

/-- `CreateFrom`: the inner `none` is `NULL`. `nodes` is what the payloads hold before. -/
def createFrom (start len nodeSize : Nat) (mem : Mem) (nodes : Heap K V) : Option (Option (RBTree K V)) :=
  if len < kHeaderSize then some none
  else
    (MemoryList.createFrom (toSize (start + kHeaderSize)) (len - kHeaderSize) nodeSize mem).map
      (Option.map fun ml => ⟨kInvalidNodeId, 0, 0, ml, nodes⟩)

def find (s : RBTree K V) (key : K) : Option NodeId := s.nodes.get cmp key s.limit s.root

def count (s : RBTree K V) (key : K) : Option Nat := (s.find cmp key).map fun id => if id = kInvalidNodeId then 0 else 1

/-- The second half of `insert`: the root is painted black. -/
def blackenRoot (s : RBTree K V) : Option (RBTree K V) := do
  let node ← s.nodes.node s.root
  if node.c = .red then
    return { s.store s.root fun n => { n with c := .black } with depth := toSize (s.depth + 1) }
  else return s

def insert (s : RBTree K V) (key : K) (val : V) : Option (RBTree K V × NodeId × Bool) := do
  let iter ← s.find cmp key
  if iter = kInvalidNodeId then
    if s.size = s.maxSize then return (s, kInvalidNodeId, false)
    else
      let (s, root) ← s.put cmp key val s.limit s.root
      let s ← { s with root := root }.blackenRoot
      return (s, ← s.find cmp key, true)
  else return (s, iter, false)

/-- `operator[]`: the node of the key, or `none` for `bad_alloc`. A new node holds an uninitialised value. -/
def index (junk : V) (s : RBTree K V) (key : K) : Option (RBTree K V × Option NodeId) := do
  let iter ← s.find cmp key
  if iter = kInvalidNodeId then
    let (s, id, _) ← s.insert cmp key junk
    return (s, if id = kInvalidNodeId then none else some id)
  else return (s, some iter)

/-- `tree[key] = val`; `false` is `bad_alloc`. -/
def assign (junk : V) (s : RBTree K V) (key : K) (val : V) : Option (RBTree K V × Bool) := do
  match ← s.index cmp junk key with
  | (s, none) => return (s, false)
  | (s, some id) =>
      let _ ← s.nodes.node id
      return (s.store id fun n => { n with v := (n.v.1, val) }, true)

/-- `if (md_->root != kInvalidNodeId) GetPointer(md_->root)->c = kBlack`. -/
def restoreRoot (s : RBTree K V) : Option (RBTree K V) := do
  if s.root = kInvalidNodeId then return s
  else
    let _ ← s.nodes.node s.root
    return s.store s.root fun n => { n with c := .black }

def erase [Zero K] [Zero V] (s : RBTree K V) (key : K) : Option (RBTree K V × Nat) := do
  if s.root = kInvalidNodeId then return (s, 0)
  else
    let _ ← s.nodes.node s.root
    let s := s.store s.root fun n => { n with c := .red }
    match ← s.delete cmp key s.limit s.root with
    | (s, some root) => return (← { s with root := root }.restoreRoot, 1)
    | (s, none) => return (← s.restoreRoot, 0)

def clear (s : RBTree K V) : Option (RBTree K V) := do
  let ml ← s.ml.clear
  return { s with ml := ml, size := 0, depth := 0, root := kInvalidNodeId }

def begin (s : RBTree K V) : Option NodeId :=
  if s.root = kInvalidNodeId then some kInvalidNodeId else s.nodes.getMin s.limit s.root

/-- The pair an iterator points to; `end()` points to none. -/
def entry (s : RBTree K V) (id : NodeId) : Option (K × V) := if id = kInvalidNodeId then none else some (s.nodes id).v

/-- What an iteration from `id` to `end()` meets. -/
def entriesFrom (s : RBTree K V) : Nat → NodeId → Option (List (K × V))
  | 0, _ => none
  | fuel + 1, id =>
      if id = kInvalidNodeId then some []
      else do
        let node ← s.nodes.node id
        let next ← s.nodes.getNext s.limit id
        let rest ← s.entriesFrom fuel next
        return node.v :: rest

/-- What an iteration from `begin()` to `end()` meets. -/
def entries (s : RBTree K V) : Option (List (K × V)) := do
  let first ← s.begin
  s.entriesFrom s.limit first

end RBTree
end Snippets
