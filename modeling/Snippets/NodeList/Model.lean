import Snippets.MemoryList.Runs
import Snippets.Lib.BoundedDeque

/-!
# `NodeList.Model` — `List` of `udpserver/src/base/list.h`

A doubly linked list whose nodes are the payloads of a `MemoryList`'s slices: `nodes id` is what the payload of slice
`id` holds. As for the tree, payloads and slice heads are kept apart (`MemoryList.Runs`), and a failing `assert` or the
use of a null pointer has no result (`none`).

What the source writes out for each end (`push_front` and `push_back`, the pops, `front` and `back`) is one definition
for an `End`. The link of a node *towards* the front is its `prev`, towards the back its `next`.
-/

namespace Snippets

open Lib

namespace NodeList

abbrev NodeId := MemoryList.SliceId

def kInvalidNodeId : NodeId := MemoryList.kInvalidSliceId

/-- `sizeof(Header)`. -/
def kHeaderSize : Nat := 24

def kMagicNumber : Int := 8522338164747840960

structure Header where
  magicNumber : Int
  size : Nat
  head : NodeId
  tail : NodeId

/-- `Header::Init`. -/
def Header.init : Header := ⟨kMagicNumber, 0, kInvalidNodeId, kInvalidNodeId⟩

/-- `head` or `tail`. -/
def Header.endAt (h : Header) : End → NodeId
  | .front => h.head
  | .back => h.tail

def Header.setEnd (h : Header) (e : End) (id : NodeId) : Header :=
  match e with
  | .front => { h with head := id }
  | .back => { h with tail := id }

structure Node (T : Type) where
  prev : NodeId
  next : NodeId
  val : T

def Node.link {T : Type} (n : Node T) : End → NodeId
  | .front => n.prev
  | .back => n.next

def Node.setLink {T : Type} (n : Node T) (e : End) (id : NodeId) : Node T :=
  match e with
  | .front => { n with prev := id }
  | .back => { n with next := id }

end NodeList

/-- `class List`: its header, the allocator and the payloads of its slices. -/
structure NodeList (T : Type) where
  header : NodeList.Header
  ml : MemoryList
  nodes : NodeList.NodeId → NodeList.Node T

namespace NodeList

variable {T : Type}

/-! ## Nodes -/

/-- `GetNode`: the inner `none` is `NULL`, the outer one the failing assert of `GetSliceById`. -/
def getNode (s : NodeList T) (id : NodeId) : Option (Option (Node T)) :=
  if id = kInvalidNodeId then some none else if 0 ≤ id then some (some (s.nodes id)) else none

/-- `GetNode` and then a dereference. -/
def node (s : NodeList T) (id : NodeId) : Option (Node T) := (s.getNode id).join

/-- Change the node behind a pointer. -/
def store (s : NodeList T) (id : NodeId) (change : Node T → Node T) : NodeList T :=
  { s with nodes := Function.update s.nodes id (change (s.nodes id)) }

def setEnd (s : NodeList T) (e : End) (id : NodeId) : NodeList T := { s with header := s.header.setEnd e id }

def setSize (s : NodeList T) (n : Int) : NodeList T := { s with header := { s.header with size := toSize n } }

/-! ## `CreateFrom` -/

/-- `CreateFrom`: the inner `none` is `NULL`. `nodes` is what the payloads hold before. -/
def createFrom (start len nodeSize : Nat) (mem : Mem) (nodes : NodeId → Node T) : Option (Option (NodeList T)) :=
  if len < kHeaderSize then some none
  else
    (MemoryList.createFrom (toSize (start + kHeaderSize)) (len - kHeaderSize) nodeSize mem).map
      (Option.map fun ml => ⟨.init, ml, nodes⟩)

/-! ## Taking out -/

/-- `Unlink`. -/
def unlink (s : NodeList T) (id : NodeId) : Option (NodeList T × T) := do
  guard (id ≠ kInvalidNodeId)
  let node ← s.node id
  let prev ← s.getNode node.prev
  let next ← s.getNode node.next
  let s :=
    if prev.isSome then s.store node.prev fun n => { n with next := (s.nodes id).next }
    else s.setEnd .front (s.nodes id).next
  let s :=
    if next.isSome then s.store node.next fun n => { n with prev := (s.nodes id).prev }
    else s.setEnd .back (s.nodes id).prev
  let s := s.setSize (s.header.size - 1)
  let val := (s.nodes id).val
  let ml ← s.ml.freeSlice id
  return ({ s with ml := ml }, val)

/-- `erase(pos)`: the position behind the erased one. An iterator is its id, `end()` is `kInvalidNodeId`. -/
def erase (s : NodeList T) (pos : NodeId) : Option (NodeList T × NodeId) := do
  guard (pos ≠ kInvalidNodeId)
  let node ← s.node pos
  let (s, _) ← s.unlink pos
  return (s, node.next)

/-- `++` of an iterator. -/
def advance (s : NodeList T) (pos : NodeId) : Option NodeId := do
  guard (pos ≠ kInvalidNodeId)
  let node ← s.node pos
  return node.next

/-- The loop of `erase(first, last)`, which goes on from the node that it has just freed. -/
def eraseLoop (s : NodeList T) (last : NodeId) : Nat → NodeId → Option (NodeList T)
  | fuel, pos =>
      if pos = last then some s
      else
        match fuel with
        | 0 => none
        | fuel + 1 => do
            let (s, _) ← s.erase pos
            let pos ← s.advance pos
            eraseLoop s last fuel pos

/-- `erase(first, last)`: it answers with the position behind `last`. No more nodes are freed than there are. -/
def eraseRange (s : NodeList T) (first last : NodeId) : Option (NodeList T × NodeId) := do
  let res ← s.advance last
  let s ← s.eraseLoop last (s.ml.capacity + 1) first
  return (s, res)

/-! ## Pushing, popping, looking at an end -/

/-- The new node of a list that is empty, seen from the end where it is pushed. -/
def linkFirst (s : NodeList T) (e : End) (id : NodeId) : Option (NodeList T) := do
  guard (s.header.endAt e.other = kInvalidNodeId)
  let s := (s.setEnd e id).setEnd e.other id
  let s := s.store id fun n => { n with prev := kInvalidNodeId }
  return s.store id fun n => { n with next := kInvalidNodeId }

/-- The new node beyond the old end. The assert on the old end is an assignment: it stores `kInvalidNodeId`, and tests
    the value stored. -/
def linkBeyond (s : NodeList T) (e : End) (id : NodeId) : Option (NodeList T) := do
  let old := s.header.endAt e
  let _ ← s.node old
  let s := s.store old fun n => n.setLink e kInvalidNodeId
  guard (((s.nodes old).link e) ≠ 0)
  let s := s.store old fun n => n.setLink e id
  let s := s.store id fun n => n.setLink e kInvalidNodeId
  let s := s.store id fun n => n.setLink e.other old
  return s.setEnd e id

/-- The new node at an end. -/
def link (s : NodeList T) (e : End) (id : NodeId) : Option (NodeList T) :=
  if s.header.endAt e = kInvalidNodeId then s.linkFirst e id else s.linkBeyond e id

/-- `push_front`, `push_back`. -/
def push (e : End) (s : NodeList T) (val : T) : Option (NodeList T × NodeId) :=
  if s.ml.full then some (s, kInvalidNodeId)
  else do
    let (ml, id) ← s.ml.getSlice
    let s := { s with ml := ml }
    let _ ← s.node id
    let s := s.store id fun n => { n with val := val }
    let s ← s.link e id
    return (s.setSize (s.header.size + 1), id)

def pushFront (s : NodeList T) (val : T) : Option (NodeList T × NodeId) := s.push .front val

def pushBack (s : NodeList T) (val : T) : Option (NodeList T × NodeId) := s.push .back val

/-- `pop_front`, `pop_back`. -/
def pop (e : End) (s : NodeList T) : Option (NodeList T × T) := do
  guard (s.header.head ≠ kInvalidNodeId)
  guard (s.header.tail ≠ kInvalidNodeId)
  s.unlink (s.header.endAt e)

def popFront (s : NodeList T) : Option (NodeList T × T) := s.pop .front

def popBack (s : NodeList T) : Option (NodeList T × T) := s.pop .back

/-- `front`, `back`. -/
def peek (e : End) (s : NodeList T) : Option T := do
  guard (s.header.endAt e ≠ kInvalidNodeId)
  let node ← s.node (s.header.endAt e)
  return node.val

def front (s : NodeList T) : Option T := s.peek .front

def back (s : NodeList T) : Option T := s.peek .back

/-! ## Size -/

def size (s : NodeList T) : Option Nat := do
  guard (s.ml.size = s.header.size)
  return s.header.size

def capacity (s : NodeList T) : Nat := s.ml.capacity

def clear (s : NodeList T) : Option (NodeList T) := do
  let ml ← s.ml.clear
  return { s with ml := ml, header := { s.header with size := 0, head := kInvalidNodeId, tail := kInvalidNodeId } }

/-! ## Walking -/

/-- What is met from `id` on, going away from the end `e`. -/
def walkFrom (s : NodeList T) (e : End) : Nat → NodeId → Option (List (NodeId × T))
  | 0, _ => none
  | fuel + 1, id =>
      match s.getNode id with
      | none => none
      | some none => some []
      | some (some node) => (walkFrom s e fuel (node.link e.other)).map fun rest => (id, node.val) :: rest

/-- Following `next` from `head`, or `prev` from `tail`. -/
def walk (s : NodeList T) (e : End) : Option (List (NodeId × T)) := s.walkFrom e (s.capacity + 1) (s.header.endAt e)

/-! ## Calls -/

open BoundedDeque (Op Answer)

/-- One call, with what it returns. -/
def step (s : NodeList T) : Op NodeId T → Option (NodeList T × Answer NodeId T)
  | .push .front val => s.pushFront val |>.map fun r => (r.1, .pushed r.2)
  | .push .back val => s.pushBack val |>.map fun r => (r.1, .pushed r.2)
  | .pop .front => s.popFront.map fun r => (r.1, .value r.2)
  | .pop .back => s.popBack.map fun r => (r.1, .value r.2)
  | .peek .front => s.front.map fun val => (s, .value val)
  | .peek .back => s.back.map fun val => (s, .value val)
  | .unlink id => (s.unlink id).map fun r => (r.1, .value r.2)
  | .erase id => (s.erase id).map fun r => (r.1, .position r.2)
  | .size => s.size.map fun n => (s, .counted n)
  | .clear => s.clear.map fun s => (s, .cleared)

/-- The calls in order, with their answers. -/
def exec : NodeList T → List (Op NodeId T) → Option (NodeList T × List (Answer NodeId T))
  | s, [] => some (s, [])
  | s, op :: ops =>
      match s.step op with
      | none => none
      | some (s, answer) => (exec s ops).map fun r => (r.1, answer :: r.2)

end NodeList
end Snippets
