import Mathlib.Algebra.Group.Int.Defs
import Mathlib.Algebra.Group.Nat.Defs
import Snippets.Lib.KeyMap
import Snippets.Lib.Thread

/-!
# `HashTable.Model` — `HashTable/main.cc`

Nodes are on a heap: a pointer is a number, 0 is `nullptr`, and `new` gives an address that was never given before (the
source never deletes a node). Using a pointer that is not to a node has no result (`none`). The buckets are as many as the
constructor makes, and all start out as `nullptr`.
-/

namespace Snippets

open Lib

/-- The template's arguments `Hash`, `KeyOfValue` and `Pred`. -/
structure HashTraits (K V : Type) where
  hash : K → Nat
  keyOfValue : V → K
  keyEqual : K → K → Bool

/-- `Pred` is an equality, and equal keys have the same hash. -/
structure HashTraits.Lawful {K V : Type} (tr : HashTraits K V) : Prop where
  refl : ∀ k, tr.keyEqual k k = true
  symm : ∀ {j k}, tr.keyEqual j k = true → tr.keyEqual k j = true
  trans : ∀ {i j k}, tr.keyEqual i j = true → tr.keyEqual j k = true → tr.keyEqual i k = true
  hash : ∀ {j k}, tr.keyEqual j k = true → tr.hash j = tr.hash k

structure HashTableNode (V : Type) where
  next : Nat
  v : V

/-- The table and the heap its nodes are on; `fresh` is the address that `new` gives next. -/
structure HashTable (V : Type) where
  buckets : Nat → Nat
  heap : Nat → Option (HashTableNode V)
  fresh : Nat

namespace HashTable

variable {K V : Type} (tr : HashTraits K V)

/-- `buckets_.size()`. -/
def bucketNum : Nat := 2 ^ 20

/-- The constructor. -/
def empty : HashTable V := ⟨fun _ => 0, fun _ => none, 1⟩

variable (t : HashTable V)

/-- `BucketIndex`. -/
def bucketIndex (k : K) : Nat := tr.hash k % bucketNum

/-- The loop of `Search`. -/
def seek (key : K) : Nat → Nat → Option Nat
  | 0, _ => none
  | fuel + 1, p =>
      if p = 0 then some 0
      else do
        let node ← t.heap p
        if tr.keyEqual key (tr.keyOfValue node.v) then some p else seek key fuel node.next

/-- `Search`; a chain has fewer nodes than there are addresses given. -/
def search (index : Nat) (key : K) : Option Nat := t.seek tr key t.fresh (t.buckets index)

/-- `p->next = q`. -/
def setNext (p q : Nat) : HashTable V :=
  { t with heap := Function.update t.heap p ((t.heap p).map fun node => { node with next := q }) }

def setBucket (index : Nat) (p : Nat) : HashTable V := { t with buckets := Function.update t.buckets index p }

/-- `insert_unique`: the node, and whether it is new. -/
def insertUnique (v : V) : Option (HashTable V × Nat × Bool) := do
  let key := tr.keyOfValue v
  let index := bucketIndex tr key
  let node ← t.search tr index key
  if node = 0 then
    let node := t.fresh
    let t := { t with heap := Function.update t.heap node (some ⟨t.buckets index, v⟩), fresh := t.fresh + 1 }
    return (t.setBucket index node, node, true)
  else return (t, node, false)

/-- The loop of `erase` that looks for the node again: the node before it, or `nullptr`. -/
def previous (node : Nat) : Nat → Nat → Nat → Option Nat
  | 0, _, _ => none
  | fuel + 1, prev, cur =>
      if cur = node then some prev
      else do
        let c ← t.heap cur
        previous node fuel cur c.next

def erase (k : K) : Option (HashTable V × Nat) := do
  let index := bucketIndex tr k
  let node ← t.search tr index k
  if node = 0 then return (t, 0)
  else
    let n ← t.heap node
    let prev ← t.previous node t.fresh 0 (t.buckets index)
    if prev = 0 then return (t.setBucket index n.next, 1) else return (t.setNext prev n.next, 1)

/-- `find`: the iterator's node. -/
def find (k : K) : Option Nat := t.search tr (bucketIndex tr k) k

/-! ## Calls -/

/-- `*iterator`, if it is not `end()`. -/
def value (p : Nat) : Option V := (t.heap p).map HashTableNode.v

/-- One call, with what its iterator points to. -/
def step : KeyMap.Op K V → Option (HashTable V × KeyMap.Answer V)
  | .insert v => do
      let (t, node, new) ← t.insertUnique tr v
      let w ← t.value node
      return (t, .inserted w new)
  | .erase k => (t.erase tr k).map fun r => (r.1, .erased r.2)
  | .find k => (t.find tr k).map fun node => (t, .found (t.value node))

def exec : HashTable V → List (KeyMap.Op K V) → Option (HashTable V × List (KeyMap.Answer V))
  | t, [] => some (t, [])
  | t, op :: ops => do
      let (t, answer) ← t.step tr op
      let (t, answers) ← exec t ops
      return (t, answer :: answers)

end HashTable
end Snippets
