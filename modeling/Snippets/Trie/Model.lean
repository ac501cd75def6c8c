import Mathlib.Algebra.Group.Nat.Defs
import Mathlib.Data.List.Infix
import Mathlib.Data.List.Dedup

/-!
# `Trie.Model` — `tries/trie/main.cc`

A node owns its children, so the tree below a node is a value, and writing through a pointer to a node gives the tree
with that node changed. The member `c` of a node is written and never read; it is left out. The children of a new node
are all `NULL`, and its `v` is not initialised (`junk`).

Reading past an array, or looking up a character that the alphabet does not have, has no result (`none`).
-/

namespace Snippets

/-- `Alphabet`: the string it is made of, whose indices are to fit the `unsigned` that they are kept in. -/
structure Alphabet where
  chars : List UInt8
  indices_fit : chars.length ≤ 2 ^ 32

namespace Alphabet

/-- The constructor's loop over the characters from `idx` on. -/
def fillIndices : Nat → List UInt8 → (UInt8 → Option Nat) → UInt8 → Option Nat
  | _, [], indices => indices
  | idx, c :: cs, indices => fillIndices (idx + 1) cs (Function.update indices c (some idx))

/-- `ToIndices`. -/
def toIndices (alpha : Alphabet) : UInt8 → Option Nat := fillIndices 0 alpha.chars fun _ => none

/-- `CharNum`. -/
def charNum (alpha : Alphabet) : Nat := alpha.chars.dedup.length

end Alphabet

inductive TrieNode (V : Type) where
  | mk (arr : List (Option (TrieNode V))) (v : V)

namespace TrieNode

variable {V : Type}

def arr : TrieNode V → List (Option (TrieNode V))
  | mk arr _ => arr

def v : TrieNode V → V
  | mk _ v => v

@[simp] theorem arr_mk (arr : List (Option (TrieNode V))) (v : V) : (mk arr v).arr = arr := rfl

@[simp] theorem v_mk (arr : List (Option (TrieNode V))) (v : V) : (mk arr v).v = v := rfl

def setV (node : TrieNode V) (v : V) : TrieNode V := mk node.arr v

/-- `arr[i] = child`. -/
def setChild (node : TrieNode V) (i : Nat) (child : TrieNode V) : TrieNode V := mk (node.arr.set i (some child)) node.v

end TrieNode

namespace Trie

variable {V : Type} (alpha : Alphabet) (junk : V)

def makeTrieNode : TrieNode V := .mk (List.replicate alpha.charNum none) junk

/-- `p->arr[alpha_.ToIndices(c)]`, with the index. -/
def child (p : TrieNode V) (c : UInt8) : Option (Nat × Option (TrieNode V)) := do
  let charIdx ← alpha.toIndices c
  let node ← p.arr[charIdx]?
  return (charIdx, node)

/-- The loop of `Put` at the node `p`: the node afterwards. -/
def putLoop (v : V) : TrieNode V → List UInt8 → Option (TrieNode V)
  | p, [] => some p
  | p, c :: key => do
      let (charIdx, found) ← child alpha p c
      let node := found.getD (makeTrieNode alpha junk)
      let node := if key = [] then node.setV v else node
      let node ← putLoop v node key
      return p.setChild charIdx node

/-- `Put`. -/
def put (root : TrieNode V) (key : List UInt8) (v : V) : Option (TrieNode V) := putLoop alpha junk v root key

/-- The loop of `Get` at the node `p`. -/
def getLoop : TrieNode V → List UInt8 → Option V → Option (Option V)
  | _, [], res => some res
  | p, c :: key, res => do
      let (_, found) ← child alpha p c
      match found with
      | none => return res
      | some node => getLoop node key (if key = [] then some node.v else res)

/-- `Get`. -/
def get (root : TrieNode V) (key : List UInt8) : Option (Option V) := getLoop alpha root key none

/-- Some `Put`s, from a node on. -/
def putAll : TrieNode V → List (List UInt8 × V) → Option (TrieNode V)
  | root, [] => some root
  | root, op :: ops => (put alpha junk root op.1 op.2).bind fun root => putAll root ops

/-- Some `Put`s on a new trie. -/
def build (ops : List (List UInt8 × V)) : Option (TrieNode V) := putAll alpha junk (makeTrieNode alpha junk) ops

end Trie
end Snippets
