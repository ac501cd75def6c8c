import Mathlib.Logic.Basic

/-!
# `Lib.KeyMap` — finite maps of values that carry their key

What an associative container without a bound is for: at most one value under each key, the one that came first. Keys are
told apart by `same`; a map is the function from keys to their values.
-/

namespace Snippets
namespace Lib

/-- A map: the value under each key. -/
abbrev KeyMap (K V : Type) := K → Option V

namespace KeyMap

variable {K V : Type}

def empty : KeyMap K V := fun _ => none

inductive Op (K V : Type)
  | insert (v : V)
  | erase (k : K)
  | find (k : K)

/-- What a call returns; an iterator is the value it points to, if any. -/
inductive Answer (V : Type)
  | inserted (v : V) (new : Bool)
  | erased (count : Nat)
  | found (v : Option V)
deriving DecidableEq

variable (key : V → K) (same : K → K → Bool)

/-- A value under a new key. -/
def add (m : KeyMap K V) (v : V) : KeyMap K V := fun k => if same k (key v) then some v else m k

def remove (m : KeyMap K V) (k : K) : KeyMap K V := fun j => if same j k then none else m j

/-- One call: the value that came first under a key stays until it is erased. -/
def step (m : KeyMap K V) : Op K V → KeyMap K V × Answer V
  | .insert v =>
      match m (key v) with
      | some w => (m, .inserted w false)
      | none => (add key same m v, .inserted v true)
  | .erase k =>
      match m k with
      | some _ => (remove same m k, .erased 1)
      | none => (m, .erased 0)
  | .find k => (m, .found (m k))

/-- The calls in order, with their answers. -/
def exec : KeyMap K V → List (Op K V) → KeyMap K V × List (Answer V)
  | m, [] => (m, [])
  | m, op :: ops => ((exec (step key same m op).1 ops).1, (step key same m op).2 :: (exec (step key same m op).1 ops).2)

end KeyMap

end Lib
end Snippets
