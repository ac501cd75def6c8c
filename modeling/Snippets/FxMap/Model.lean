import Mathlib.Algebra.Group.Nat.Defs
import Mathlib.Logic.Function.Basic
import Snippets.Lib.KeyMap

/-!
# `FxMap.Model` — `FX::Map` of `fx/include/map.hpp`

The map keeps the addresses of its values in a Judy array, which is a third-party ordered map from words to words
(`JudyL`); what is relied on is `JudyL.Correct`. A word that was just inserted is 0. Values are on a heap: an address is a
number, 0 is none, and an allocation gives an address that was never given before.

A failing `assert`, and the use of an address that holds nothing, have no result (`none`). The loop of `clear` is run for
as many iterations as there are words, and one more.
-/

namespace Snippets

open Lib

namespace FxMap

/-- `Word_t`. -/
abbrev Word := Fin (2 ^ 64)

/-- The Judy array: `Pvoid_t` and the macros that are used. `JLF` and `JLN` give the index they stop at. -/
structure JudyL (Arr : Type) where
  null : Arr
  jlg : Arr → Word → Option Nat
  jli : Arr → Word → Option Arr
  write : Arr → Word → Nat → Arr
  jld : Arr → Word → Arr × Nat
  jlf : Arr → Word → Option Word
  jln : Arr → Word → Option Word

/-- **A Judy array is an ordered map**, and it is `NULL` when it is empty. -/
structure JudyL.Correct {Arr : Type} (J : JudyL Arr) : Prop where
  null_iff : ∀ a, a = J.null ↔ ∀ i, J.jlg a i = none
  insert : ∀ a i, ∃ a', J.jli a i = some a' ∧ J.jlg a' i = some ((J.jlg a i).getD 0) ∧ ∀ j ≠ i, J.jlg a' j = J.jlg a j
  write_self : ∀ a i w, (J.jlg a i).isSome → J.jlg (J.write a i w) i = some w
  write_ne : ∀ a i w, ∀ j ≠ i, J.jlg (J.write a i w) j = J.jlg a j
  delete_self : ∀ a i, J.jlg (J.jld a i).1 i = none
  delete_ne : ∀ a i, ∀ j ≠ i, J.jlg (J.jld a i).1 j = J.jlg a j
  deleted : ∀ a i, (J.jld a i).2 = if (J.jlg a i).isSome then 1 else 0
  first : ∀ a i, match J.jlf a i with
    | some j => i ≤ j ∧ (J.jlg a j).isSome ∧ ∀ l, i ≤ l → l < j → J.jlg a l = none
    | none => ∀ l, i ≤ l → J.jlg a l = none
  next : ∀ a i, match J.jln a i with
    | some j => i < j ∧ (J.jlg a j).isSome ∧ ∀ l, i < l → l < j → J.jlg a l = none
    | none => ∀ l, i < l → J.jlg a l = none

/-- `Iterator`. -/
structure Iter (Arr V : Type) where
  arr : Arr
  rawKey : Word
  val : V

end FxMap

/-- `FX::Map`, with the heap its values are on; `fresh` is the address that the allocator gives next. -/
structure FxMap (Arr V : Type) where
  arr : Arr
  size : Nat
  heap : Nat → Option V
  fresh : Nat

namespace FxMap

variable {Arr K V : Type} [DecidableEq Arr] [Inhabited V] (J : JudyL Arr) (conv : K → Word)

/-! ## Iterators -/

/-- `iterator()`, which is `end()`. -/
def reset : Iter Arr V := ⟨J.null, 0, default⟩

/-- `iter == end()`. -/
def isEnd (iter : Iter Arr V) : Bool := iter.arr = J.null && iter.rawKey = 0

/-- `Valid`. -/
def valid (iter : Iter Arr V) : Bool := iter.arr ≠ J.null

/-- `Map()`. -/
def new : FxMap Arr V := ⟨J.null, 0, fun _ => none, 1⟩

variable (t : FxMap Arr V)

/-- An iterator at an index that the array has. -/
def iterAt (arr : Arr) (idx : Word) : Option (Iter Arr V) := do
  let ptr ← J.jlg arr idx
  let val ← t.heap ptr
  return ⟨arr, idx, val⟩

/-- `operator++`. -/
def advance (iter : Iter Arr V) : Option (Iter Arr V) :=
  if valid J iter then
    match J.jln iter.arr iter.rawKey with
    | none => some (reset J)
    | some idx => t.iterAt J iter.arr idx
  else some iter

/-- `begin()`. -/
def begin : Option (Iter Arr V) :=
  match J.jlf t.arr 0 with
  | none => some (reset J)
  | some idx => t.iterAt J t.arr idx

/-- What an iterator meets until it is `end()`. -/
def walkFrom : Nat → Iter Arr V → Option (List (Word × V))
  | 0, _ => none
  | fuel + 1, iter =>
      if isEnd J iter then some []
      else do
        let iter' ← t.advance J iter
        let rest ← walkFrom fuel iter'
        return (iter.rawKey, iter.val) :: rest

/-- `begin()` to `end()`. -/
def walk : Option (List (Word × V)) := do
  let first ← t.begin J
  t.walkFrom J (2 ^ 64 + 1) first

/-! ## Members -/

def find (key : K) : Option (Iter Arr V) :=
  match J.jlg t.arr (conv key) with
  | none => some (reset J)
  | some ptr => (t.heap ptr).map fun val => ⟨t.arr, conv key, val⟩

def insert (key : K) (val : V) : Option (FxMap Arr V × Iter Arr V × Bool) := do
  let iter ← t.find J conv key
  if ¬isEnd J iter then return (t, iter, false)
  else
    let idx := conv key
    let arr ← J.jli t.arr idx
    let addr ← J.jlg arr idx
    if addr = 0 then
      let ptr := t.fresh
      let arr := J.write arr idx ptr
      return (⟨arr, (t.size + 1) % 2 ^ 64, Function.update t.heap ptr (some val), t.fresh + 1⟩, ⟨arr, idx, val⟩, true)
    else none

/-- `erase(iterator)`. -/
def eraseAt (pos : Iter Arr V) : Option (FxMap Arr V) :=
  if valid J pos ∧ pos.arr = t.arr then
    let (arr, ret) := J.jld t.arr pos.rawKey
    if ret = 1 then some { t with arr := arr, size := (t.size + (2 ^ 64 - 1)) % 2 ^ 64 } else none
  else none

/-- `erase(key)`. -/
def erase (key : K) : Option (FxMap Arr V × Nat) := do
  let iter ← t.find J conv key
  if isEnd J iter then return (t, 0)
  else
    let t ← t.eraseAt J iter
    return (t, 1)

/-- The loop of `clear`, at the index that `JLF` or `JLN` stopped at. -/
def clearLoop : Nat → FxMap Arr V → Option Word → Option (FxMap Arr V)
  | 0, _, _ => none
  | _ + 1, t, none => some t
  | fuel + 1, t, some idx => do
      let addr ← J.jlg t.arr idx
      let _ ← t.heap addr
      let t := { t with arr := (J.jld t.arr idx).1, heap := Function.update t.heap addr none }
      clearLoop fuel t (J.jln t.arr idx)

def clear : Option (FxMap Arr V) :=
  (clearLoop J (2 ^ 64 + 1) t (J.jlf t.arr 0)).map fun t => { t with arr := J.null }

def empty : Bool := t.size = 0

/-! ## Calls -/

/-- `*iter` under its key, if it is not `end()`. -/
def pointed (key : K) (iter : Iter Arr V) : Option (K × V) := if isEnd J iter then none else some (key, iter.val)

inductive Op (K V : Type)
  | map (op : KeyMap.Op K (K × V))
  | clear

inductive Answer (K V : Type)
  | map (answer : KeyMap.Answer (K × V))
  | cleared
deriving DecidableEq

/-- One call, with what its iterator points to. -/
def step : Op K V → Option (FxMap Arr V × Answer K V)
  | .map (.insert v) => (t.insert J conv v.1 v.2).map fun r => (r.1, .map (.inserted (v.1, r.2.1.val) r.2.2))
  | .map (.erase k) => (t.erase J conv k).map fun r => (r.1, .map (.erased r.2))
  | .map (.find k) => (t.find J conv k).map fun iter => (t, .map (.found (pointed J k iter)))
  | .clear => (t.clear J).map fun t => (t, .cleared)

def exec : FxMap Arr V → List (Op K V) → Option (FxMap Arr V × List (Answer K V))
  | t, [] => some (t, [])
  | t, op :: ops => do
      let (t, answer) ← t.step J conv op
      let (t, answers) ← exec t ops
      return (t, answer :: answers)

end FxMap
end Snippets
