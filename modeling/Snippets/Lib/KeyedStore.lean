import Mathlib.Data.List.Pairwise

/-!
# `Lib.KeyedStore` — bounded stores of values that carry their key

What a hash table is for: it stores values, at most `cap` of them and at most one under each key. Keys are told apart by
`same`. The value that came last is the first of the list.
-/

namespace Snippets
namespace Lib

/-- At most `cap` values, no two of them with the same key. -/
structure KeyedStore {V K : Type} (key : V → K) (same : K → K → Bool) (cap : Nat) where
  vals : List V
  distinct : vals.Pairwise fun v w => same (key w) (key v) = false
  bounded : vals.length ≤ cap

namespace KeyedStore

variable {V K : Type} {key : V → K} {same : K → K → Bool} {cap : Nat} (s : KeyedStore key same cap)

/-- The value that is stored under a key. -/
def lookup (k : K) : Option V := s.vals.find? fun v => same (key v) k

/-- The store with no values. -/
def empty : KeyedStore key same cap := ⟨[], List.Pairwise.nil, Nat.zero_le _⟩

/-- Nothing is found under a key that no value has. -/
theorem lookup_eq_none {k : K} : s.lookup k = none ↔ ∀ v ∈ s.vals, same (key v) k = false := by
  unfold lookup
  rw [List.find?_eq_none]
  simp only [Bool.not_eq_true]

/-- Add a value under a new key. -/
def add (v : V) (habs : s.lookup (key v) = none) (hroom : s.vals.length ≠ cap) : KeyedStore key same cap where
  vals := v :: s.vals
  distinct := List.pairwise_cons.mpr ⟨s.lookup_eq_none.mp habs, s.distinct⟩
  bounded := by
    have := s.bounded
    rw [List.length_cons]
    omega

/-! ## Calls -/

/-- The calls on a store. -/
inductive Op (V K : Type)
  | insert (v : V)
  | find (k : K)
  | clear

/-- What a call returns; an iterator is the value it points to, if any. -/
inductive Answer (V : Type)
  | inserted (v : V) (new : Bool)
  | full
  | found (v : Option V)
  | cleared
deriving DecidableEq

/-- One call: the value that came first under a key stays, and a full store takes no new key. -/
def step (s : KeyedStore key same cap) : Op V K → KeyedStore key same cap × Answer V
  | .insert v =>
      match habs : s.lookup (key v) with
      | some w => (s, .inserted w false)
      | none => if hroom : s.vals.length = cap then (s, .full) else (s.add v habs hroom, .inserted v true)
  | .find k => (s, .found (s.lookup k))
  | .clear => (empty, .cleared)

/-- A key that is there: the old value is returned. -/
theorem step_insert_present {s : KeyedStore key same cap} {v w : V} (h : s.lookup (key v) = some w) :
    s.step (.insert v) = (s, .inserted w false) := by
  simp only [step]
  split
  · next w' hw =>
      rw [h] at hw
      cases hw
      rfl
  · next hnone =>
      rw [h] at hnone
      cases hnone

/-- A new key when there is no room. -/
theorem step_insert_full {s : KeyedStore key same cap} {v : V} (habs : s.lookup (key v) = none)
    (hfull : s.vals.length = cap) : s.step (.insert v) = (s, .full) := by
  simp only [step]
  split
  · next w hw =>
      rw [habs] at hw
      cases hw
  · rw [dif_pos hfull]

/-- A new key when there is room. -/
theorem step_insert_new {s : KeyedStore key same cap} {v : V} (habs : s.lookup (key v) = none)
    (hroom : s.vals.length ≠ cap) : s.step (.insert v) = (s.add v habs hroom, .inserted v true) := by
  simp only [step]
  split
  · next w hw =>
      rw [habs] at hw
      cases hw
  · rw [dif_neg hroom]

/-- The calls in order, with their answers. -/
def exec : KeyedStore key same cap → List (Op V K) → KeyedStore key same cap × List (Answer V)
  | s, [] => (s, [])
  | s, op :: ops => ((exec (s.step op).1 ops).1, (s.step op).2 :: (exec (s.step op).1 ops).2)

end KeyedStore

end Lib
end Snippets
