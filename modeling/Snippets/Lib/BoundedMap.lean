import Mathlib.Data.List.Pairwise
import Snippets.Lib.LeftLeaning

/-!
# `Lib.BoundedMap` — finite maps of bounded size

What an ordered container is for: a finite map from keys to values that holds at most `cap` pairs. Keys are told
apart by a strict weak order, so two keys are the same when neither is less. The pairs are a list in no particular
order; `BoundedMap` carries the facts that its keys are distinct and that it is not too long.
-/

namespace Snippets
namespace Lib

variable {K V : Type}

/-- At most `cap` pairs, no two of them under the same key. -/
structure BoundedMap (cmp : Comparator K) (V : Type) (cap : Nat) where
  pairs : List (K × V)
  distinct : pairs.Pairwise fun a b => cmp.equiv a.1 b.1 = false
  bounded : pairs.length ≤ cap

namespace BoundedMap

variable {cmp : Comparator K} {cap : Nat} (m : BoundedMap cmp V cap)

/-- The pair stored under a key. -/
def lookup (k : K) : Option (K × V) := m.pairs.find? fun p => cmp.equiv k p.1

/-- There is a pair under the key. -/
def has (k : K) : Prop := ∃ p ∈ m.pairs, cmp.equiv k p.1 = true

instance (k : K) : Decidable (m.has k) := by
  unfold has
  infer_instance

/-- The map with no pairs. -/
def empty : BoundedMap cmp V cap := ⟨[], List.Pairwise.nil, Nat.zero_le _⟩

/-- Add a pair under a new key. -/
def add (k : K) (v : V) (habs : ¬ m.has k) (hroom : m.pairs.length ≠ cap) : BoundedMap cmp V cap where
  pairs := (k, v) :: m.pairs
  distinct := by
    refine List.pairwise_cons.mpr ⟨?_, m.distinct⟩
    intro p hp
    rw [Bool.eq_false_iff]
    exact fun heq => habs ⟨p, hp, heq⟩
  bounded := by
    have := m.bounded
    rw [List.length_cons]
    omega

/-- Replace the value under a key. -/
def set (k : K) (v : V) : BoundedMap cmp V cap where
  pairs := m.pairs.map fun p => if cmp.equiv k p.1 then (p.1, v) else p
  distinct := by
    rw [List.pairwise_map]
    refine m.distinct.imp ?_
    intro a b hab
    have hkey : ∀ p : K × V, (if cmp.equiv k p.1 then (p.1, v) else p).1 = p.1 := by
      intro p
      split <;> rfl
    rw [hkey, hkey]
    exact hab
  bounded := by
    rw [List.length_map]
    exact m.bounded

/-- Take the pair of a key away. -/
def remove (k : K) : BoundedMap cmp V cap where
  pairs := m.pairs.filter fun p => !cmp.equiv k p.1
  distinct := m.distinct.filter _
  bounded := le_trans (List.length_filter_le _ _) m.bounded

/-! ## Calls -/

/-- The calls a client makes. -/
inductive Op (K V : Type)
  | insert (k : K) (v : V)
  | assign (k : K) (v : V)
  | find (k : K)
  | count (k : K)
  | clear
  | erase (k : K)

/-- What a call returns; an iterator is the pair it points to, if any. -/
inductive Answer (K V : Type)
  | inserted (pair : Option (K × V)) (new : Bool)
  | assigned (done : Bool)
  | found (pair : Option (K × V))
  | counted (n : Nat)
  | cleared
  | erased (n : Nat)

/-- One call: an insertion never overwrites, and adds nothing to a full map. -/
def step : Op K V → BoundedMap cmp V cap × Answer K V
  | .insert k v =>
      if habs : m.has k then (m, .inserted (m.lookup k) false)
      else if hroom : m.pairs.length = cap then (m, .inserted none false)
      else (m.add k v habs hroom, .inserted (some (k, v)) true)
  | .assign k v =>
      if habs : m.has k then (m.set k v, .assigned true)
      else if hroom : m.pairs.length = cap then (m, .assigned false)
      else (m.add k v habs hroom, .assigned true)
  | .find k => (m, .found (m.lookup k))
  | .count k => (m, .counted (if m.has k then 1 else 0))
  | .clear => (empty, .cleared)
  | .erase k => (m.remove k, .erased (if m.has k then 1 else 0))

/-- The calls in order, with their answers. -/
def exec : BoundedMap cmp V cap → List (Op K V) → BoundedMap cmp V cap × List (Answer K V)
  | m, [] => (m, [])
  | m, op :: ops => ((exec (m.step op).1 ops).1, (m.step op).2 :: (exec (m.step op).1 ops).2)

/-- Every erased key is present when it is erased. -/
def ErasesPresent : BoundedMap cmp V cap → List (Op K V) → Prop
  | _, [] => True
  | m, op :: ops => (∀ k, op = .erase k → m.has k) ∧ ErasesPresent (m.step op).1 ops

/-! ## Lookups -/

variable {m} {k : K} {p : K × V}

/-- Nothing is found under a key that is not there. -/
theorem lookup_none (h : ¬ m.has k) : m.lookup k = none := by
  unfold lookup
  rw [List.find?_eq_none]
  intro p hp heq
  exact h ⟨p, hp, heq⟩

/-- Two pairs with the key are one pair. -/
theorem eq_of_equiv {q : K × V} (hp : p ∈ m.pairs) (hq : q ∈ m.pairs) (hkp : cmp.equiv k p.1 = true)
    (hkq : cmp.equiv k q.1 = true) : p = q := by
  have hsymm : Std.Symm fun a b : K × V => cmp.equiv a.1 b.1 = false := by
    constructor
    intro a b hab
    rw [Bool.eq_false_iff] at hab ⊢
    exact fun hba => hab (Comparator.equiv_symm hba)
  by_contra hne
  have hpq := m.distinct.forall hp hq hne
  rw [Comparator.equiv_trans (Comparator.equiv_symm hkp) hkq] at hpq
  cases hpq

/-- A pair with the key is the pair that is found. -/
theorem lookup_eq (hp : p ∈ m.pairs) (heq : cmp.equiv k p.1 = true) : m.lookup k = some p := by
  unfold lookup
  have hsome : (m.pairs.find? fun q => cmp.equiv k q.1).isSome := by
    rw [List.find?_isSome]
    exact ⟨p, hp, heq⟩
  obtain ⟨q, hq⟩ := Option.isSome_iff_exists.mp hsome
  have hqeq := List.find?_some hq
  rw [hq, eq_of_equiv hp (List.mem_of_find?_eq_some hq) heq hqeq]

end BoundedMap
end Lib
end Snippets
