import Snippets.Lib.Run

/-!
# `Lib.BoundedDeque` — bounded double-ended sequences with handles

At most `cap` values in a row, each under a handle of type `ι` that names it for as long as it is there; `nil` names
nothing. Values come and go at both ends, and a value in the middle can be taken out by its handle. Which handle a new
value gets is left open: any that is not in use.
-/

namespace Snippets
namespace Lib

/-- The two ends of a sequence. -/
inductive End
  | front
  | back
deriving DecidableEq

namespace End

variable {α β : Type*}

/-- The end across. -/
def other : End → End
  | front => back
  | back => front

/-- The sequence read from an end. -/
def order : End → List α → List α
  | front, xs => xs
  | back, xs => xs.reverse

/-- A new element at an end. -/
def push : End → α → List α → List α
  | front, x, xs => x :: xs
  | back, x, xs => xs ++ [x]

@[simp] theorem order_nil (e : End) : e.order ([] : List α) = [] := by
  cases e <;> rfl

@[simp] theorem order_order (e : End) (xs : List α) : e.order (e.order xs) = xs := by
  cases e with
  | front => rfl
  | back => exact List.reverse_reverse xs

/-- From the other end the order is the reverse. -/
theorem order_other (e : End) (xs : List α) : e.other.order xs = (e.order xs).reverse := by
  cases e with
  | front => rfl
  | back => exact (List.reverse_reverse xs).symm

/-- A new element is the first from its end. -/
theorem order_push (e : End) (x : α) (xs : List α) : e.order (e.push x xs) = x :: e.order xs := by
  cases e with
  | front => rfl
  | back => simp [order, push]

/-- And what is first from an end was pushed there. -/
theorem push_order (e : End) (x : α) (xs : List α) : e.push x (e.order xs) = e.order (x :: xs) := by
  cases e with
  | front => rfl
  | back => simp [order, push]

/-- Reading from an end and mapping commute. -/
theorem map_order (e : End) (f : α → β) (xs : List α) : (e.order xs).map f = e.order (xs.map f) := by
  cases e with
  | front => rfl
  | back => exact List.map_reverse

/-- A mapped element is pushed into the mapped sequence. -/
theorem map_push (e : End) (f : α → β) (x : α) (xs : List α) : (e.push x xs).map f = e.push (f x) (xs.map f) := by
  cases e <;> simp [push]

/-- The order does not matter for what is there. -/
theorem perm_order (e : End) (xs : List α) : (e.order xs).Perm xs := by
  cases e with
  | front => exact List.Perm.refl xs
  | back => exact List.reverse_perm xs

/-- What is there after a push. -/
theorem perm_push (e : End) (x : α) (xs : List α) : (e.push x xs).Perm (x :: xs) := by
  cases e with
  | front => exact List.Perm.refl _
  | back => exact List.perm_append_singleton x xs

/-- A sequence that is not empty has an element at each end. -/
theorem exists_push (e : End) {xs : List α} (h : xs ≠ []) : ∃ x rest, xs = e.push x rest := by
  cases hxs : e.order xs with
  | nil =>
      rw [← order_order e xs, hxs, order_nil] at h
      exact absurd rfl h
  | cons x rest =>
      refine ⟨x, e.order rest, ?_⟩
      rw [push_order, ← hxs, order_order]

end End

namespace BoundedDeque

variable {ι T : Type*}

/-- The calls on a deque. -/
inductive Op (ι T : Type*)
  | push (e : End) (val : T)
  | pop (e : End)
  | peek (e : End)
  | unlink (id : ι)
  | erase (id : ι)
  | size
  | clear

/-- What a call returns. -/
inductive Answer (ι T : Type*)
  | pushed (id : ι)
  | value (val : T)
  | position (id : ι)
  | counted (n : Nat)
  | cleared
deriving DecidableEq

/-- The handles in use. -/
def ids (xs : List (ι × T)) : List ι := xs.map Prod.fst

/-- What may be called: an end is there, a handle is in use. -/
def Legal (xs : List (ι × T)) : Op ι T → Prop
  | .pop _ => xs ≠ []
  | .peek _ => xs ≠ []
  | .unlink id => id ∈ ids xs
  | .erase id => id ∈ ids xs
  | _ => True

/-- A call, its answer, and the sequence after it. An erased value answers with the position behind it. -/
inductive Step (nil : ι) (cap : Nat) : List (ι × T) → Op ι T × Answer ι T → List (ι × T) → Prop
  | full {xs : List (ι × T)} {e : End} {val : T} :
      xs.length = cap → Step nil cap xs (.push e val, .pushed nil) xs
  | push {xs : List (ι × T)} {e : End} {val : T} {id : ι} :
      xs.length < cap → id ≠ nil → id ∉ ids xs → Step nil cap xs (.push e val, .pushed id) (e.push (id, val) xs)
  | pop {xs : List (ι × T)} {e : End} {x : ι × T} : Step nil cap (e.push x xs) (.pop e, .value x.2) xs
  | peek {xs : List (ι × T)} {e : End} {x : ι × T} : Step nil cap (e.push x xs) (.peek e, .value x.2) (e.push x xs)
  | unlink {as bs : List (ι × T)} {x : ι × T} :
      Step nil cap (as ++ x :: bs) (.unlink x.1, .value x.2) (as ++ bs)
  | erase {as bs : List (ι × T)} {x : ι × T} :
      Step nil cap (as ++ x :: bs) (.erase x.1, .position ((ids bs).headD nil)) (as ++ bs)
  | size {xs : List (ι × T)} : Step nil cap xs (.size, .counted xs.length) xs
  | clear {xs : List (ι × T)} : Step nil cap xs (.clear, .cleared) []

variable {nil id : ι} {cap : Nat} {xs xs' : List (ι × T)} {e : End} {val : T} {answer : Answer ι T}

/-- A push with a handle has put the value there. -/
theorem Step.of_pushed (h : Step nil cap xs (.push e val, .pushed id) xs') (hid : id ≠ nil) : xs' = e.push (id, val) xs := by
  cases h with
  | full _ => exact absurd rfl hid
  | push _ _ _ => rfl

/-- A push without one has changed nothing. -/
theorem Step.of_refused (h : Step nil cap xs (.push e val, .pushed nil) xs') : xs' = xs := by
  cases h with
  | full _ => rfl
  | push _ hid _ => exact absurd rfl hid

/-- An unlink takes one away. -/
theorem Step.length_unlink (h : Step nil cap xs (.unlink id, answer) xs') : xs.length = xs'.length + 1 := by
  cases h
  simp only [List.length_append, List.length_cons]
  omega

end BoundedDeque

end Lib
end Snippets
