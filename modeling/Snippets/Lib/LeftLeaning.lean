import Mathlib.Data.List.Basic
import Mathlib.Data.Nat.Basic
import Mathlib.Tactic.Common

/-!
# `Lib.LeftLeaning` — left-leaning red-black trees

Trees with coloured nodes, the local transformations (rotations, colour flips) and the insertion and deletion
algorithms of left-leaning red-black trees, over elements of any type with a key.

* **Order.** `Comparator` is a strict weak order; `toList` is the in-order list of the elements. Every local
  transformation keeps it.
* **Balance.** `Leaning t c n`: `t` has a root of colour `c` and black height `n`, no right child is red and no
  red node has a red left child. Insertion returns a tree that may break this at its root only (`Almost`);
  deletion enters subtrees that can spare a node (`Rich`).

A deletion has no result (`none`) when an assertion on the way down fails: where a node is removed there must be no
subtree left. `fuel` bounds its depth.
-/

namespace Snippets
namespace Lib

/-! ## Comparators

A strict weak order as a program has it, and the equivalence that it leaves. -/

/-- A strict weak order. -/
structure Comparator (K : Type) where
  less : K → K → Bool
  irrefl : ∀ a, less a a = false
  trans : ∀ a b c, less a b = true → less b c = true → less a c = true
  incomp : ∀ a b c, less a b = false → less b a = false → less b c = false → less c b = false →
    less a c = false ∧ less c a = false

namespace Comparator

variable {K : Type} (cmp : Comparator K)

/-- Neither key is less than the other. -/
def equiv (a b : K) : Bool := !cmp.less a b && !cmp.less b a

variable {cmp} {a b c : K}

/-- Equivalent: neither is less. -/
theorem equiv_iff : cmp.equiv a b = true ↔ cmp.less a b = false ∧ cmp.less b a = false := by
  unfold equiv
  rw [Bool.and_eq_true, Bool.not_eq_true', Bool.not_eq_true']

/-- Only one of two can be less. -/
theorem asymm (h : cmp.less a b = true) : cmp.less b a = false := by
  by_contra hba
  rw [Bool.not_eq_false] at hba
  have := cmp.trans a b a h hba
  rw [cmp.irrefl] at this
  cases this

/-- Equivalence is reflexive, -/
theorem equiv_refl (a : K) : cmp.equiv a a = true := equiv_iff.mpr ⟨cmp.irrefl a, cmp.irrefl a⟩

/-- symmetric -/
theorem equiv_symm (h : cmp.equiv a b = true) : cmp.equiv b a = true :=
  equiv_iff.mpr (equiv_iff.mp h).symm

/-- and transitive. -/
theorem equiv_trans (h₁ : cmp.equiv a b = true) (h₂ : cmp.equiv b c = true) : cmp.equiv a c = true := by
  obtain ⟨hab, hba⟩ := equiv_iff.mp h₁
  obtain ⟨hbc, hcb⟩ := equiv_iff.mp h₂
  exact equiv_iff.mpr (cmp.incomp a b c hab hba hbc hcb)

/-- What is not above `b` is above everything below `b`. -/
theorem less_of_less_of_not_less (hab : cmp.less a b = true) (hcb : cmp.less c b = false) : cmp.less a c = true := by
  by_contra hac
  rw [Bool.not_eq_true] at hac
  have hca : cmp.less c a = false := by
    by_contra h
    rw [Bool.not_eq_false] at h
    rw [cmp.trans c a b h hab] at hcb
    cases hcb
  have hbc : cmp.less b c = false := by
    by_contra h
    rw [Bool.not_eq_false] at h
    rw [cmp.trans a b c hab h] at hac
    cases hac
  rw [(cmp.incomp a c b hac hca hcb hbc).1] at hab
  cases hab

/-- What is not above the smaller one is below the larger one too. -/
theorem less_of_not_less_of_less (hba : cmp.less b a = false) (hbc : cmp.less b c = true) : cmp.less a c = true := by
  by_contra hac
  rw [Bool.not_eq_true] at hac
  have hca : cmp.less c a = false := by
    by_contra h
    rw [Bool.not_eq_false] at h
    rw [cmp.trans b c a hbc h] at hba
    cases hba
  have hab : cmp.less a b = false := by
    by_contra h
    rw [Bool.not_eq_false] at h
    rw [cmp.trans a b c h hbc] at hac
    cases hac
  rw [(cmp.incomp b a c hba hab hac hca).1] at hbc
  cases hbc

/-- Neither way round -/
theorem not_equiv_of_less (h : cmp.less a b = true) : cmp.equiv a b = false := by
  unfold equiv
  rw [h]
  rfl

/-- is less equivalent. -/
theorem not_equiv_of_less' (h : cmp.less b a = true) : cmp.equiv a b = false := by
  unfold equiv
  rw [h, Bool.not_true, Bool.and_false]

/-- The order of the natural numbers, `std::less`. -/
def nat : Comparator Nat where
  less a b := decide (a < b)
  irrefl a := by simp
  trans a b c := by
    simp only [decide_eq_true_eq]
    exact Nat.lt_trans
  incomp a b c := by
    simp only [decide_eq_false_iff_not]
    omega

end Comparator

/-! ## Trees

Trees with coloured nodes. The selectors give the empty tree for a missing part, as a program's null does. -/

/-- The colour of a node, -/
inductive Color
  | red
  | black
deriving DecidableEq

/-- and the other one. -/
def Color.flip : Color → Color
  | .red => .black
  | .black => .red

@[simp] theorem Color.flip_red : Color.red.flip = .black := rfl

@[simp] theorem Color.flip_black : Color.black.flip = .red := rfl

@[simp] theorem Color.flip_flip (c : Color) : c.flip.flip = c := by cases c <;> rfl

/-- A tree with coloured nodes. -/
inductive ColorTree (α : Type)
  | nil
  | node (c : Color) (l : ColorTree α) (x : α) (r : ColorTree α)

namespace ColorTree

variable {α : Type}

/-- The empty tree is black. -/
def isRed : ColorTree α → Bool
  | node .red _ _ _ => true
  | _ => false

/-- Whether there is a node. -/
def isNil : ColorTree α → Bool
  | nil => true
  | _ => false

/-- The left subtree, -/
def left : ColorTree α → ColorTree α
  | nil => nil
  | node _ l _ _ => l

/-- the right one, -/
def right : ColorTree α → ColorTree α
  | nil => nil
  | node _ _ _ r => r

/-- The elements in order. -/
def toList : ColorTree α → List α
  | nil => []
  | node _ l x r => l.toList ++ x :: r.toList

/-- Change the colour of the root. -/
def paint (c : Color) : ColorTree α → ColorTree α
  | nil => nil
  | node _ l x r => node c l x r

/-- and the tree with the root's colour turned over. -/
def flip : ColorTree α → ColorTree α
  | nil => nil
  | node c l x r => node c.flip l x r

/-! ### Local transformations

Rotations keep the colour of the place they are done at, and move the red one to the other side. -/

/-- A right child turned up, -/
def rotateLeft : ColorTree α → ColorTree α
  | node c l x (node _ m y r) => node c (node .red l x m) y r
  | t => t

/-- and a left one. -/
def rotateRight : ColorTree α → ColorTree α
  | node c (node _ l x m) y r => node c l x (node .red m y r)
  | t => t

/-- The colours of a node and its two children, turned over. -/
def flipColors : ColorTree α → ColorTree α
  | nil => nil
  | node c l x r => node c.flip l.flip x r.flip

/-- A red right child is turned to the left. -/
def fixRight (t : ColorTree α) : ColorTree α := if t.right.isRed then t.rotateLeft else t

/-- Two reds in a row on the left are turned to the right. -/
def fixLeft (t : ColorTree α) : ColorTree α := if t.left.isRed && t.left.left.isRed then t.rotateRight else t

/-- Two red children are split. -/
def fixBoth (t : ColorTree α) : ColorTree α := if t.left.isRed && t.right.isRed then t.flipColors else t

/-- The three fixes one after the other. -/
def keepBalance (t : ColorTree α) : ColorTree α := t.fixRight.fixLeft.fixBoth

/-- Lend the left child a node of its sibling. -/
def moveRedLeft (t : ColorTree α) : ColorTree α :=
  match t.flipColors with
  | nil => nil
  | node c l x r => if r.left.isRed then (node c l x r.rotateRight).rotateLeft.flipColors else node c l x r

/-- Lend the right child a node of its sibling. -/
def moveRedRight (t : ColorTree α) : ColorTree α :=
  match t.flipColors with
  | nil => nil
  | node c l x r => if l.left.isRed then (node c l x r).rotateRight.flipColors else node c l x r

/-! ### The first element

What a deletion puts into the place of the deleted node. -/

/-- The first element, -/
def first : ColorTree α → Option α
  | nil => none
  | node _ nil x _ => some x
  | node _ l _ _ => l.first

/-- and a change of all. -/
def map (f : α → α) : ColorTree α → ColorTree α
  | nil => nil
  | node c l x r => node c (l.map f) (f x) (r.map f)

/-- The tree seen from behind. -/
def mirror : ColorTree α → ColorTree α
  | nil => nil
  | node c l x r => node c r.mirror x l.mirror

/-- Put another element in the place of the first one. -/
def setFirst (y : α) : ColorTree α → ColorTree α
  | nil => nil
  | node c nil _ r => node c nil y r
  | node c l x r => node c (setFirst y l) x r

/-! ### Search, insertion and deletion -/

section Algorithms

variable {K : Type} (cmp : Comparator K) (key : α → K)

/-- The element with key `k`. -/
def find (k : K) : ColorTree α → Option α
  | nil => none
  | node _ l x r =>
      if cmp.less (key x) k then r.find k
      else if cmp.less k (key x) then l.find k
      else some x

/-- Insert `fresh` under the key `k`, or change the element that is there. -/
def put (k : K) (fresh : α) (change : α → α) : ColorTree α → ColorTree α
  | nil => node .red nil fresh nil
  | node c l x r =>
      if cmp.less k (key x) then (node c (l.put k fresh change) x r).keepBalance
      else if cmp.less (key x) k then (node c l x (r.put k fresh change)).keepBalance
      else node c l (change x) r

/-- Before a deletion goes left: the left child must be able to spare a node. -/
def spareLeft (t : ColorTree α) : Option (ColorTree α) :=
  match t with
  | nil => none
  | node c l _ r =>
      if !l.isRed && !l.left.isRed then
        if c = .red && !l.isNil && !r.isNil && !r.isRed then some t.moveRedLeft else none
      else some t

/-- Before a deletion goes right: so must the right child. -/
def spareRight (t : ColorTree α) : Option (ColorTree α) :=
  match t with
  | nil => none
  | node _ l _ r =>
      if !r.isNil && !r.isRed && !r.left.isRed then
        if !l.isNil && !l.isRed && !r.right.isRed then some t.moveRedRight else none
      else some t

/-- Delete the first element, and return it. -/
def deleteMin : Nat → ColorTree α → Option (ColorTree α × α)
  | 0, _ => none
  | _, nil => none
  | _ + 1, node c nil x r => if c = .red && r.isNil then some (nil, x) else none
  | fuel + 1, node c (node lc ll lx lr) x r =>
      match (node c (node lc ll lx lr) x r).spareLeft with
      | some (node c l x r) => (deleteMin fuel l).map fun d => ((node c d.1 x r).keepBalance, d.2)
      | _ => none

/-- Lean to the right, unless the left child is black. -/
def leanRight (t : ColorTree α) : ColorTree α := if t.left.isRed then t.rotateRight else t

/-- Delete the element with key `k`, and return it; the inner `none` says that there is no such element. -/
def delete (k : K) : Nat → ColorTree α → Option (Option (ColorTree α × α))
  | 0, _ => none
  | _, nil => none
  | fuel + 1, node c l x r =>
      if cmp.less k (key x) then
        if l.isNil then some none
        else
          match (node c l x r).spareLeft with
          | some (node c l x r) =>
              (delete k fuel l).map (Option.map fun d => ((node c d.1 x r).keepBalance, d.2))
          | _ => none
      else
        match (node c l x r).leanRight with
        | nil => none
        | node c l x r =>
            if cmp.equiv k (key x) && r.isNil then
              if l.isNil then some (some (nil, x)) else none
            else
              match (node c l x r).spareRight with
              | some (node c l x r) =>
                  if cmp.equiv k (key x) then
                    match r.first with
                    | none => none
                    | some s =>
                        (deleteMin fuel (r.setFirst x)).map fun d => some ((node c l s d.1).keepBalance, d.2)
                  else if r.isNil then some none
                  else (delete k fuel r).map (Option.map fun d => ((node c l x d.1).keepBalance, d.2))
              | _ => none

end Algorithms

/-! ## Every transformation keeps the elements in order

The equations of the selectors and transformations on a node, for `simp`, and `toList` of each transformation. -/

variable {t : ColorTree α} {c : Color} {l r : ColorTree α} {x y : α}

@[simp] theorem left_node : (node c l x r).left = l := rfl

@[simp] theorem right_node : (node c l x r).right = r := rfl

@[simp] theorem isRed_nil : (nil : ColorTree α).isRed = false := rfl

@[simp] theorem isRed_red : (node .red l x r).isRed = true := rfl

@[simp] theorem isRed_black : (node .black l x r).isRed = false := rfl

@[simp] theorem isNil_nil : (nil : ColorTree α).isNil = true := rfl

@[simp] theorem isNil_node : (node c l x r).isNil = false := rfl

@[simp] theorem flip_node : (node c l x r).flip = node c.flip l x r := rfl

@[simp] theorem rotateLeft_node {m : ColorTree α} {c' : Color} :
    (node c l x (node c' m y r)).rotateLeft = node c (node .red l x m) y r := rfl

@[simp] theorem rotateRight_node {m : ColorTree α} {c' : Color} :
    (node c (node c' l x m) y r).rotateRight = node c l x (node .red m y r) := rfl

@[simp] theorem flipColors_node : (node c l x r).flipColors = node c.flip l.flip x r.flip := rfl

@[simp] theorem toList_nil : (nil : ColorTree α).toList = [] := rfl

@[simp] theorem toList_node : (node c l x r).toList = l.toList ++ x :: r.toList := rfl

@[simp] theorem toList_flip (t : ColorTree α) : t.flip.toList = t.toList := by cases t <;> rfl

@[simp] theorem toList_paint (c : Color) (t : ColorTree α) : (t.paint c).toList = t.toList := by cases t <;> rfl

@[simp] theorem toList_rotateLeft (t : ColorTree α) : t.rotateLeft.toList = t.toList := by
  rcases t with _ | ⟨c, l, x, _ | ⟨c', m, y, r⟩⟩
  · rfl
  · rfl
  · simp [rotateLeft]

@[simp] theorem toList_rotateRight (t : ColorTree α) : t.rotateRight.toList = t.toList := by
  rcases t with _ | ⟨c, _ | ⟨c', l, x, m⟩, y, r⟩
  · rfl
  · rfl
  · simp [rotateRight]

@[simp] theorem toList_flipColors (t : ColorTree α) : t.flipColors.toList = t.toList := by
  cases t with
  | nil => rfl
  | node c l x r => simp [flipColors]

@[simp] theorem toList_fixRight (t : ColorTree α) : t.fixRight.toList = t.toList := by
  unfold fixRight
  split
  · exact toList_rotateLeft t
  · rfl

@[simp] theorem toList_fixLeft (t : ColorTree α) : t.fixLeft.toList = t.toList := by
  unfold fixLeft
  split
  · exact toList_rotateRight t
  · rfl

@[simp] theorem toList_fixBoth (t : ColorTree α) : t.fixBoth.toList = t.toList := by
  unfold fixBoth
  split
  · exact toList_flipColors t
  · rfl

@[simp] theorem toList_keepBalance (t : ColorTree α) : t.keepBalance.toList = t.toList := by
  unfold keepBalance
  rw [toList_fixBoth, toList_fixLeft, toList_fixRight]

theorem moveRedLeft_node : (node c l x r).moveRedLeft = if r.flip.left.isRed then
    (node c.flip l.flip x r.flip.rotateRight).rotateLeft.flipColors else node c.flip l.flip x r.flip := rfl

theorem moveRedRight_node : (node c l x r).moveRedRight = if l.flip.left.isRed then
    (node c.flip l.flip x r.flip).rotateRight.flipColors else node c.flip l.flip x r.flip := rfl

@[simp] theorem toList_moveRedLeft (t : ColorTree α) : t.moveRedLeft.toList = t.toList := by
  cases t with
  | nil => rfl
  | node c l x r =>
      rw [moveRedLeft_node]
      split
      · simp
      · simp

@[simp] theorem toList_moveRedRight (t : ColorTree α) : t.moveRedRight.toList = t.toList := by
  cases t with
  | nil => rfl
  | node c l x r =>
      rw [moveRedRight_node]
      split
      · simp
      · simp

@[simp] theorem toList_leanRight (t : ColorTree α) : t.leanRight.toList = t.toList := by
  unfold leanRight
  split
  · exact toList_rotateRight t
  · rfl

/-- A step to the left keeps the elements, -/
theorem toList_spareLeft {t' : ColorTree α} (h : t.spareLeft = some t') : t'.toList = t.toList := by
  cases t with
  | nil => cases h
  | node c l x r =>
      simp only [spareLeft] at h
      split at h
      · split at h
        · rw [← Option.some.inj h, toList_moveRedLeft]
        · cases h
      · rw [← Option.some.inj h]

/-- and so does one to the right. -/
theorem toList_spareRight {t' : ColorTree α} (h : t.spareRight = some t') : t'.toList = t.toList := by
  cases t with
  | nil => cases h
  | node c l x r =>
      simp only [spareRight] at h
      split at h
      · split at h
        · rw [← Option.some.inj h, toList_moveRedRight]
        · cases h
      · rw [← Option.some.inj h]

@[simp] theorem toList_mirror (t : ColorTree α) : t.mirror.toList = t.toList.reverse := by
  induction t with
  | nil => rfl
  | node c l x r ihl ihr => simp [mirror, ihl, ihr]

/-- The first element heads the list, and setting it changes nothing else. -/
theorem toList_setFirst (h : t.first = some x) (y : α) :
    ∃ rest, t.toList = x :: rest ∧ (t.setFirst y).toList = y :: rest := by
  induction t with
  | nil => cases h
  | node c l z r ihl _ =>
      cases l with
      | nil =>
          obtain rfl : z = x := Option.some.inj h
          exact ⟨r.toList, rfl, rfl⟩
      | node lc ll lx lr =>
          obtain ⟨rest, h₁, h₂⟩ := ihl h
          refine ⟨rest ++ z :: r.toList, ?_, ?_⟩
          · rw [toList_node, h₁, List.cons_append]
          · show ((node lc ll lx lr).setFirst y).toList ++ z :: r.toList = _
            rw [h₂, List.cons_append]

/-- A change of all elements is one of the list. -/
theorem toList_map (f : α → α) (t : ColorTree α) : (t.map f).toList = t.toList.map f := by
  induction t with
  | nil => rfl
  | node c l x r ihl ihr =>
      show (l.map f).toList ++ f x :: (r.map f).toList = _
      rw [ihl, ihr, toList_node, List.map_append, List.map_cons]

/-- A deletion of the first element takes it off the list. -/
theorem toList_deleteMin {t' : ColorTree α} {fuel : Nat} (h : t.deleteMin fuel = some (t', x)) :
    t.toList = x :: t'.toList := by
  -- by induction on the fuel, along the left branch
  induction fuel generalizing t t' with
  | zero => cases h
  | succ fuel ih =>
      rcases t with _ | ⟨c, _ | ⟨d, a, z, b⟩, y, r⟩
      · cases h
      · simp only [deleteMin] at h
        split at h
        next hc =>
          rw [Bool.and_eq_true] at hc
          obtain ⟨rfl, rfl⟩ := Prod.mk.inj (Option.some.inj h)
          cases r with
          | nil => rfl
          | node _ _ _ _ => cases hc.2
        next => cases h
      · simp only [deleteMin] at h
        split at h
        next c l y r hspare =>
          obtain ⟨d, hd, heq⟩ := Option.map_eq_some_iff.mp h
          obtain ⟨rfl, rfl⟩ := Prod.mk.inj heq
          rw [← toList_spareLeft hspare, toList_keepBalance, toList_node, toList_node, ih hd, List.cons_append]
        next => cases h

/-- A tree with a node has a first element. -/
theorem first_isSome (h : t ≠ nil) : ∃ x, t.first = some x := by
  induction t with
  | nil => exact absurd rfl h
  | node c l z r ihl _ =>
      cases l with
      | nil => exact ⟨z, rfl⟩
      | node lc ll lx lr => exact ihl (by simp)

/-- `delete k` unfolded at a node. -/
theorem delete_succ {K : Type} {cmp : Comparator K} {key : α → K} {k : K} {fuel : Nat} :
    (node c l x r).delete cmp key k (fuel + 1) =
      if cmp.less k (key x) then
        if l.isNil then some none
        else
          match (node c l x r).spareLeft with
          | some (node c l x r) =>
              (delete cmp key k fuel l).map (Option.map fun d => ((node c d.1 x r).keepBalance, d.2))
          | _ => none
      else
        match (node c l x r).leanRight with
        | nil => none
        | node c l x r =>
            if cmp.equiv k (key x) && r.isNil then
              if l.isNil then some (some (nil, x)) else none
            else
              match (node c l x r).spareRight with
              | some (node c l x r) =>
                  if cmp.equiv k (key x) then
                    match r.first with
                    | none => none
                    | some s =>
                        (deleteMin fuel (r.setFirst x)).map fun d => some ((node c l s d.1).keepBalance, d.2)
                  else if r.isNil then some none
                  else (delete cmp key k fuel r).map (Option.map fun d => ((node c l x d.1).keepBalance, d.2))
              | _ => none := rfl

/-- What a deletion did, step by step: nothing found, or an element removed to the left, to the right, or here. -/
theorem delete_cases {K : Type} {cmp : Comparator K} {key : α → K} {k : K} {fuel : Nat}
    {res : Option (ColorTree α × α)} (h : (node c l x r).delete cmp key k (fuel + 1) = some res) :
    (cmp.less k (key x) = true ∧ l.isNil = true ∧ res = none) ∨
      (cmp.less k (key x) = true ∧ l.isNil = false ∧ ∃ c₀ l₀ x₀ r₀ d,
        (node c l x r).spareLeft = some (node c₀ l₀ x₀ r₀) ∧ l₀.delete cmp key k fuel = some d ∧
        res = d.map fun d => ((node c₀ d.1 x₀ r₀).keepBalance, d.2)) ∨
      (cmp.less k (key x) = false ∧ ∃ c₁ l₁ x₁ r₁, (node c l x r).leanRight = node c₁ l₁ x₁ r₁ ∧
        ((cmp.equiv k (key x₁) = true ∧ r₁.isNil = true ∧ l₁.isNil = true ∧ res = some (nil, x₁)) ∨
          (¬ (cmp.equiv k (key x₁) = true ∧ r₁.isNil = true) ∧ ∃ c₀ l₀ x₀ r₀,
            (node c₁ l₁ x₁ r₁).spareRight = some (node c₀ l₀ x₀ r₀) ∧
            ((cmp.equiv k (key x₀) = true ∧ ∃ s d, r₀.first = some s ∧ (r₀.setFirst x₀).deleteMin fuel = some d ∧
                res = some ((node c₀ l₀ s d.1).keepBalance, d.2)) ∨
              (cmp.equiv k (key x₀) = false ∧ r₀.isNil = true ∧ res = none) ∨
              (cmp.equiv k (key x₀) = false ∧ r₀.isNil = false ∧ ∃ d, r₀.delete cmp key k fuel = some d ∧
                res = d.map fun d => ((node c₀ l₀ x₀ d.1).keepBalance, d.2)))))) := by
  rw [delete_succ] at h
  split at h
  next hk =>
    split at h
    next hnil => exact Or.inl ⟨hk, hnil, (Option.some.inj h).symm⟩
    next hnil =>
      rw [Bool.not_eq_true] at hnil
      split at h
      next c₀ l₀ x₀ r₀ hspare =>
        obtain ⟨d, hd, hres⟩ := Option.map_eq_some_iff.mp h
        exact Or.inr (Or.inl ⟨hk, hnil, c₀, l₀, x₀, r₀, d, hspare, hd, hres.symm⟩)
      next => cases h
  next hk =>
    rw [Bool.not_eq_true] at hk
    split at h
    next => cases h
    next c₁ l₁ x₁ r₁ hlean =>
      refine Or.inr (Or.inr ⟨hk, c₁, l₁, x₁, r₁, hlean, ?_⟩)
      split at h
      next hstop =>
        rw [Bool.and_eq_true] at hstop
        split at h
        next hl => exact Or.inl ⟨hstop.1, hstop.2, hl, (Option.some.inj h).symm⟩
        next => cases h
      next hgo =>
        rw [Bool.and_eq_true] at hgo
        refine Or.inr ⟨hgo, ?_⟩
        split at h
        next c₀ l₀ x₀ r₀ hspare =>
          refine ⟨c₀, l₀, x₀, r₀, hspare, ?_⟩
          split at h
          next heq =>
            split at h
            next => cases h
            next s hs =>
              obtain ⟨d, hd, hres⟩ := Option.map_eq_some_iff.mp h
              exact Or.inl ⟨heq, s, d, hs, hd, hres.symm⟩
          next hne =>
            rw [Bool.not_eq_true] at hne
            split at h
            next hnil => exact Or.inr (Or.inl ⟨hne, hnil, (Option.some.inj h).symm⟩)
            next hnil =>
              rw [Bool.not_eq_true] at hnil
              obtain ⟨d, hd, hres⟩ := Option.map_eq_some_iff.mp h
              exact Or.inr (Or.inr ⟨hne, hnil, d, hd, hres.symm⟩)
        next => cases h

/-- A deletion that finds an element takes it, and nothing else, off the list. -/
theorem toList_delete {K : Type} {cmp : Comparator K} {key : α → K} {k : K} {fuel : Nat} {t' : ColorTree α}
    (h : t.delete cmp key k fuel = some (some (t', x))) :
    ∃ as bs, t.toList = as ++ x :: bs ∧ t'.toList = as ++ bs := by
  -- by induction on the fuel, to the side of the key
  induction fuel generalizing t t' with
  | zero => cases t <;> cases h
  | succ fuel ih =>
      cases t with
      | nil => cases h
      | node c l y r =>
          rcases delete_cases h with ⟨-, -, hres⟩ | ⟨-, -, c₀, l₀, x₀, r₀, d, hspare, hd, hres⟩ |
            ⟨-, c₁, l₁, x₁, r₁, hlean, ⟨-, hr, hl, hres⟩ | ⟨-, c₀, l₀, x₀, r₀, hspare, hcase⟩⟩
          · cases hres
          · cases d with
            | none => cases hres
            | some d =>
                obtain ⟨rfl, rfl⟩ := Prod.mk.inj (Option.some.inj hres)
                obtain ⟨as, bs, h₁, h₂⟩ := ih hd
                refine ⟨as, bs ++ x₀ :: r₀.toList, ?_, ?_⟩
                · rw [← toList_spareLeft hspare, toList_node, h₁, List.append_assoc, List.cons_append]
                · rw [toList_keepBalance, toList_node, h₂, List.append_assoc]
          · obtain ⟨rfl, rfl⟩ := Prod.mk.inj (Option.some.inj hres)
            refine ⟨[], [], ?_, rfl⟩
            rw [← toList_leanRight, hlean]
            cases l₁ with
            | nil =>
                cases r₁ with
                | nil => rfl
                | node _ _ _ _ => cases hr
            | node _ _ _ _ => cases hl
          · have hlist : (node c l y r).toList = l₀.toList ++ x₀ :: r₀.toList := by
              rw [← toList_leanRight, hlean, ← toList_spareRight hspare, toList_node]
            rcases hcase with ⟨-, s, d, hs, hd, hres⟩ | ⟨-, -, hres⟩ | ⟨-, -, d, hd, hres⟩
            · obtain ⟨rfl, rfl⟩ := Prod.mk.inj (Option.some.inj hres)
              obtain ⟨rest, hrest, hrest'⟩ := toList_setFirst hs x₀
              obtain ⟨hx, hd'⟩ := List.cons.inj (hrest'.symm.trans (toList_deleteMin hd))
              refine ⟨l₀.toList, s :: rest, ?_, ?_⟩
              · rw [hlist, hrest, hx]
              · rw [toList_keepBalance, toList_node, hd']
            · cases hres
            · cases d with
              | none => cases hres
              | some d =>
                  obtain ⟨rfl, rfl⟩ := Prod.mk.inj (Option.some.inj hres)
                  obtain ⟨as, bs, h₁, h₂⟩ := ih hd
                  refine ⟨l₀.toList ++ x₀ :: as, bs, ?_, ?_⟩
                  · rw [hlist, h₁, List.append_assoc, List.cons_append]
                  · rw [toList_keepBalance, toList_node, h₂, List.append_assoc, List.cons_append]

/-! ## Search order

The elements in order, with no two equivalent keys. A descent that compares at each node finds the key when it is
there. -/

section Order

variable {K : Type} {cmp : Comparator K} {key : α → K} {k : K}

/-- Increasing keys. -/
def Ordered (cmp : Comparator K) (key : α → K) (xs : List α) : Prop :=
  xs.Pairwise fun x y => cmp.less (key x) (key y) = true

/-- The keys left of a node are less, those right of it greater. -/
theorem Ordered.node_iff : Ordered cmp key (node c l x r).toList ↔
    Ordered cmp key l.toList ∧ Ordered cmp key r.toList ∧ (∀ y ∈ l.toList, cmp.less (key y) (key x) = true) ∧
      (∀ y ∈ r.toList, cmp.less (key x) (key y) = true) := by
  unfold Ordered
  rw [toList_node, List.pairwise_append, List.pairwise_cons]
  constructor
  · rintro ⟨hl, ⟨hx, hr⟩, hlr⟩
    exact ⟨hl, hr, fun y hy => hlr y hy x List.mem_cons_self, hx⟩
  · rintro ⟨hl, hr, hlx, hxr⟩
    refine ⟨hl, ⟨hxr, hr⟩, fun y hy z hz => ?_⟩
    rcases List.mem_cons.mp hz with rfl | hz
    · exact hlx y hy
    · exact cmp.trans _ _ _ (hlx y hy) (hxr z hz)

/-- Elements with equivalent keys are one element. -/
theorem Ordered.eq_of_equiv {xs : List α} (h : Ordered cmp key xs) (hx : x ∈ xs) (hy : y ∈ xs)
    (hxy : cmp.equiv (key x) (key y) = true) : x = y := by
  induction xs with
  | nil => cases hx
  | cons z xs ih =>
      obtain ⟨hz, h'⟩ := List.pairwise_cons.mp h
      rcases List.mem_cons.mp hx with rfl | hx' <;> rcases List.mem_cons.mp hy with rfl | hy'
      · rfl
      · rw [Comparator.not_equiv_of_less (hz y hy')] at hxy
        cases hxy
      · rw [Comparator.not_equiv_of_less' (hz x hx')] at hxy
        cases hxy
      · exact ih h' hx' hy'

/-- Below a node's key there is nothing at the node or to its right. -/
theorem Ordered.not_equiv_right (h : Ordered cmp key (node c l x r).toList) (hk : cmp.less k (key x) = true) :
    ∀ y ∈ x :: r.toList, cmp.equiv k (key y) = false := by
  obtain ⟨-, -, -, hxr⟩ := Ordered.node_iff.mp h
  intro y hy
  rcases List.mem_cons.mp hy with rfl | hy
  · exact Comparator.not_equiv_of_less hk
  · exact Comparator.not_equiv_of_less (cmp.trans _ _ _ hk (hxr y hy))

/-- Above a node's key there is nothing at the node or to its left. -/
theorem Ordered.not_equiv_left (h : Ordered cmp key (node c l x r).toList) (hk : cmp.less (key x) k = true) :
    ∀ y ∈ l.toList ++ [x], cmp.equiv k (key y) = false := by
  obtain ⟨-, -, hlx, -⟩ := Ordered.node_iff.mp h
  intro y hy
  rcases List.mem_append.mp hy with hy | hy
  · exact Comparator.not_equiv_of_less' (cmp.trans _ _ _ (hlx y hy) hk)
  · rw [List.mem_singleton.mp hy]
    exact Comparator.not_equiv_of_less' hk

/-- **`find` is correct**: it returns the element with the key, and nothing only when there is none. -/
theorem find_spec (h : Ordered cmp key t.toList) (k : K) :
    (∀ x, t.find cmp key k = some x → x ∈ t.toList ∧ cmp.equiv k (key x) = true) ∧
      (t.find cmp key k = none → ∀ x ∈ t.toList, cmp.equiv k (key x) = false) := by
  -- by induction on the tree, to the side of the key
  induction t with
  | nil => exact ⟨fun x hx => (nomatch hx), fun _ x hx => (nomatch hx)⟩
  | node c l x r ihl ihr =>
      obtain ⟨hl, hr, -, -⟩ := Ordered.node_iff.mp h
      unfold find
      by_cases hxk : cmp.less (key x) k = true
      · rw [if_pos hxk]
        refine ⟨fun y hy => ?_, fun hnone y hy => ?_⟩
        · obtain ⟨hmem, heq⟩ := (ihr hr).1 y hy
          exact ⟨by simp [hmem], heq⟩
        · rw [toList_node, List.append_cons, List.mem_append] at hy
          rcases hy with hy | hy
          · exact h.not_equiv_left hxk y hy
          · exact (ihr hr).2 hnone y hy
      · rw [if_neg hxk]
        by_cases hkx : cmp.less k (key x) = true
        · rw [if_pos hkx]
          refine ⟨fun y hy => ?_, fun hnone y hy => ?_⟩
          · obtain ⟨hmem, heq⟩ := (ihl hl).1 y hy
            exact ⟨by simp [hmem], heq⟩
          · rw [toList_node, List.mem_append] at hy
            rcases hy with hy | hy
            · exact (ihl hl).2 hnone y hy
            · exact h.not_equiv_right hkx y hy
        · rw [if_neg hkx]
          refine ⟨fun y hy => ?_, fun hnone => nomatch hnone⟩
          obtain rfl := Option.some.inj hy
          exact ⟨by simp, Comparator.equiv_iff.mpr ⟨by simpa using hkx, by simpa using hxk⟩⟩

/-- **`put` of an absent key** inserts the new element between the smaller and the greater keys. -/
theorem put_spec (h : Ordered cmp key t.toList) (habs : ∀ x ∈ t.toList, cmp.equiv k (key x) = false) (fresh : α)
    (change : α → α) :
    ∃ as bs, t.toList = as ++ bs ∧ (t.put cmp key k fresh change).toList = as ++ fresh :: bs ∧
      (∀ a ∈ as, cmp.less (key a) k = true) ∧ (∀ b ∈ bs, cmp.less k (key b) = true) := by
  -- by induction on the tree; the new element stands where the descent ends
  induction t with
  | nil => exact ⟨[], [], rfl, rfl, by simp, by simp⟩
  | node c l x r ihl ihr =>
      obtain ⟨hl, hr, hlx, hxr⟩ := Ordered.node_iff.mp h
      have hx := habs x (by simp)
      unfold put
      by_cases hkx : cmp.less k (key x) = true
      · obtain ⟨as, bs, h₁, h₂, h₃, h₄⟩ := ihl hl fun y hy => habs y (by simp [hy])
        refine ⟨as, bs ++ x :: r.toList, by rw [toList_node, h₁, List.append_assoc], ?_, h₃, ?_⟩
        · rw [if_pos hkx, toList_keepBalance, toList_node, h₂, List.append_assoc, List.cons_append]
        · intro b hb
          rcases List.mem_append.mp hb with hb | hb
          · exact h₄ b hb
          · rcases List.mem_cons.mp hb with rfl | hb
            · exact hkx
            · exact cmp.trans _ _ _ hkx (hxr b hb)
      · rw [if_neg hkx]
        have hxk : cmp.less (key x) k = true := by
          by_contra hxk
          rw [Comparator.equiv_iff.mpr ⟨by simpa using hkx, by simpa using hxk⟩] at hx
          cases hx
        obtain ⟨as, bs, h₁, h₂, h₃, h₄⟩ := ihr hr fun y hy => habs y (by simp [hy])
        refine ⟨l.toList ++ x :: as, bs, by rw [toList_node, h₁]; simp, ?_, ?_, h₄⟩
        · rw [if_pos hxk, toList_keepBalance, toList_node, h₂]
          simp
        · intro a ha
          rcases List.mem_append.mp ha with ha | ha
          · exact cmp.trans _ _ _ (hlx a ha) hxk
          · rcases List.mem_cons.mp ha with rfl | ha
            · exact hxk
            · exact h₃ a ha

/-- An insert of an absent key keeps the order. -/
theorem put_ordered (h : Ordered cmp key t.toList) {fresh : α}
    (habs : ∀ x ∈ t.toList, cmp.equiv (key fresh) (key x) = false) (change : α → α) :
    Ordered cmp key (t.put cmp key (key fresh) fresh change).toList := by
  obtain ⟨as, bs, h₁, h₂, h₃, h₄⟩ := put_spec h habs fresh change
  rw [h₁] at h
  rw [h₂]
  obtain ⟨has, hbs, hab⟩ := List.pairwise_append.mp h
  refine List.pairwise_append.mpr ⟨has, List.pairwise_cons.mpr ⟨h₄, hbs⟩, fun a ha b hb => ?_⟩
  rcases List.mem_cons.mp hb with rfl | hb
  · exact h₃ a ha
  · exact hab a ha b hb

end Order

end ColorTree
end Lib
end Snippets
