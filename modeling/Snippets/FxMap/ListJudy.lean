import Mathlib.Data.Finset.Card
import Mathlib.Data.Fintype.Basic
import Snippets.FxMap.Model

/-!
# `FxMap.ListJudy` — an association list in place of the Judy array

A Judy array that can be read here: the pairs of the indices and their words, in no particular order. The index that `JLF`
and `JLN` stop at is the least of those that are left.
-/

namespace Snippets

namespace FxMap

/-- The word at an index. -/
def get (a : List (Word × Nat)) (i : Word) : Option Nat := (a.find? fun e => e.1 = i).map Prod.snd

/-- **The association list.** `JLI` puts a new index in front, `JLD` filters it out, and `JLF` and `JLN` take the least of the
    indices from the given one on. -/
def listJudy : JudyL (List (Word × Nat)) where
  null := []
  jlg := get
  jli a i := some (if (get a i).isSome then a else (i, 0) :: a)
  write a i w := a.map fun e => if e.1 = i then (i, w) else e
  jld a i := (a.filter fun e => e.1 ≠ i, if (get a i).isSome then 1 else 0)
  jlf a i := ((a.map Prod.fst).filter fun j => i ≤ j).min?
  jln a i := ((a.map Prod.fst).filter fun j => i < j).min?

/-! ## Reading, writing, deleting

The three lemmas are by induction on the list, with the entry in front either the one that is meant or not. -/

/-- The first entry at an index is the one that is found. -/
theorem get_cons (e : Word × Nat) (a : List (Word × Nat)) (i : Word) :
    get (e :: a) i = if e.1 = i then some e.2 else get a i := by
  unfold get
  -- `find?` stops at the entry in front, or goes on
  by_cases h : e.1 = i
  · rw [if_pos h, List.find?_cons_of_pos (by simpa using h)]
    rfl
  · rw [if_neg h, List.find?_cons_of_neg (by simpa using h)]

/-- The indices are the first components. -/
theorem get_isSome (a : List (Word × Nat)) (i : Word) : (get a i).isSome ↔ i ∈ a.map Prod.fst := by
  unfold get
  rw [Option.isSome_map, List.find?_isSome, List.mem_map]
  simp

/-- A word is only written at an index that is there, and nothing else is touched. -/
theorem get_write (a : List (Word × Nat)) (i : Word) (w : Nat) (j : Word) :
    get (listJudy.write a i w) j = if j = i then (get a i).map fun _ => w else get a j := by
  induction a with
  | nil =>
      by_cases hj : j = i
      · rw [if_pos hj]
        rfl
      · rw [if_neg hj]
        rfl
  | cons e a ih =>
      have hcons : listJudy.write (e :: a) i w = (if e.1 = i then (i, w) else e) :: listJudy.write a i w := rfl
      rw [hcons, get_cons, ih, get_cons, get_cons]
      -- the entry in front is the one that is written, or it stays as it is
      by_cases hei : e.1 = i
      · rw [if_pos hei, if_pos hei]
        by_cases hj : j = i
        · rw [if_pos hj.symm, if_pos hj]
          rfl
        · have hej : ¬e.1 = j := fun h => hj (h.symm.trans hei)
          rw [if_neg fun h => hj h.symm, if_neg hj, if_neg hj, if_neg hej]
      · rw [if_neg hei, if_neg hei]
        by_cases hj : j = i
        · rw [if_pos hj, if_pos hj, if_neg fun h => hei (h.trans hj)]
        · rw [if_neg hj, if_neg hj]

/-- A deleted index is gone, and nothing else is touched. -/
theorem get_delete (a : List (Word × Nat)) (i j : Word) :
    get (listJudy.jld a i).1 j = if j = i then none else get a j := by
  induction a with
  | nil =>
      split
      · rfl
      · rfl
  | cons e a ih =>
      -- the entry in front is filtered out, or it stays where it is
      by_cases hei : e.1 = i
      -- filtered out
      · have hcons : (listJudy.jld (e :: a) i).1 = (listJudy.jld a i).1 := by
          show List.filter _ _ = List.filter _ _
          rw [List.filter_cons_of_neg (by simpa using hei)]
        rw [hcons, ih, get_cons]
        by_cases hj : j = i
        · rw [if_pos hj, if_pos hj]
        · rw [if_neg hj, if_neg hj, if_neg fun h => hj (h.symm.trans hei)]
      · have hcons : (listJudy.jld (e :: a) i).1 = e :: (listJudy.jld a i).1 := by
          show List.filter _ _ = e :: List.filter _ _
          rw [List.filter_cons_of_pos (by simpa using hei)]
        rw [hcons, get_cons, get_cons, ih]
        by_cases hj : j = i
        · rw [if_pos hj, if_pos hj, if_neg fun h => hei (h.trans hj)]
        · rw [if_neg hj, if_neg hj]

/-! ## Walking

`JLF` and `JLN` take the minimum of the indices that are left when those below are filtered out, so that nothing
lies between the index they were given and the one they find. -/

/-- The least index with a property, which `JLF` and `JLN` ask for with `i ≤ ·` and `i < ·`. -/
theorem least_spec (a : List (Word × Nat)) (q : Word → Bool) :
    match ((a.map Prod.fst).filter q).min? with
    -- the minimum has it, is in the array, and is below the others that have it
    | some j => q j = true ∧ (get a j).isSome ∧ ∀ l, q l = true → l < j → get a l = none
    -- no index has the property
    | none => ∀ l, q l = true → get a l = none := by
  -- what is not among the filtered indices is not in the array
  have hnone : ∀ l, l ∉ (a.map Prod.fst).filter q → q l = true → get a l = none := by
    intro l hl hq
    rw [← Option.not_isSome_iff_eq_none, get_isSome]
    exact fun hmem => hl (List.mem_filter.mpr ⟨hmem, hq⟩)
  cases hm : ((a.map Prod.fst).filter q).min? with
  | none =>
      intro l hq
      apply hnone l _ hq
      rw [List.min?_eq_none_iff.mp hm]
      exact List.not_mem_nil
  | some j =>
      obtain ⟨hmem, hleast⟩ := List.min?_eq_some_iff.mp hm
      obtain ⟨hmem, hq⟩ := List.mem_filter.mp hmem
      refine ⟨hq, (get_isSome a j).mpr hmem, ?_⟩
      intro l hql hlt
      apply hnone l _ hql
      intro hl
      exact absurd (hleast l hl) (not_le.mpr hlt)

/-- The association list is a Judy array. -/
theorem listJudy_correct : listJudy.Correct where
  null_iff a := by
    constructor
    -- the empty list finds nothing, and a list that finds nothing is empty
    · rintro rfl i
      rfl
    · intro h
      cases a with
      | nil => rfl
      | cons e a =>
          -- the index of the first entry is there
          have he := h e.1
          change get (e :: a) e.1 = none at he
          rw [get_cons, if_pos rfl] at he
          cases he
  insert a i := by
    -- an old index keeps its word, a new one starts with 0
    refine ⟨_, rfl, ?_, ?_⟩
    · show get (if (get a i).isSome then a else (i, 0) :: a) i = some ((get a i).getD 0)
      cases h : get a i with
      | none =>
          rw [if_neg (by simp), get_cons, if_pos rfl]
          rfl
      | some w =>
          rw [if_pos (by rfl), h]
          rfl
    · intro j hj
      show get (if (get a i).isSome then a else (i, 0) :: a) j = get a j
      split
      · rfl
      · rw [get_cons, if_neg fun h => hj h.symm]
  write_self a i w h := by
    obtain ⟨u, hu⟩ := Option.isSome_iff_exists.mp h
    change get a i = some u at hu
    show get (listJudy.write a i w) i = some w
    rw [get_write, if_pos rfl, hu]
    rfl
  write_ne a i w j hj := (get_write a i w j).trans (if_neg hj)
  delete_self a i := (get_delete a i i).trans (if_pos rfl)
  delete_ne a i j hj := (get_delete a i j).trans (if_neg hj)
  deleted a i := rfl
  first a i := by
    have h := least_spec a fun j => i ≤ j
    simp only [decide_eq_true_eq] at h
    exact h
  next a i := by
    have h := least_spec a fun j => i < j
    simp only [decide_eq_true_eq] at h
    exact h

end FxMap
end Snippets
