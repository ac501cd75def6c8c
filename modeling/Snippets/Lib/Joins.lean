import Mathlib.Data.List.Basic

/-!
# `Lib.Joins` — sequences put together without cutting an item

`Joins items blocks`: every block is some of the items in full, one after another, and the blocks in order
hold all the items in order. A buffer, a packet or a file that takes whole items is such a block, and so is
one that takes whole blocks (`Joins.trans`).
-/

namespace Snippets
namespace Lib

variable {α : Type*} {items blocks files : List (List α)}

/-- The blocks are the items, grouped. -/
def Joins (items blocks : List (List α)) : Prop :=
  ∃ groups : List (List (List α)), groups.flatten = items ∧ blocks = groups.map List.flatten

namespace Joins

/-- No byte is lost, added or moved. -/
theorem flatten (h : Joins items blocks) : blocks.flatten = items.flatten := by
  obtain ⟨groups, rfl, rfl⟩ := h
  rw [List.flatten_flatten]

/-- An item that gets a block of its own. -/
theorem snoc (h : Joins items blocks) (x : List α) : Joins (items ++ [x]) (blocks ++ [x]) := by
  obtain ⟨groups, rfl, rfl⟩ := h
  exact ⟨groups ++ [[x]], by simp, by simp⟩

/-- An item that joins the last block. -/
theorem extend {b : List α} (h : Joins items (blocks ++ [b])) (x : List α) :
    Joins (items ++ [x]) (blocks ++ [b ++ x]) := by
  obtain ⟨groups, rfl, hblocks⟩ := h
  obtain ⟨front, last, rfl, rfl, hlast⟩ := List.map_eq_append_iff.mp hblocks.symm
  obtain ⟨g, rfl, rfl⟩ := List.map_eq_singleton_iff.mp hlast
  exact ⟨front ++ [g ++ [x]], by simp, by simp⟩

/-- A block with nothing in it may be left out, when no item is empty. -/
theorem dropEmpty (h : Joins items (blocks ++ [[]])) (hitems : ∀ x ∈ items, x ≠ []) : Joins items blocks := by
  obtain ⟨groups, rfl, hblocks⟩ := h
  obtain ⟨front, last, rfl, rfl, hlast⟩ := List.map_eq_append_iff.mp hblocks.symm
  obtain ⟨g, rfl, hg⟩ := List.map_eq_singleton_iff.mp hlast
  obtain rfl : g = [] := by
    cases g with
    | nil => rfl
    | cons x xs =>
        have hx : x = [] := (List.flatten_eq_nil_iff.mp hg) x (by simp)
        exact absurd hx (hitems x (by simp))
  exact ⟨front, by simp, rfl⟩

/-- Blocks of blocks. -/
theorem trans (h₁ : Joins items blocks) (h₂ : Joins blocks files) : Joins items files := by
  obtain ⟨chunks, hchunks, rfl⟩ := h₂
  induction chunks generalizing items blocks with
  | nil =>
      obtain ⟨groups, rfl, hblocks⟩ := h₁
      exact ⟨groups, rfl, by simpa [← hchunks] using hblocks⟩
  | cons c chunks ih =>
      -- the items of the first file's blocks, and the rest
      obtain ⟨groups, rfl, rfl⟩ := h₁
      obtain ⟨g₁, g₂, rfl, hg₁, hg₂⟩ := List.map_eq_append_iff.mp hchunks.symm
      obtain ⟨rest, hrest, hfiles⟩ := ih ⟨g₂, rfl, rfl⟩ hg₂.symm
      refine ⟨g₁.flatten :: rest, by simp [hrest], ?_⟩
      rw [List.map_cons, List.map_cons, ← hfiles, ← hg₁, List.flatten_flatten]

end Joins

end Lib
end Snippets
