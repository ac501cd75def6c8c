import Mathlib.Data.List.Nodup

/-!
# `Lib.Thread` — singly linked lists in a table

Cells have a `next` id each; `nil` ends a list. `Thread next nil h is` says that following `next` from `h` visits exactly
`is`. A thread is determined by its head (`Thread.unique`), so it visits no cell twice (`Thread.nodup`), and it depends
only on the links of its own cells (`Thread.congr`). A cell is put before the head (`Thread.push`), and a cell is taken
from the head (its tail is the rest) or from behind another one (`Thread.unlink`).
-/

namespace Snippets
namespace Lib

/-- Following `next` from `h` visits `is` and ends in `nil`. -/
def Thread {ι : Type*} (next : ι → ι) (nil : ι) : ι → List ι → Prop
  | h, [] => h = nil
  | h, i :: is => h = i ∧ i ≠ nil ∧ Thread next nil (next i) is

namespace Thread

variable {ι : Type*} {next next' : ι → ι} {nil h i a : ι} {is js pre suf : List ι}

theorem congr (ht : Thread next nil h is) (heq : ∀ i ∈ is, next' i = next i) : Thread next' nil h is := by
  induction is generalizing h with
  | nil => exact ht
  | cons i is ih =>
      obtain ⟨hh, hne, hrest⟩ := ht
      refine ⟨hh, hne, ?_⟩
      rw [heq i List.mem_cons_self]
      exact ih hrest fun j hj => heq j (List.mem_cons_of_mem _ hj)

theorem ne_nil (ht : Thread next nil h is) : ∀ i ∈ is, i ≠ nil := by
  induction is generalizing h with
  | nil =>
      intro i hi
      cases hi
  | cons j is ih =>
      intro i hi
      rcases List.mem_cons.mp hi with rfl | hi
      · exact ht.2.1
      · exact ih ht.2.2 i hi

theorem head_eq_nil_iff (ht : Thread next nil h is) : h = nil ↔ is = [] := by
  cases is with
  | nil => exact iff_of_true ht rfl
  | cons i is =>
      obtain ⟨rfl, hne, -⟩ := ht
      simp [hne]

/-- The head determines what is visited. -/
theorem unique (ht : Thread next nil h is) (ht' : Thread next nil h js) : is = js := by
  induction is generalizing h js with
  | nil =>
      cases js with
      | nil => rfl
      | cons j js =>
          obtain ⟨hh, hne, -⟩ := ht'
          exact absurd (hh.symm.trans ht) hne
  | cons i is ih =>
      obtain ⟨rfl, hne, hrest⟩ := ht
      cases js with
      | nil => exact absurd ht' hne
      | cons j js =>
          obtain ⟨rfl, -, hrest'⟩ := ht'
          rw [ih hrest hrest']

/-- What follows a cell of a thread. -/
theorem after (ht : Thread next nil h (pre ++ i :: suf)) : Thread next nil (next i) suf := by
  induction pre generalizing h with
  | nil => exact ht.2.2
  | cons j pre ih => exact ih ht.2.2

/-- No cell is visited twice. -/
theorem nodup (ht : Thread next nil h is) : is.Nodup := by
  induction is generalizing h with
  | nil => exact List.nodup_nil
  | cons i is ih =>
      obtain ⟨rfl, hne, hrest⟩ := ht
      refine List.nodup_cons.mpr ⟨?_, ih hrest⟩
      intro hmem
      -- a second visit would go on as the first one did
      obtain ⟨pre, suf, rfl⟩ := List.append_of_mem hmem
      have heq := unique hrest.after hrest
      have hlen := congrArg List.length heq
      rw [List.length_append, List.length_cons] at hlen
      omega

variable [DecidableEq ι]

/-- A new head. -/
theorem push (ht : Thread next nil h is) (hne : i ≠ nil) (hnew : i ∉ is) :
    Thread (Function.update next i h) nil i (i :: is) := by
  refine ⟨rfl, hne, ?_⟩
  rw [Function.update_self]
  apply ht.congr
  intro j hj
  apply Function.update_of_ne
  rintro rfl
  exact hnew hj

/-- The cell behind `a` is left out. -/
theorem unlink (ht : Thread next nil h (pre ++ a :: i :: suf)) :
    Thread (Function.update next a (next i)) nil h (pre ++ a :: suf) := by
  induction pre generalizing h with
  | nil =>
      have hnd := ht.nodup
      obtain ⟨rfl, hne, -, -, hrest⟩ := ht
      refine ⟨rfl, hne, ?_⟩
      rw [Function.update_self]
      apply hrest.congr
      intro j hj
      have hja : h ∉ i :: suf := (List.nodup_cons.mp hnd).1
      apply Function.update_of_ne
      rintro rfl
      exact hja (List.mem_cons_of_mem _ hj)
  | cons j pre ih =>
      have hnd := ht.nodup
      obtain ⟨rfl, hne, hrest⟩ := ht
      refine ⟨rfl, hne, ?_⟩
      have hha : h ≠ a := by
        rintro rfl
        exact (List.nodup_cons.mp hnd).1 (by simp)
      rw [Function.update_of_ne hha]
      exact ih hrest

end Thread
end Lib
end Snippets
