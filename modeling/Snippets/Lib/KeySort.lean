import Mathlib.Order.Lattice
import Mathlib.Data.List.Basic
import Mathlib.Order.Defs.LinearOrder

/-!
# `Lib.KeySort` — stable sorting by a key

`sortByKey` is the stable sort of the standard library on the keys of the elements. A list is determined by its
order and its groups of equal key (`eq_of_groups`), so a stable sort is the concatenation of the groups, in the
order of the keys (`sortByKey_eq`).
-/

namespace Snippets
namespace Lib

variable {α κ : Type} [LinearOrder κ] (key : α → κ)

/-- The elements with this key, in order. -/
def group (xs : List α) (k : κ) : List α := xs.filter fun x => key x = k

/-- The stable sort by key. -/
def sortByKey (xs : List α) : List α := xs.mergeSort fun x y => key x ≤ key y

variable {key} {xs ys : List α}

/-- The elements of a group are those with its key. -/
theorem mem_group {k : κ} {x : α} : x ∈ group key xs k ↔ x ∈ xs ∧ key x = k := by
  unfold group
  rw [List.mem_filter, decide_eq_true_eq]

/-- The first element with a key heads the group of that key. -/
theorem group_cons_self (x : α) : group key (x :: xs) (key x) = x :: group key xs (key x) :=
  List.filter_cons_of_pos (by simp)

/-- **A sorted list is determined by its groups.** -/
theorem eq_of_groups (hx : xs.Pairwise fun x y => key x ≤ key y) (hy : ys.Pairwise fun x y => key x ≤ key y)
    (h : ∀ k, group key xs k = group key ys k) : xs = ys := by
  induction xs generalizing ys with
  | nil =>
      cases ys with
      | nil => rfl
      | cons y ys =>
          have hk := h (key y)
          rw [group_cons_self] at hk
          cases hk
  | cons x xs ih =>
      cases ys with
      | nil =>
          have hk := h (key x)
          rw [group_cons_self] at hk
          cases hk
      | cons y ys =>
          obtain ⟨hxs, hx'⟩ := List.pairwise_cons.mp hx
          obtain ⟨hys, hy'⟩ := List.pairwise_cons.mp hy
          -- each head occurs in the other list, so the keys bound each other
          have hyx : key y ≤ key x := by
            have hmem : x ∈ group key (y :: ys) (key x) := by
              rw [← h (key x), group_cons_self]
              exact List.mem_cons_self
            rcases List.mem_cons.mp (mem_group.mp hmem).1 with rfl | hmem
            · exact le_refl _
            · exact hys x hmem
          have hxy : key x ≤ key y := by
            have hmem : y ∈ group key (x :: xs) (key y) := by
              rw [h (key y), group_cons_self]
              exact List.mem_cons_self
            rcases List.mem_cons.mp (mem_group.mp hmem).1 with rfl | hmem
            · exact le_refl _
            · exact hxs y hmem
          have heq : key x = key y := le_antisymm hxy hyx
          have hhead := h (key x)
          rw [group_cons_self, heq, group_cons_self] at hhead
          obtain ⟨rfl, -⟩ := List.cons.inj hhead
          congr 1
          apply ih hx' hy'
          intro k
          have hk := h k
          unfold group at hk
          by_cases hkey : key x = k
          · rw [List.filter_cons_of_pos (by simpa using hkey), List.filter_cons_of_pos (by simpa using hkey)] at hk
            exact (List.cons.inj hk).2
          · rw [List.filter_cons_of_neg (by simpa using hkey), List.filter_cons_of_neg (by simpa using hkey)] at hk
            exact hk

private theorem le_key_trans (x y z : α) (hxy : decide (key x ≤ key y)) (hyz : decide (key y ≤ key z)) :
    decide (key x ≤ key z) :=
  decide_eq_true (le_trans (of_decide_eq_true hxy) (of_decide_eq_true hyz))

private theorem le_key_total (x y : α) : decide (key x ≤ key y) || decide (key y ≤ key x) := by
  rcases le_total (key x) (key y) with h | h
  · rw [decide_eq_true h, Bool.true_or]
  · rw [decide_eq_true h, Bool.or_true]

/-- The keys are in order. -/
theorem sorted_sortByKey (xs : List α) : (sortByKey key xs).Pairwise fun x y => key x ≤ key y := by
  have h : (sortByKey key xs).Pairwise fun x y => decide (key x ≤ key y) :=
    List.pairwise_mergeSort le_key_trans le_key_total xs
  exact h.imp fun hle => of_decide_eq_true hle

/-- The elements of a group have one key, so every order of them is sorted. -/
theorem group_pairwise (k : κ) : (group key xs k).Pairwise fun x y => key x ≤ key y := by
  apply List.pairwise_of_forall_mem_list
  intro x hx y hy
  rw [(mem_group.mp hx).2, (mem_group.mp hy).2]

/-- A group of a group is the same one, or empty. -/
theorem group_group (k l : κ) : group key (group key xs l) k = if l = k then group key xs l else [] := by
  by_cases hlk : l = k
  · rw [if_pos hlk, ← hlk]
    apply List.filter_eq_self.mpr
    intro x hx
    simpa using (mem_group.mp hx).2
  · rw [if_neg hlk]
    apply List.filter_eq_nil_iff.mpr
    intro x hx hk
    apply hlk
    rw [← (mem_group.mp hx).2]
    simpa using hk

/-- **Stability**: sorting keeps every group as it is. -/
theorem group_sortByKey (xs : List α) (k : κ) : group key (sortByKey key xs) k = group key xs k := by
  have hsorted : (group key xs k).Pairwise fun x y => decide (key x ≤ key y) :=
    (group_pairwise k).imp fun hle => decide_eq_true hle
  have hsub : List.Sublist (group key xs k) (sortByKey key xs) :=
    List.sublist_mergeSort le_key_trans le_key_total hsorted List.filter_sublist
  have hsub' : List.Sublist (group key xs k) (group key (sortByKey key xs) k) := by
    have h := hsub.filter fun x => decide (key x = k)
    have hself : List.filter (fun x => decide (key x = k)) (group key xs k) = group key xs k :=
      (group_group k k).trans (if_pos rfl)
    rw [hself] at h
    exact h
  have hlen : (group key xs k).length = (group key (sortByKey key xs) k).length :=
    ((List.mergeSort_perm xs _).filter _).length_eq.symm
  exact (hsub'.eq_of_length hlen).symm

/-- A group of groups that are put together. -/
theorem group_flatMap {ks : List κ} (hks : ks.Nodup) (k : κ) :
    group key (ks.flatMap (group key xs)) k = if k ∈ ks then group key xs k else [] := by
  induction ks with
  | nil => rfl
  | cons l ks ih =>
      obtain ⟨hl, hks'⟩ := List.nodup_cons.mp hks
      have hsplit : group key ((l :: ks).flatMap (group key xs)) k =
          group key (group key xs l) k ++ group key (ks.flatMap (group key xs)) k := by
        rw [List.flatMap_cons]
        exact List.filter_append _ _
      rw [hsplit, ih hks', group_group]
      by_cases hlk : l = k
      · subst hlk
        simp [hl]
      · have hkl : k ≠ l := Ne.symm hlk
        simp [hlk, hkl]

/-- **A stable sort lists the groups in the order of the keys.** -/
theorem sortByKey_eq {ks : List κ} (hks : ks.Pairwise (· < ·)) (hall : ∀ x ∈ xs, key x ∈ ks) :
    sortByKey key xs = ks.flatMap (group key xs) := by
  apply eq_of_groups (sorted_sortByKey xs)
  · apply List.pairwise_flatMap.mpr
    constructor
    · intro k _
      exact group_pairwise k
    · apply hks.imp
      intro k l hkl x hx y hy
      rw [(mem_group.mp hx).2, (mem_group.mp hy).2]
      exact le_of_lt hkl
  · intro k
    rw [group_sortByKey, group_flatMap (hks.imp fun h => ne_of_lt h)]
    by_cases hk : k ∈ ks
    · rw [if_pos hk]
    · rw [if_neg hk]
      apply List.filter_eq_nil_iff.mpr
      intro x hx hkey
      apply hk
      have heq : key x = k := by simpa using hkey
      rw [← heq]
      exact hall x hx

end Lib
end Snippets
