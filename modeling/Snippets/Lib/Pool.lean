import Mathlib.Data.List.Range
import Mathlib.Data.List.Perm.Basic

/-!
# `Lib.Pool` — handing out ids

What an allocator of equal cells decides: ids from `lo` on are handed out one after another, up to `hi`, and an id that was
given back is handed out again before a new one, the last one first. `Within` says that the ids handed out so far are the
free ones and the live ones, each once. An id that is handed out, new or free, was not live (`next_not_live`,
`not_live_of_free`), and the ids stay within the bounds (`bump`, `pop`, `give`).
-/

namespace Snippets
namespace Lib

/-- The next new id, the ids that were given back, and those in use. -/
structure Pool where
  next : Nat
  free : List Nat
  live : List Nat

namespace Pool

/-- Take an id back. -/
def give (p : Pool) (i : Nat) : Pool := ⟨p.next, i :: p.free, p.live.erase i⟩

/-- What was handed out is free or live, and lies between `lo` and `hi`. -/
structure Within (p : Pool) (lo hi : Nat) : Prop where
  lo_le : lo ≤ p.next
  le_hi : p.next ≤ hi
  perm : (p.free ++ p.live).Perm (List.range' lo (p.next - lo))

variable {p p' : Pool} {lo hi i : Nat} {is : List Nat}

/-- Nothing was handed out yet. -/
theorem within_new (h : lo ≤ hi) : Within ⟨lo, [], []⟩ lo hi := by
  refine ⟨Nat.le_refl _, h, ?_⟩
  rw [Nat.sub_self]
  exact List.Perm.refl _

namespace Within

/-- The ids that were handed out so far. -/
theorem mem_iff (h : p.Within lo hi) : i ∈ p.free ∨ i ∈ p.live ↔ lo ≤ i ∧ i < p.next := by
  have hlo := h.lo_le
  rw [← List.mem_append, h.perm.mem_iff, List.mem_range'_1]
  omega

/-- The bounds of an id in use. -/
theorem mem_live (h : p.Within lo hi) (hi' : i ∈ p.live) : lo ≤ i ∧ i < hi := by
  have hmem := h.mem_iff.mp (Or.inr hi')
  exact ⟨hmem.1, Nat.lt_of_lt_of_le hmem.2 h.le_hi⟩

/-- The bounds of an id that was given back. -/
theorem mem_free (h : p.Within lo hi) (hi' : i ∈ p.free) : lo ≤ i ∧ i < hi := by
  have hmem := h.mem_iff.mp (Or.inl hi')
  exact ⟨hmem.1, Nat.lt_of_lt_of_le hmem.2 h.le_hi⟩

/-- No id is there twice. -/
theorem nodup (h : p.Within lo hi) : (p.free ++ p.live).Nodup := h.perm.nodup_iff.mpr List.nodup_range'

/-- None is in use twice. -/
theorem nodup_live (h : p.Within lo hi) : p.live.Nodup := (List.nodup_append.mp h.nodup).2.1

/-- An id that was given back is not in use. -/
theorem not_live_of_free (h : p.Within lo hi) (hi' : i ∈ p.free) : i ∉ p.live := fun hl =>
  (List.nodup_append.mp h.nodup).2.2 i hi' i hl rfl

/-- The next new id is not live. -/
theorem next_not_live (h : p.Within lo hi) : p.next ∉ p.live := fun hl =>
  Nat.lt_irrefl _ (h.mem_iff.mp (Or.inr hl)).2

/-- Every id that was handed out is counted once. -/
theorem length (h : p.Within lo hi) : p.free.length + p.live.length = p.next - lo := by
  have hlen := h.perm.length_eq
  rw [List.length_append, List.length_range'] at hlen
  exact hlen

/-- Live ids are no more than there are. -/
theorem length_le (h : p.Within lo hi) : p.live.length ≤ hi - lo := by
  have hlen := h.length
  have hhi := h.le_hi
  omega

/-- The next new id, when no id is free. -/
theorem next_eq (h : p.Within lo hi) (hfree : p.free = []) : p.next = lo + p.live.length := by
  have hlen := h.length
  have hlo := h.lo_le
  rw [hfree, List.length_nil] at hlen
  omega

/-- Handing out a free id. -/
theorem pop (h : p.Within lo hi) (hfree : p.free = i :: is) : Within ⟨p.next, is, i :: p.live⟩ lo hi := by
  refine ⟨h.lo_le, h.le_hi, ?_⟩
  have hperm := h.perm
  rw [hfree] at hperm
  exact List.perm_middle.trans hperm

/-- Handing out a new id. -/
theorem bump (h : p.Within lo hi) (hfree : p.free = []) (hlt : p.next < hi) :
    Within ⟨p.next + 1, [], p.next :: p.live⟩ lo hi := by
  have hlo := h.lo_le
  refine ⟨Nat.le_succ_of_le hlo, hlt, ?_⟩
  have hperm := h.perm
  rw [hfree, List.nil_append] at hperm
  have hlen : p.next + 1 - lo = (p.next - lo) + 1 := by omega
  have hlast : lo + (p.next - lo) = p.next := by omega
  rw [List.nil_append, hlen, List.range'_1_concat, hlast]
  exact (hperm.cons p.next).trans (List.perm_append_singleton _ _).symm

/-- A live id is free again. -/
theorem give_of_perm (h : p.Within lo hi) (hl : p.live.Perm (i :: is)) : Within ⟨p.next, i :: p.free, is⟩ lo hi := by
  refine ⟨h.lo_le, h.le_hi, ?_⟩
  have hperm : (p.free ++ p.live).Perm (p.free ++ i :: is) := hl.append_left _
  exact (List.perm_middle.symm.trans hperm.symm).trans h.perm

/-- Taking a live id back. -/
theorem give (h : p.Within lo hi) (hl : i ∈ p.live) : (p.give i).Within lo hi := h.give_of_perm (List.perm_cons_erase hl)

end Within
end Pool
end Lib
end Snippets
