import Snippets.MemoryList.SameLength

/-!
# `MemoryList.Reopen` — a container's allocator, saved and restored

A container holds slices `U` of an allocator over a buffer that `CreateFrom` stamped. Restored from a copy of the
buffer, at its own length and at any address, the allocator has the same capacity, is stamped for the new place and
the container still holds `U`. So a buffer can be saved and restored any number of times.
-/

namespace Snippets

open Lib

namespace MemoryList

variable {ml ml' : MemoryList} {U : List SliceId} {start start' len sliceSize : Nat} {mem' : Mem}

theorem Stamped.clear (hs : Stamped start len sliceSize ml) (h : Holding ml U) (hclear : ml.clear = some ml') :
    Stamped start len sliceSize ml' := by
  have hst : Step ⟨ml, U⟩ .clear ⟨ml', []⟩ := ⟨hclear, rfl⟩
  exact stamped_step h hs hst

/-- **`RestoreFrom` over a copy of the buffer.** -/
theorem Holding.reopen (h : Holding ml U) (hs : Stamped start len sliceSize ml) (hlen : kHeaderSize < len)
    (hfit : SumsFit start' len sliceSize) (hcopy : ∀ j : Nat, j < len → mem' (start' + j) = ml.mem (start + j)) :
    ∃ ml', restoreFrom start' len sliceSize ml.header mem' = some ml' ∧ Holding ml' U ∧
      Stamped start' len sliceSize ml' ∧ ml'.capacity = ml.capacity ∧ ml'.mem = mem' := by
  have hreal : ml.sliceRealSize = kSliceHeadSize + sliceSize := by rw [h.real, hs.sliceSize]
  have hrestore := restoreFrom_eq mem' h hs (Nat.le_of_lt hlen) hlen (Nat.le_refl len) hfit
  generalize hml' : MemoryList.mk _ _ _ _ _ _ _ = ml' at hrestore
  have hbuf : ml'.buf = start' + kHeaderSize := by rw [← hml']
  have hend : ml'.endAddr = start' + len := by rw [← hml']
  have hreal' : ml'.sliceRealSize = ml.sliceRealSize := by rw [← hml', hreal]
  have hcap : ml'.capacity = ml.capacity := by rw [← hml', Nat.sub_self, Nat.zero_div, Nat.add_zero]
  have hheader : ml'.header = ml.header := by rw [← hml']
  have hmem : ml'.mem = mem' := by rw [← hml']
  have htwin : Twin ml ml' := twin_copy h hs (Nat.le_of_lt hlen) hfit hcopy hbuf hend hreal' hcap hheader hmem
  have hexact : ml'.buf + (ml.capacity + 1) * ml'.sliceRealSize < 2 ^ 64 := by
    rw [← hcap]
    exact htwin.fits'.exact
  obtain ⟨-, hslices, F, W, hpart, hW⟩ := inv_copy h hs hbuf hreal' hmem hheader hcopy hexact
  refine ⟨ml', hrestore, ⟨htwin.fits', hslices, F, W, ⟨hpart.free, hpart.used, ?_, hpart.size⟩, hW⟩, ?_, hcap, hmem⟩
  · rw [hcap]
    exact hpart.perm
  · exact ⟨by rw [hheader]; exact hs.magic, by rw [hheader]; exact hs.bufferLength, by rw [hheader]; exact hs.sliceSize,
      by rw [hheader]; exact hs.padding, hbuf, hend⟩

end MemoryList
end Snippets
