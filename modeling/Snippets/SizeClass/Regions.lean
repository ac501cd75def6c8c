import Snippets.SizeClass.Lists

/-!
# `SizeClass.Regions` — how `Create` divides the memory

`Create` takes one page for itself, a 128th of the rest for the descriptors, rounded up to pages, and leaves what remains to the
heap. On less than two pages nothing remains, the unsigned difference wraps, and the heap is said to have almost 4 GiB
(`contained_iff`). On two pages or more the heap has about one page in 128 bytes of descriptor table, where a descriptor is 28
bytes: there are always more descriptors than pages (`heap_lt_pages`), and they are handed out (`not_served`).
-/

namespace Snippets

open Lib

namespace SizeClass

variable {a : Allocator} {m m' : Mem} {start : Int} {sz : Nat}

/-! ## The property -/

/-- The reserved page, the table of the descriptors and the heap: where they start, and where they end. -/
def regions (start : Int) (a : Allocator) : List (Int × Int) :=
  [(start, start + kPageSize), (a.pages.start, a.pages.start + a.pages.size), (a.heap.start, a.heap.start + a.heap.size)]

/-- The regions follow each other, have no byte in common, and lie in the memory. -/
structure Contained (start : Int) (sz : Nat) (a : Allocator) : Prop where
  table : a.pages.start = start + kPageSize
  heap : a.heap.start = a.pages.start + a.pages.size
  disjoint : (regions start a).Pairwise fun r r' => ∀ x, r.1 ≤ x → x < r.2 → ¬ (r'.1 ≤ x ∧ x < r'.2)
  inside : ∀ r ∈ regions start a, start ≤ r.1 ∧ r.2 ≤ start + sz

/-- The page allocator as `Create` leaves it: the sentinels of the lists are in use. -/
def Allocator.client (a : Allocator) (m : Mem) : PageClient := ⟨a.pages, m, [], (List.range (2 * kSizeClassNum)).reverse⟩

/-- Whatever is allocated and given back, an id that is handed out is one of a page of the heap. -/
def Served (a : Allocator) (m : Mem) : Prop :=
  ∀ calls s t id, Run PageStep (a.client m) calls s → PageStep s (.allocate (some id)) t → id < a.heap.capacity

/-- What `Create` is for. -/
structure LaidOut (start : Int) (sz : Nat) (a : Allocator) (m : Mem) : Prop where
  contained : Contained start sz a
  served : Served a m

/-! ## Where the regions are -/

/-- The loop stops only when it has gone far enough. -/
theorem le_addPagesUpTo (fuel sz : Nat) {x : Nat} (h : sz ≤ x + kPageSize * fuel) : sz ≤ addPagesUpTo sz fuel x := by
  induction fuel generalizing x with
  | zero => exact h
  | succ fuel ih =>
      unfold addPagesUpTo
      by_cases hlt : x < sz
      · rw [if_pos hlt]
        apply ih
        rw [Nat.mul_succ] at h
        omega
      · rw [if_neg hlt]
        exact Nat.le_of_not_lt hlt

theorem le_roundUpToPageSize (sz : Nat) : sz ≤ roundUpToPageSize sz := by
  apply le_addPagesUpTo
  unfold kPageSize
  omega

theorem le_descriptorSize (sz : Nat) : (sz - 16384) / 128 ≤ descriptorSize sz := le_roundUpToPageSize ((sz - kPageSize) / 128)

/-- On two pages or more, the descriptors leave room for a heap. -/
theorem heapSize_of_le (hsz : 2 * 16384 ≤ sz) (hlt : sz < 2 ^ 32) : heapSize sz + descriptorSize sz + 16384 = sz := by
  obtain ⟨hmod, hle, hround⟩ := descriptorSize_spec sz
  unfold heapSize kPageSize
  omega

/-- On less, the difference wraps. -/
theorem heapSize_of_lt (hle : 16384 ≤ sz) (hsz : sz < 2 * 16384) : heapSize sz + 16384 + 16384 = sz + 2 ^ 32 := by
  obtain ⟨hmod, hle', hround⟩ := descriptorSize_spec sz
  unfold heapSize kPageSize
  omega

theorem sizes_of_create (h : Allocator.create m start sz = some (some (a, m'))) : 16384 ≤ sz := by
  unfold Allocator.create kPageSize at h
  split at h
  · cases h
  split at h
  · cases h
  · omega

/-- **The regions lie in the memory exactly when it has two pages.** -/
theorem contained_iff (h : Allocator.create m start sz = some (some (a, m'))) (hlt : sz < 2 ^ 32) :
    Contained start sz a ↔ 2 * kPageSize ≤ sz := by
  obtain ⟨rfl, -⟩ := created_of_create h hlt
  have hle := sizes_of_create h
  constructor
  · intro hc
    by_contra hsz
    have hheap := heapSize_of_lt hle (Nat.lt_of_not_le hsz)
    have hin := (hc.inside ((created start sz).heap.start, (created start sz).heap.start + (created start sz).heap.size)
      (List.mem_cons_of_mem _ (List.mem_cons_of_mem _ List.mem_cons_self))).2
    have hend : start + kPageSize + descriptorSize sz + (heapSize sz : Nat) ≤ start + sz := hin
    unfold kPageSize at hend
    omega
  · intro hsz
    have hheap := heapSize_of_le hsz hlt
    refine ⟨rfl, rfl, ?_, ?_⟩
    · simp only [regions, created, List.pairwise_cons, List.mem_cons, List.not_mem_nil, or_false, forall_eq_or_imp, forall_eq,
        kPageSize, IsEmpty.forall_iff, implies_true, List.Pairwise.nil, and_true]
      refine ⟨⟨?_, ?_⟩, ?_⟩
      · intro x hx hx'
        omega
      · intro x hx hx'
        omega
      · intro x hx hx'
        omega
    · simp only [regions, created, List.mem_cons, List.not_mem_nil, or_false, forall_eq_or_imp, forall_eq, kPageSize]
      refine ⟨?_, ?_, ?_⟩
      · omega
      · omega
      · omega

/-! ## Which pages are handed out -/

/-- **There are more descriptors than pages**, whatever the size. -/
theorem heap_lt_pages (h : Allocator.create m start sz = some (some (a, m'))) (hlt : sz < 2 ^ 32) (hsz : 2 * kPageSize ≤ sz) :
    (a.heap.capacity : Int) < a.pages.max := by
  obtain ⟨rfl, -⟩ := created_of_create h hlt
  have hheap := heapSize_of_le hsz hlt
  have hle := le_descriptorSize sz
  obtain ⟨hmod, hpage, hround⟩ := descriptorSize_spec sz
  show ((((heapSize sz / kPageSize : Nat) : Int) % 2 ^ 32).toNat : Int) < (descriptorSize sz / sizeofPage : Nat)
  unfold kPageSize sizeofPage at *
  omega

/-- New pages are handed out one after another. -/
theorem run_allocate (hfree : a.pages.freeList = kInvalidOffset) (hmax : InRange a.pages.max) {i : Nat}
    (hnext : a.pages.next = i) (n : Nat) (hn : (i + n : Nat) ≤ a.pages.max) (m : Mem) :
    ∃ calls s, Run PageStep (a.client m) calls s ∧ s.pages = { a.pages with next := (i + n : Nat) } := by
  induction n with
  | zero =>
      refine ⟨[], _, Run.refl, ?_⟩
      rw [Nat.add_zero, ← hnext]
      rfl
  | succ n ih =>
      obtain ⟨calls, s, hrun, hs⟩ := ih (by omega)
      have hmax' : s.pages.max = a.pages.max := by rw [hs]
      have hnew := allocate_new (a := s.pages) (i := i + n) (by rw [hs]) (by rw [hs]; exact hfree) (by rw [hmax']; omega)
        (by rw [hmax']; exact hmax) s.mem
      have hstep : PageStep s (.allocate (some (i + n))) _ := ⟨_, _, hnew, rfl⟩
      refine ⟨_, _, hrun.tail hstep, ?_⟩
      show { s.pages with next := ((i + n + 1 : Nat) : Int) } = _
      rw [hs]
      rfl

/-- **Ids without a page are handed out**, when the heap has two pages or more to lie in. -/
theorem not_served (h : Allocator.create m start sz = some (some (a, m'))) (hlt : sz < 2 ^ 32) (hsz : 2 * kPageSize ≤ sz) :
    ¬ Served a m' := by
  intro hserved
  have hfew := heap_lt_pages h hlt hsz
  obtain ⟨rfl, -⟩ := created_of_create h hlt
  obtain ⟨-, hpage, hround⟩ := descriptorSize_spec sz
  have hmaxEq : (created start sz).pages.max = (descriptorSize sz / 28 : Nat) := rfl
  have hmax : InRange (created start sz).pages.max := by
    rw [hmaxEq]
    exact inRange_natCast (by omega)
  obtain ⟨calls, s, hrun, hs⟩ := run_allocate (a := created start sz) rfl hmax (i := 22) rfl (descriptorSize sz / 28 - 23)
    (by rw [hmaxEq]; omega) m'
  -- the last id there is
  have hlast := allocate_new (a := s.pages) (i := 22 + (descriptorSize sz / 28 - 23)) (by rw [hs]) (by rw [hs]; rfl)
    (by rw [hs]; show _ < (created start sz).pages.max; rw [hmaxEq]; omega) (by rw [hs]; exact hmax) s.mem
  have hid := hserved calls s _ (22 + (descriptorSize sz / 28 - 23)) hrun ⟨_, _, hlast, rfl⟩
  omega

/-! ## The whole layout -/

/-- **`Create` never lays its regions out as it should**: on less than two pages the heap lies outside the memory, on more the
    page allocator hands out pages that the heap does not have. -/
theorem not_laidOut (h : Allocator.create m start sz = some (some (a, m'))) (hlt : sz < 2 ^ 32) : ¬ LaidOut start sz a m' := by
  intro hlaid
  have hsz := (contained_iff h hlt).mp hlaid.contained
  exact not_served h hlt hsz hlaid.served

/-- On a megabyte. -/
theorem not_laidOut_megabyte : ∃ a m', Allocator.create (fun _ => 0) 0 (2 ^ 20) = some (some (a, m')) ∧
    ¬ LaidOut 0 (2 ^ 20) a m' := by
  obtain ⟨m', hrun, -⟩ := @create_eq 0 (2 ^ 20) (by decide) (by decide) (by decide) (fun _ => 0)
  exact ⟨_, m', hrun, not_laidOut hrun (by decide)⟩

/-- On one page: the heap is said to start behind the memory, with `2 ^ 32 - 2 ^ 14` bytes. -/
theorem not_laidOut_page : ∃ a m', Allocator.create (fun _ => 0) 0 16384 = some (some (a, m')) ∧
    a.heap.start = 32768 ∧ a.heap.size = 2 ^ 32 - 16384 ∧ ¬ LaidOut 0 16384 a m' := by
  obtain ⟨m', hrun, -⟩ := @create_eq 0 16384 (by decide) (by decide) (by decide) (fun _ => 0)
  refine ⟨_, m', hrun, by decide +kernel, by decide +kernel, ?_⟩
  intro hlaid
  have hsz := (contained_iff hrun (by decide)).mp hlaid.contained
  exact absurd hsz (by decide)

end SizeClass
end Snippets
