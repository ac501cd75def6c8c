import Snippets.SizeClass.Steps

/-!
# `SizeClass.Filling` — calls of one class, without `Deallocate`

The first call takes page 22 for the class, and every further call takes the next block of this page (`After.next`), also
when there is none: a full page stays the first one of its list, so the call after the last block throws, with hundreds of
pages left (`After.full`). So calls fail only for want of pages as long as they are no more than the blocks of a page
(`failsLate_iff`).
-/

namespace Snippets

open Lib

namespace SizeClass

variable {a : Allocator} {s t : Allocator × Mem} {m m' : Mem} {start pageStart : Int} {sz c k n : Nat} {res : Option Int}
  {calls : List (Option Int)}

/-! ## Calls -/

/-- A call for a block of a class, with what it returns: an offset, or `bad_alloc`. -/
def ClassStep (c : Nat) (s : Allocator × Mem) (res : Option Int) (t : Allocator × Mem) : Prop :=
  ∃ sz ≤ kPageSize, sizeClass (roundUpToPowerOfTwo sz) = some c ∧ s.1.allocate s.2 sz = some (t.1, t.2, res)

def NoPageLeft (a : PageAllocator) : Prop := a.freeList = kInvalidOffset ∧ a.next = a.max

/-- In every sequence of at most `n` calls of a class, a call throws only when no page is left. -/
def FailsLate (c : Nat) (s : Allocator × Mem) (n : Nat) : Prop :=
  ∀ calls t u, calls.length < n → Run (ClassStep c) s calls t → ClassStep c t none u → NoPageLeft t.1.pages

/-- What `Create` leaves behind. -/
structure Fresh (a : Allocator) : Prop where
  lists : a.list = (List.range 11).map listOf
  next : a.pages.next = 22
  freeList : a.pages.freeList = kInvalidOffset
  max : 585 ≤ a.pages.max
  range : InRange a.pages.max

theorem fresh_created (hlt : sz < 2 ^ 32) : Fresh (created start sz) := by
  obtain ⟨-, hle, hround⟩ := descriptorSize_spec sz
  have hmax : (created start sz).pages.max = (descriptorSize sz / 28 : Nat) := rfl
  refine ⟨rfl, rfl, rfl, ?_, ?_⟩
  · rw [hmax]
    omega
  · rw [hmax]
    exact inRange_natCast (by omega)

/-- A fresh allocator that has handed out a page. -/
def grownOnce (a : Allocator) : Allocator := { a with pages := { a.pages with next := 23 } }

/-- The page of a class after `k` calls. -/
structure Filled (a : PageAllocator) (m : Mem) (c k : Nat) : Prop where
  sentinel : Sentinel a m c (22 : Nat)
  page : page m (a.address (22 : Nat)) =
    ⟨inUse, c + 2, k, (22 : Nat), (2 * c + 1 : Nat), (2 * c + 1 : Nat), (k * 2 ^ (c + 2) : Nat), kInvalidOffset⟩

/-- The state after `k` calls. -/
def After (a : Allocator) (m : Mem) (c : Nat) : Nat → Allocator × Mem → Prop
  | 0, t => t = (a, m)
  | k + 1, t => t.1 = grownOnce a ∧ Filled (grownOnce a).pages t.2 c (k + 1)

/-- How many blocks of a class a page has. -/
theorem blocks_mul (hc : c < 11) : kPageSize / 2 ^ (c + 2) * 2 ^ (c + 2) = kPageSize := by
  have hall : ∀ c < 11, kPageSize / 2 ^ (c + 2) * 2 ^ (c + 2) = kPageSize := by decide
  exact hall c hc

theorem blocks_le (c : Nat) : kPageSize / 2 ^ (c + 2) ≤ 4096 := by
  have hpow : 4 ≤ 2 ^ (c + 2) := Nat.pow_le_pow_right (show 0 < 2 by decide) (show 2 ≤ c + 2 by omega)
  exact Nat.div_le_div_left hpow (by decide)

/-! ## One page -/

theorem Filled.next {p : PageAllocator} (h : Filled p m c k) (hk : k < kPageSize / 2 ^ (c + 2)) (pageStart : Int) :
    ∃ m', pageAllocate m (p.address (22 : Nat)) pageStart = some (m', some ((22 * kPageSize + (k + 1) * 2 ^ (c + 2) : Nat) : Int)) ∧
      Filled p m' c (k + 1) := by
  have hroom : (k + 1) * 2 ^ (c + 2) ≤ kPageSize := (Nat.le_div_iff_mul_le (Nat.pow_pos (by decide))).mp hk
  have hcount : k < 4096 := Nat.lt_of_lt_of_le hk (blocks_le c)
  have hin : InRange (((k + 1) * 2 ^ (c + 2) : Nat) : Int) := by
    apply inRange_natCast
    unfold kPageSize at hroom
    omega
  have hpage := h.page
  have hfull : (SizeClass.page m (p.address (22 : Nat))).freeList = kInvalidOffset := by rw [hpage]
  have hfree : (SizeClass.page m (p.address (22 : Nat))).free = (k * 2 ^ (c + 2) : Nat) := by rw [hpage]
  have hpow : (SizeClass.page m (p.address (22 : Nat))).powOfTwoSize = c + 2 := by rw [hpage]
  have hid : (SizeClass.page m (p.address (22 : Nat))).id = (22 : Nat) := by rw [hpage]
  have href : (SizeClass.page m (p.address (22 : Nat))).ref = k := by rw [hpage]
  have hrun := pageAllocate_next pageStart hfull hfree hpow hid href hroom (by decide)
  refine ⟨_, hrun, ?_, ?_⟩
  · have hap := address_apart (a := p) (i := 22) (j := 2 * c + 1) (by omega)
    apply h.sentinel.outside (outside_setFree.trans outside_setRef)
    omega
  · rw [page_setRef (by omega), page_setFree hin, hpage]

/-- **A full page** has no free block, and no next one. -/
theorem Filled.full {p : PageAllocator} (h : Filled p m c (kPageSize / 2 ^ (c + 2))) (hc : c < 11) (pageStart : Int) :
    pageAllocate m (p.address (22 : Nat)) pageStart = some (m, none) := by
  have hpage := h.page
  rw [blocks_mul hc] at hpage
  unfold pageAllocate
  simp only [hpage, if_true]

theorem Filled.head {p : PageAllocator} (h : Filled p m c k) (hnext : p.next = 23) :
    dllHead p m (p.address (2 * c + 1 : Nat)) = some (p.address (22 : Nat)) :=
  dllHead_eq h.sentinel (by omega) (by rw [hnext]; decide)

/-! ## The list of a class -/

theorem grownOnce_address (i : Int) : (grownOnce a).pages.address i = a.pages.address i := rfl

theorem grownOnce_findPage (hc : c < 11) :
    (grownOnce a).pages.findPage (listOf c).nonempty = some ((grownOnce a).pages.address (2 * c + 1 : Nat)) := by
  apply findPage_eq
  show ((2 * c + 1 : Nat) : Int) < 23
  omega

/-- The first call puts page 22 into the list. -/
theorem Fresh.refill (h : Fresh a) (hs : Sentinel a.pages m c (2 * c + 1 : Nat)) (hc : c < 11) :
    a.pages.findPage (listOf c).nonempty = some (a.pages.address (2 * c + 1 : Nat)) ∧
      ∃ m', (listOf c).refill a.pages m (a.pages.address (2 * c + 1 : Nat)) = some ((grownOnce a).pages, m', true) ∧
        Filled (grownOnce a).pages m' c 0 := by
  have hmax := h.max
  have hnext := h.next
  have hrun : a.pages.allocate m = some ((grownOnce a).pages, initAllocatedPage m ((grownOnce a).pages.address (22 : Nat)) (22 : Nat),
      some ((grownOnce a).pages.address (22 : Nat))) := allocate_new h.next h.freeList (show (22 : Int) < a.pages.max by omega) h.range m
  obtain ⟨m', hrefill, hs', hpage, -⟩ := refill_run hs (show (grownOnce a).pages.start = a.pages.start from rfl) hrun hc (by decide)
    (show ((22 : Nat) : Int) < 23 by decide)
  refine ⟨findPage_eq (by omega), m', hrefill, hs', ?_⟩
  rw [hpage, Nat.zero_mul]
  rfl

/-- The list of a class with a page. -/
theorem Filled.refill {p : PageAllocator} (h : Filled p m c k) :
    (listOf c).refill p m (p.address (2 * c + 1 : Nat)) = some (p, m, true) := by
  have hempty : dllEmpty m (p.address (2 * c + 1 : Nat)) = false := by
    unfold dllEmpty
    rw [h.sentinel.next, h.sentinel.id]
    exact decide_eq_false (by omega)
  unfold FreeList.refill
  rw [hempty]
  rfl

/-- **A call takes the next block**, if there is one. -/
theorem After.next (h : After a m c k t) (hfresh : Fresh a) (hs : Sentinel a.pages m c (2 * c + 1 : Nat)) (hheap : 22 < a.heap.max)
    (hc : c < 11) (hk : k < kPageSize / 2 ^ (c + 2)) :
    ∃ pages m', (listOf c).allocate t.1.pages t.1.heap t.2 =
        some (pages, m', some ((22 * kPageSize + (k + 1) * 2 ^ (c + 2) : Nat) : Int)) ∧
      After a m c (k + 1) ({ t.1 with pages := pages }, m') := by
  have hget : a.heap.get (22 : Nat) = some (a.heap.start + (22 * kPageSize : Nat)) := heap_get_eq hheap (by decide)
  cases k with
  | zero =>
      obtain rfl : t = (a, m) := h
      obtain ⟨hfind, m₁, hrefill, hfilled⟩ := hfresh.refill hs hc
      obtain ⟨m₂, halloc, hfilled'⟩ := hfilled.next hk (a.heap.start + (22 * kPageSize : Nat))
      have hhead := hfilled.head rfl
      have hid : a.heap.get (page m₁ ((grownOnce a).pages.address (22 : Nat))).id = some (a.heap.start + (22 * kPageSize : Nat)) := by
        rw [hfilled.page]
        exact hget
      exact ⟨_, m₂, freeListAllocate_run hfind hrefill hhead hid halloc, rfl, hfilled'⟩
  | succ k =>
      obtain ⟨halloc₀, hfilled⟩ := h
      obtain ⟨b, m₁⟩ := t
      obtain rfl : b = grownOnce a := halloc₀
      obtain ⟨m₂, halloc, hfilled'⟩ := hfilled.next hk (a.heap.start + (22 * kPageSize : Nat))
      have hid : a.heap.get (page m₁ ((grownOnce a).pages.address (22 : Nat))).id = some (a.heap.start + (22 * kPageSize : Nat)) := by
        rw [hfilled.page]
        exact hget
      exact ⟨_, m₂, freeListAllocate_run (grownOnce_findPage hc) (hfilled.refill) (hfilled.head rfl) hid halloc, rfl, hfilled'⟩

/-- **After the last block** a call throws. -/
theorem After.full (h : After a m c (kPageSize / 2 ^ (c + 2)) t) (hheap : 22 < a.heap.max) (hc : c < 11) :
    t.1 = grownOnce a ∧ (listOf c).allocate t.1.pages t.1.heap t.2 = some (t.1.pages, t.2, none) := by
  have hget : a.heap.get (22 : Nat) = some (a.heap.start + (22 * kPageSize : Nat)) := heap_get_eq hheap (by decide)
  have hmul := blocks_mul hc
  cases hN : kPageSize / 2 ^ (c + 2) with
  | zero =>
      rw [hN, Nat.zero_mul] at hmul
      cases hmul
  | succ k =>
      rw [hN] at h
      obtain ⟨halloc₀, hfilled⟩ := h
      obtain ⟨b, m₁⟩ := t
      obtain rfl : b = grownOnce a := halloc₀
      have hid : a.heap.get (page m₁ ((grownOnce a).pages.address (22 : Nat))).id = some (a.heap.start + (22 * kPageSize : Nat)) := by
        rw [hfilled.page]
        exact hget
      rw [← hN] at hfilled
      exact ⟨rfl, freeListAllocate_run (grownOnce_findPage hc) (hfilled.refill) (hfilled.head rfl) hid (hfilled.full hc _)⟩

/-! ## Sequences of calls -/

theorem After.list_eq (h : After a m c k t) (hfresh : Fresh a) (hc : c < 11) : t.1.list[c]? = some (listOf c) := by
  have hlists : t.1.list = (List.range 11).map listOf := by
    cases k with
    | zero =>
        obtain rfl : t = (a, m) := h
        exact hfresh.lists
    | succ k =>
        rw [h.1]
        exact hfresh.lists
  rw [hlists, List.getElem?_map, List.getElem?_range hc]
  rfl

/-- A call does what the list of the class does, whatever the size. -/
theorem ClassStep.eq {list : FreeList} {pages : PageAllocator} {offset : Option Int} (h : ClassStep c s res t)
    (hlist : s.1.list[c]? = some list) (hrun : list.allocate s.1.pages s.1.heap s.2 = some (pages, m', offset)) :
    res = offset ∧ t = ({ s.1 with pages := pages }, m') := by
  obtain ⟨sz, hsz, hcls, hres⟩ := h
  rw [allocate_run hsz hcls hlist hrun] at hres
  obtain ⟨h₁, h₂, h₃⟩ : _ ∧ _ ∧ _ := by
    have hpair := Option.some.inj hres
    exact ⟨congrArg Prod.fst hpair, congrArg (fun x => x.2.1) hpair, congrArg (fun x => x.2.2) hpair⟩
  exact ⟨h₃.symm, Prod.ext h₁.symm h₂.symm⟩

theorem ClassStep.of_run {list : FreeList} {pages : PageAllocator} {offset : Option Int} (hc : c < 11)
    (hlist : s.1.list[c]? = some list) (hrun : list.allocate s.1.pages s.1.heap s.2 = some (pages, m', offset)) :
    ClassStep c s offset ({ s.1 with pages := pages }, m') := by
  have hall : ∀ c < 11, 2 ^ (c + 2) ≤ kPageSize ∧ sizeClass (roundUpToPowerOfTwo (2 ^ (c + 2))) = some c := by decide +kernel
  obtain ⟨hsz, hcls⟩ := hall c hc
  exact ⟨2 ^ (c + 2), hsz, hcls, allocate_run hsz hcls hlist hrun⟩

/-- A run of at most as many calls as a page has blocks. -/
theorem after_of_run (hfresh : Fresh a) (hs : Sentinel a.pages m c (2 * c + 1 : Nat)) (hheap : 22 < a.heap.max) (hc : c < 11)
    (hrun : Run (ClassStep c) (a, m) calls t) (hle : calls.length ≤ kPageSize / 2 ^ (c + 2)) : After a m c calls.length t := by
  refine Run.invariantTrace (I := fun calls t => calls.length ≤ kPageSize / 2 ^ (c + 2) → After a m c calls.length t) ?_ hrun
    (fun _ => rfl) hle
  intro calls t res u ih hstep hle
  rw [List.length_append, List.length_singleton] at hle ⊢
  have h := ih (by omega)
  obtain ⟨pages, m', hlist, hafter⟩ := h.next hfresh hs hheap hc (by omega)
  obtain ⟨-, rfl⟩ := hstep.eq (h.list_eq hfresh hc) hlist
  exact hafter

/-- There is such a run. -/
theorem run_of_le (hfresh : Fresh a) (hs : Sentinel a.pages m c (2 * c + 1 : Nat)) (hheap : 22 < a.heap.max) (hc : c < 11)
    (hn : n ≤ kPageSize / 2 ^ (c + 2)) :
    ∃ calls t, calls.length = n ∧ Run (ClassStep c) (a, m) calls t ∧ After a m c n t := by
  induction n with
  | zero => exact ⟨[], (a, m), rfl, Run.refl, rfl⟩
  | succ n ih =>
      obtain ⟨calls, t, hlen, hrun, h⟩ := ih (by omega)
      obtain ⟨pages, m', hlist, hafter⟩ := h.next hfresh hs hheap hc hn
      refine ⟨calls ++ [_], _, ?_, hrun.tail (ClassStep.of_run hc (h.list_eq hfresh hc) hlist), hafter⟩
      rw [List.length_append, hlen, List.length_singleton]

/-- A page that the heap does not have. -/
theorem Fresh.no_step (h : Fresh a) (hs : Sentinel a.pages m c (2 * c + 1 : Nat)) (hheap : a.heap.max ≤ 22) (hc : c < 11) :
    ¬ ClassStep c (a, m) res t := by
  obtain ⟨hfind, m', hrefill, hfilled⟩ := h.refill hs hc
  have hlist : After a m c 0 (a, m) := rfl
  have hhead := hfilled.head rfl
  have hid : a.heap.get (page m' ((grownOnce a).pages.address (22 : Nat))).id = none := by
    have hnot : ¬ (22 : Int) < a.heap.max := Int.not_lt.mpr hheap
    rw [hfilled.page]
    unfold PageHeap.get kInvalidPageID
    simp [guard, hnot]
  rintro ⟨sz, hsz, hcls, hres⟩
  have hnone : (listOf c).allocate a.pages a.heap m = none := by
    unfold FreeList.allocate
    rw [grownOnce_address] at hhead
    simp only [hfind, hrefill, hhead, hid, Option.bind_eq_bind, Option.bind_some, Option.bind_none]
  unfold Allocator.allocate at hres
  rw [if_neg (Nat.not_lt.mpr hsz)] at hres
  simp only [hcls, hlist.list_eq h hc, hnone, Option.bind_eq_bind, Option.bind_some, Option.bind_none] at hres
  cases hres

/-- The call after the last block throws, with pages left. -/
theorem Fresh.fails (h : Fresh a) (hs : Sentinel a.pages m c (2 * c + 1 : Nat)) (hheap : 22 < a.heap.max) (hc : c < 11)
    (hn : kPageSize / 2 ^ (c + 2) < n) : ¬ FailsLate c (a, m) n := by
  intro hlate
  obtain ⟨calls, t, hlen, hrun, hafter⟩ := run_of_le h hs hheap hc (Nat.le_refl _)
  obtain ⟨halloc, hfull⟩ := hafter.full hheap hc
  obtain ⟨-, hnext⟩ := hlate calls t _ (by omega) hrun (ClassStep.of_run hc (hafter.list_eq h hc) hfull)
  have hmax := h.max
  rw [halloc] at hnext
  have hnext' : (23 : Int) = a.pages.max := hnext
  omega

/-- **Calls of one class** fail only for want of pages exactly when they are no more than the blocks of a page, or the
    heap lacks the first page, so that an assert fails. -/
theorem failsLate_iff (hcreate : Allocator.create m start sz = some (some (a, m'))) (hlt : sz < 2 ^ 32) (hc : c < 11) (n : Nat) :
    FailsLate c (a, m') n ↔ a.heap.max ≤ 22 ∨ n ≤ kPageSize / 2 ^ (c + 2) := by
  obtain ⟨rfl, hs⟩ := created_of_create hcreate hlt
  have hfresh : Fresh (created start sz) := fresh_created hlt
  by_cases hheap : (created start sz).heap.max ≤ 22
  · refine iff_of_true ?_ (Or.inl hheap)
    intro calls t u _ hrun hstep
    -- no call returns
    rcases hrun.head_cases with ⟨rfl, rfl⟩ | ⟨v, res, rest, rfl, hfirst, -⟩
    · exact absurd hstep (hfresh.no_step (hs c hc) hheap hc)
    · exact absurd hfirst (hfresh.no_step (hs c hc) hheap hc)
  · have hheap' := Int.not_le.mp hheap
    constructor
    · intro hlate
      refine Or.inr (Nat.le_of_not_lt fun hn => ?_)
      exact hfresh.fails (hs c hc) hheap' hc hn hlate
    · rintro (hmax | hle)
      · exact absurd hmax hheap
      · intro calls t u hlen hrun hstep
        have hafter := after_of_run hfresh (hs c hc) hheap' hc hrun (by omega)
        obtain ⟨pages, m', hlist, -⟩ := hafter.next hfresh (hs c hc) hheap' hc (by omega)
        obtain ⟨hres, -⟩ := hstep.eq (hafter.list_eq hfresh hc) hlist
        cases hres

/-- A region of 64 pages, and its largest blocks. -/
theorem failsLate_iff_four : ∃ m', Allocator.create (fun _ => 0) 0 (2 ^ 20) = some (some (created 0 (2 ^ 20), m')) ∧
    FailsLate 10 (created 0 (2 ^ 20), m') 4 := by
  obtain ⟨m', hrun, -⟩ := create_eq (show (0 : Int) % kPageSize = 0 by decide) (show kPageSize ≤ 2 ^ 20 by decide)
    (by decide) (fun _ => 0)
  exact ⟨m', hrun, (failsLate_iff hrun (by decide) (by decide) 4).mpr (Or.inr (by decide))⟩

/-- **The fifth call throws**, and there are pages left. -/
theorem fifth_call_throws : ∃ m', Allocator.create (fun _ => 0) 0 (2 ^ 20) = some (some (created 0 (2 ^ 20), m')) ∧
    ¬ FailsLate 10 (created 0 (2 ^ 20), m') 5 := by
  obtain ⟨m', hrun, hs⟩ := create_eq (show (0 : Int) % kPageSize = 0 by decide) (show kPageSize ≤ 2 ^ 20 by decide)
    (by decide) (fun _ => 0)
  have hheap : 22 < (created 0 (2 ^ 20)).heap.max := by decide +kernel
  exact ⟨m', hrun, (fresh_created (by decide)).fails (hs 10 (by decide)) hheap (by decide) (by decide)⟩

end SizeClass
end Snippets
