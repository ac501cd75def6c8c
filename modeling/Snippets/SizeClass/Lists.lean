import Snippets.SizeClass.Pages

/-!
# `SizeClass.Lists` — size classes, and the page lists

A request of up to 4096 bytes has a size class whose blocks are large enough (`sizeClass_spec`). Every class has a list of
pages with a sentinel, and there is never more than one page in it, so only two things happen to a list: a page is prepended
to the empty list (`dllPrepend_eq`), and the only page is removed (`dllRemove_eq`). `Create` leaves every list empty
(`initFreeLists_eq`).
-/

namespace Snippets

open Lib

namespace SizeClass

variable {m m' : Mem} {p q lo hi : Int} {a : PageAllocator} {c : Nat}

/-! ## Size classes

Blocks of a class have two to the power of the class plus two bytes, up to a fourth of a page. -/

/-- Doubling stops at the first power that is large enough. -/
theorem doubleUpTo_spec (fuel : Nat) {sz i : Nat} (hsz : sz ≤ 2 ^ 12) (hi : i ≤ 12) (hfuel : 12 ≤ fuel + i) :
    ∃ j ≤ 12, doubleUpTo sz fuel (2 ^ i) = 2 ^ j ∧ sz ≤ 2 ^ j := by
  induction fuel generalizing i with
  | zero =>
      obtain rfl : i = 12 := by omega
      exact ⟨12, Nat.le_refl _, rfl, hsz⟩
  | succ fuel ih =>
      unfold doubleUpTo
      by_cases hlt : 2 ^ i < sz
      · have hne : i ≠ 12 := by
          rintro rfl
          exact absurd hsz (Nat.not_le_of_lt hlt)
        rw [if_pos hlt, ← Nat.pow_succ]
        exact ih (by omega) (by omega)
      · rw [if_neg hlt]
        exact ⟨i, hi, rfl, Nat.le_of_not_lt hlt⟩

/-- The class of a power of two. -/
theorem sizeClass_pow {j : Nat} (hj : j ≤ 12) : sizeClass (2 ^ j) = some (j - 2) := by
  have hall : ∀ i < 13, sizeClass (2 ^ i) = some (i - 2) := by decide
  exact hall j (by omega)

/-- **A request has a class** whose blocks are large enough. -/
theorem sizeClass_spec {sz : Nat} (hsz : sz ≤ 4096) :
    ∃ c < 11, sizeClass (roundUpToPowerOfTwo sz) = some c ∧ sz ≤ 2 ^ (c + 2) := by
  obtain ⟨j, hj, hround, hle⟩ := doubleUpTo_spec 32 (i := 0) hsz (by omega) (by omega)
  refine ⟨j - 2, by omega, ?_, hle.trans (Nat.pow_le_pow_right (by omega) (by omega))⟩
  have hpow : roundUpToPowerOfTwo sz = 2 ^ j := hround
  rw [hpow]
  exact sizeClass_pow hj

/-! ## Lists

A circular list through the descriptors, with a sentinel for each class. `Prepend` puts a page behind the
sentinel. -/

/-- The sentinel of a class, with the page it links to in both directions. -/
structure Sentinel (a : PageAllocator) (m : Mem) (c : Nat) (target : Int) : Prop where
  id : (page m (a.address (2 * c + 1 : Nat))).id = (2 * c + 1 : Nat)
  next : (page m (a.address (2 * c + 1 : Nat))).next = target
  prev : (page m (a.address (2 * c + 1 : Nat))).prev = target

/-- The members of a sentinel that are used. -/
theorem Sentinel.outside {target : Int} (h : Sentinel a m c target) (hout : Outside m m' lo hi)
    (hap : a.address (2 * c + 1 : Nat) + 20 ≤ lo ∨ hi ≤ a.address (2 * c + 1 : Nat) + 8) : Sentinel a m' c target := by
  generalize hs : a.address (2 * c + 1 : Nat) = s at hap
  obtain ⟨hid, hnext, hprev⟩ := h
  rw [hs] at hid hnext hprev
  have hid' : (page m' s).id = (page m s).id := hout.readInt32 (by omega)
  have hnext' : (page m' s).next = (page m s).next := hout.readInt32 (by omega)
  have hprev' : (page m' s).prev = (page m s).prev := hout.readInt32 (by omega)
  refine ⟨?_, ?_, ?_⟩
  · rw [hs, hid', hid]
  · rw [hs, hnext', hnext]
  · rw [hs, hprev', hprev]

/-- The descriptor of a page that was handed out. -/
theorem findPage_eq {i : Nat} (hlt : i < a.next) : a.findPage i = some (a.address i) := by
  have hne : (i : Int) ≠ kInvalidPageID := by
    unfold kInvalidPageID
    omega
  have hpos : (0 : Int) ≤ i := Int.natCast_nonneg i
  unfold PageAllocator.findPage
  simp only [guard, hlt, hne, hpos, if_true, Option.pure_def, Option.bind_eq_bind, Option.bind_some, ne_eq,
    not_false_eq_true]

/-- An id is in range, -/
theorem inRange_natCast {i : Nat} (h : i < 2 ^ 31) : InRange (i : Int) := by
  unfold InRange
  omega

/-- and is not the invalid one. -/
theorem natCast_ne_invalid (i : Nat) : (i : Int) ≠ kInvalidPageID := by
  unfold kInvalidPageID
  omega

/-- The two links of a descriptor and nothing else. -/
theorem outside_links {s : Int} {v w : Int} : Outside m (setPrev (setNext m s v) s w) (s + 12) (s + 20) := by
  intro x hx
  unfold setPrev setNext
  rw [Mem.writeInt32_outside (by omega), Mem.writeInt32_outside (by omega)]

/-- `DLL_prepend` to an empty list. -/
theorem dllPrepend_run {s : Int} {i k : Nat} (hap : s + 28 ≤ p ∨ p + 28 ≤ s) (hsid : (page m s).id = k)
    (hsnext : (page m s).next = k) (hpid : (page m p).id = i) (hfind : a.findPage k = some s) (hi : InRange (i : Int))
    (hk : InRange (k : Int)) :
    ∃ m', dllPrepend a m s p = some m' ∧ page m' s = { page m s with next := i, prev := i } ∧
      page m' p = { page m p with next := k, prev := k } ∧
      ∀ x, (x < p ∨ p + 28 ≤ x) → (x < s + 12 ∨ s + 20 ≤ x) → m' x = m x := by
  -- four links are written, two of them in the sentinel
  have hp₁ : page (setPrev m p k) p = { page m p with prev := k } := page_setPrev hk
  have hs₁ : page (setPrev m p k) s = page m s := outside_setPrev.page (by omega)
  have hp₂ : page (setNext (setPrev m p k) p k) p = { page m p with next := k, prev := k } := by
    rw [page_setNext hk, hp₁]
  have hs₂ : page (setNext (setPrev m p k) p k) s = page m s := by
    rw [outside_setNext.page (by omega), hs₁]
  have hs₃ : page (setNext (setNext (setPrev m p k) p k) s i) s = { page m s with next := i } := by
    rw [page_setNext hi, hs₂]
  have hp₃ : page (setNext (setNext (setPrev m p k) p k) s i) p = { page m p with next := k, prev := k } := by
    rw [outside_setNext.page (by omega), hp₂]
  refine ⟨setPrev (setNext (setNext (setPrev m p k) p k) s i) s i, ?_, ?_, ?_, ?_⟩
  · unfold dllPrepend
    simp only [hsid, hs₁, hsnext, hp₂, hpid, hp₃, hfind, natCast_ne_invalid, ne_eq, not_false_eq_true, if_true,
      Option.bind_eq_bind, Option.bind_some, Option.pure_def]
  · rw [page_setPrev hi, hs₃]
  · rw [outside_setPrev.page (by omega), hp₃]
  · intro x hxp hxs
    rw [outside_links x hxs, outside_setNext x hxp, outside_setPrev x hxp]

/-- `DLL_remove` of the only page. -/
theorem dllRemove_run {s : Int} {k : Nat} (hap : s + 28 ≤ p ∨ p + 28 ≤ s) (hnext : (page m p).next = k)
    (hprev : (page m p).prev = k) (hfind : a.findPage k = some s) (hk : InRange (k : Int)) :
    ∃ m', dllRemove a m p = some m' ∧ page m' s = { page m s with next := k, prev := k } ∧
      Outside m m' (s + 12) (s + 20) := by
  have hp₁ : page (setNext m s k) p = page m p := outside_setNext.page (by omega)
  refine ⟨setPrev (setNext m s k) s k, ?_, ?_, outside_links⟩
  · unfold dllRemove
    simp only [hp₁, hnext, hprev, hfind, guard, natCast_ne_invalid, ne_eq, not_false_eq_true, if_true,
      Option.bind_eq_bind, Option.bind_some, Option.pure_def]
  · rw [page_setPrev hk, page_setNext hk]

/-- The sentinel of a class is linked to a page. -/
theorem dllPrepend_eq {i : Nat} (hs : Sentinel a m c (2 * c + 1 : Nat)) (hid : (page m (a.address i)).id = i)
    (hne : i ≠ 2 * c + 1) (hlt : (2 * c + 1 : Nat) < a.next) (hi : i < 2 ^ 31) (hc : c < 2 ^ 29) :
    ∃ m', dllPrepend a m (a.address (2 * c + 1 : Nat)) (a.address i) = some m' ∧ Sentinel a m' c i ∧
      page m' (a.address i) = { page m (a.address i) with next := (2 * c + 1 : Nat), prev := (2 * c + 1 : Nat) } ∧
      ∀ x, (x < a.address i ∨ a.address i + 28 ≤ x) →
        (x < a.address (2 * c + 1 : Nat) + 12 ∨ a.address (2 * c + 1 : Nat) + 20 ≤ x) → m' x = m x := by
  obtain ⟨m', hrun, hpage, hnew, hframe⟩ := dllPrepend_run (address_apart (a := a) (Ne.symm hne)) hs.id hs.next hid
    (findPage_eq hlt) (inRange_natCast hi) (inRange_natCast (by omega))
  refine ⟨m', hrun, ⟨?_, ?_, ?_⟩, hnew, hframe⟩
  · rw [hpage]
    exact hs.id
  · rw [hpage]
  · rw [hpage]

/-- The sentinel of a class is linked to itself. -/
theorem dllRemove_eq {i : Nat} {target : Int} (hs : Sentinel a m c target) (hne : i ≠ 2 * c + 1)
    (hnext : (page m (a.address i)).next = (2 * c + 1 : Nat)) (hprev : (page m (a.address i)).prev = (2 * c + 1 : Nat))
    (hlt : (2 * c + 1 : Nat) < a.next) (hc : c < 2 ^ 29) :
    ∃ m', dllRemove a m (a.address i) = some m' ∧ Sentinel a m' c (2 * c + 1 : Nat) ∧
      Outside m m' (a.address (2 * c + 1 : Nat) + 12) (a.address (2 * c + 1 : Nat) + 20) := by
  obtain ⟨m', hrun, hpage, hout⟩ := dllRemove_run (address_apart (a := a) (Ne.symm hne)) hnext hprev (findPage_eq hlt)
    (inRange_natCast (by omega))
  refine ⟨m', hrun, ⟨?_, ?_, ?_⟩, hout⟩
  · rw [hpage]
    exact hs.id
  · rw [hpage]
  · rw [hpage]

/-! ## `Create`

It takes two descriptors for each class, of which the second is the sentinel. -/

/-- `DLL_init`. -/
theorem dllInit_eq {k : Nat} (hid : (page m p).id = k) (hk : InRange (k : Int)) :
    page (dllInit m p) p = { page m p with next := k, prev := k } ∧ Outside m (dllInit m p) p (p + 28) := by
  have hp : page (setPrev m p k) p = { page m p with prev := k } := page_setPrev hk
  have heq : dllInit m p = setNext (setPrev m p k) p k := by
    unfold dllInit
    simp only [hid, hp]
  rw [heq]
  refine ⟨?_, outside_setPrev.trans outside_setNext⟩
  rw [page_setNext hk, hp]

/-- A descriptor that was never used. -/
theorem allocate_new {a : PageAllocator} {i : Nat} (hnext : a.next = i) (hfree : a.freeList = kInvalidOffset)
    (hlt : i < a.max) (hmax : InRange a.max) (m : Mem) :
    a.allocate m = some ({ a with next := (i + 1 : Nat) }, initAllocatedPage m (a.address i) i, some (a.address i)) := by
  unfold PageAllocator.allocate
  rw [if_pos hfree, hnext, if_neg (by omega), ofInt_eq ⟨by omega, by have := hmax.2; omega⟩]
  rfl

/-- **`InitFreeList`** takes two descriptors for a class. -/
theorem initFreeList_eq (hnext : a.next = (2 * c : Nat)) (hfree : a.freeList = kInvalidOffset)
    (hlt : (2 * c + 2 : Nat) ≤ a.max) (hmax : InRange a.max) (m : Mem) :
    ∃ m', initFreeList a m c = some ({ a with next := (2 * c + 2 : Nat) }, m', ⟨c + 2, (2 * c : Nat), (2 * c + 1 : Nat)⟩) ∧
      Sentinel a m' c (2 * c + 1 : Nat) ∧ Outside m m' (a.address (2 * c : Nat)) (a.address (2 * c + 2 : Nat)) := by
  have hmax' := hmax.2
  have h₁ := allocate_new hnext hfree (by omega) hmax m
  have h₂ := allocate_new (a := { a with next := (2 * c + 1 : Nat) }) (i := 2 * c + 1) rfl hfree
    (show ((2 * c + 1 : Nat) : Int) < a.max by omega) hmax (initAllocatedPage m (a.address (2 * c : Nat)) (2 * c : Nat))
  have hr₁ : InRange ((2 * c : Nat) : Int) := inRange_natCast (by omega)
  have hr₂ : InRange ((2 * c + 1 : Nat) : Int) := inRange_natCast (by omega)
  have hsucc : a.address (2 * c + 1 : Nat) = a.address (2 * c : Nat) + 28 := by
    unfold PageAllocator.address sizeofPage
    omega
  have hend : a.address (2 * c + 2 : Nat) = a.address (2 * c : Nat) + 56 := by
    unfold PageAllocator.address sizeofPage
    omega
  have haddr : ({ a with next := ((2 * c + 1 : Nat) : Int) } : PageAllocator).address (2 * c + 1 : Nat) =
      a.address (2 * c : Nat) + 28 := hsucc
  rw [haddr] at h₂
  generalize hp : a.address (2 * c : Nat) = p at h₁ h₂ hsucc hend ⊢
  generalize hm₁ : initAllocatedPage m p (2 * c : Nat) = m₁ at h₁ h₂
  generalize hm₂ : initAllocatedPage m₁ (p + 28) (2 * c + 1 : Nat) = m₂ at h₂
  have hout₁ : Outside m m₁ p (p + 28) := by
    rw [← hm₁]
    exact outside_initAllocatedPage
  have hout₂ : Outside m₁ m₂ (p + 28) (p + 28 + 28) := by
    rw [← hm₂]
    exact outside_initAllocatedPage
  have hempty : (page m₂ p).id = (2 * c : Nat) := by
    rw [hout₂.page (by omega), ← hm₁, page_initAllocatedPage hr₁]
    rfl
  have hnonempty : (page m₂ (p + 28)).id = (2 * c + 1 : Nat) := by
    rw [← hm₂, page_initAllocatedPage hr₂]
    rfl
  obtain ⟨-, hout₃⟩ := dllInit_eq hempty hr₁
  have hnonempty' : (page (dllInit m₂ p) (p + 28)).id = (2 * c + 1 : Nat) := by
    rw [hout₃.page (by omega)]
    exact hnonempty
  obtain ⟨hpage, hout₄⟩ := dllInit_eq hnonempty' hr₂
  refine ⟨dllInit (dllInit m₂ p) (p + 28), ?_, ⟨?_, ?_, ?_⟩, ?_⟩
  · unfold initFreeList FreeList.init
    simp only [h₁, h₂, hempty, hnonempty]
  · rw [hsucc, hpage]
    exact hnonempty'
  · rw [hsucc, hpage]
  · rw [hsucc, hpage]
  · rw [hend]
    intro x hx
    rw [hout₄ x (by omega), hout₃ x (by omega), hout₂ x (by omega), hout₁ x (by omega)]

/-- The free list of a class, as `Init` sets it. -/
def listOf (c : Nat) : FreeList := ⟨c + 2, (2 * c : Nat), (2 * c + 1 : Nat)⟩

/-- A sentinel is read at its address. -/
theorem Sentinel.congr {a' : PageAllocator} {target : Int} (h : Sentinel a m c target) (hstart : a'.start = a.start) :
    Sentinel a' m c target := by
  have haddr : a'.address (2 * c + 1 : Nat) = a.address (2 * c + 1 : Nat) := by
    unfold PageAllocator.address
    rw [hstart]
  refine ⟨?_, ?_, ?_⟩
  · rw [haddr]
    exact h.id
  · rw [haddr]
    exact h.next
  · rw [haddr]
    exact h.prev

/-- **The loop over the classes** leaves an empty list for each of them. -/
theorem initFreeLists_eq {n : Nat} (hnext : a.next = (2 * c : Nat)) (hfree : a.freeList = kInvalidOffset)
    (hlt : (2 * (c + n) : Nat) ≤ a.max) (hmax : InRange a.max) (m : Mem) :
    ∃ m', initFreeLists n c a m = some ({ a with next := (2 * (c + n) : Nat) }, m', (List.range' c n).map listOf) ∧
      (∀ i, c ≤ i → i < c + n → Sentinel a m' i (2 * i + 1 : Nat)) ∧
      Outside m m' (a.address (2 * c : Nat)) (a.address (2 * (c + n) : Nat)) := by
  -- by induction on the classes still to be set up
  induction n generalizing c a m with
  | zero =>
      refine ⟨m, ?_, ?_, Outside.refl⟩
      · unfold initFreeLists
        rw [Nat.add_zero, ← hnext]
        rfl
      · intro i h₁ h₂
        omega
  | succ n ih =>
      obtain ⟨m₁, hrun₁, hs₁, hout₁⟩ := initFreeList_eq hnext hfree (by omega) hmax m
      obtain ⟨m₂, hrun₂, hs₂, hout₂⟩ := ih (c := c + 1) (a := { a with next := ((2 * c + 2 : Nat) : Int) }) rfl hfree
        (by rw [Nat.add_right_comm]; exact hlt) hmax m₁
      have haddr : ∀ i, ({ a with next := ((2 * c + 2 : Nat) : Int) } : PageAllocator).address i = a.address i := fun _ => rfl
      rw [haddr, haddr] at hout₂
      have hsum : c + 1 + n = c + (n + 1) := by omega
      rw [hsum] at hrun₂ hs₂ hout₂
      refine ⟨m₂, ?_, ?_, ?_⟩
      · unfold initFreeLists
        simp only [hrun₁, hrun₂, Option.bind_eq_bind, Option.bind_some, Option.pure_def, List.range'_succ, List.map_cons]
        rfl
      · intro i hle hi
        rcases Nat.eq_or_lt_of_le hle with rfl | hlt'
        · apply hs₁.outside hout₂
          unfold PageAllocator.address sizeofPage
          omega
        · exact (hs₂ i hlt' hi).congr rfl
      · intro x hx
        unfold PageAllocator.address sizeofPage at hout₁ hout₂ hx
        rw [hout₂ x (by omega), hout₁ x (by omega)]

/-- Adding pages stops at the first sum that is large enough, -/
theorem addPagesUpTo_spec (fuel sz : Nat) {x : Nat} (hx : x % kPageSize = 0) :
    addPagesUpTo sz fuel x % kPageSize = 0 ∧ x ≤ addPagesUpTo sz fuel x ∧ addPagesUpTo sz fuel x ≤ max x (sz + kPageSize) := by
  induction fuel generalizing x with
  | zero => exact ⟨hx, Nat.le_refl _, Nat.le_max_left _ _⟩
  | succ fuel ih =>
      unfold addPagesUpTo
      by_cases hlt : x < sz
      · rw [if_pos hlt]
        obtain ⟨h₁, h₂, h₃⟩ := ih (show (x + kPageSize) % kPageSize = 0 by rw [Nat.add_mod_right]; exact hx)
        refine ⟨h₁, Nat.le_trans (Nat.le_add_right _ _) h₂, ?_⟩
        omega
      · rw [if_neg hlt]
        exact ⟨hx, Nat.le_refl _, Nat.le_max_left _ _⟩

/-- so the size is rounded up to pages. -/
theorem roundUpToPageSize_spec (sz : Nat) : roundUpToPageSize sz % kPageSize = 0 ∧ kPageSize ≤ roundUpToPageSize sz ∧
    roundUpToPageSize sz ≤ sz + kPageSize := by
  obtain ⟨h₁, h₂, h₃⟩ := addPagesUpTo_spec (sz / kPageSize + 1) sz (show kPageSize % kPageSize = 0 by decide)
  exact ⟨h₁, h₂, by unfold roundUpToPageSize; omega⟩

/-- `PageAllocator::Create` over an aligned region, -/
theorem pages_create_of_aligned {start : Int} (h : start % kPageSize = 0) (size : Nat) :
    PageAllocator.create start size = some ⟨start, size, toInt32 (size / sizeofPage : Nat), 0, kInvalidOffset⟩ := by
  have heq : (start + 3) / 4 * 4 = start := by
    unfold kPageSize at h
    omega
  unfold PageAllocator.create
  simp only [guard, h, heq, if_true, Int.sub_self, Int.toNat_zero, Nat.add_zero, Nat.sub_zero, ite_self,
    Option.pure_def, Option.bind_eq_bind, Option.bind_some]

/-- How many bytes of a region are for the descriptors. -/
def descriptorSize (sz : Nat) : Nat := roundUpToPageSize ((sz - kPageSize) / 128)

/-- and the size of its part. -/
theorem descriptorSize_spec (sz : Nat) : descriptorSize sz % 16384 = 0 ∧ 16384 ≤ descriptorSize sz ∧
    descriptorSize sz ≤ (sz - 16384) / 128 + 16384 :=
  roundUpToPageSize_spec ((sz - kPageSize) / 128)

/-- The size that `Create` computes for the heap, a 32-bit word. -/
def heapSize (sz : Nat) : Nat := (sz - kPageSize + 2 ^ 32 - descriptorSize sz) % 2 ^ 32

/-- What `Create` makes of a region of `sz` bytes. -/
def created (start : Int) (sz : Nat) : Allocator :=
  ⟨⟨start + kPageSize + descriptorSize sz, heapSize sz, (heapSize sz / kPageSize : Nat)⟩,
    ⟨start + kPageSize, descriptorSize sz, (descriptorSize sz / sizeofPage : Nat), 22, kInvalidOffset⟩,
    (List.range 11).map listOf⟩

/-- `Create`, when it returns an allocator. -/
theorem create_run {start : Int} {sz : Nat} {pages pages' : PageAllocator} {heap : PageHeap} {lists : List FreeList}
    (halign : start % kPageSize = 0) (hsz : kPageSize ≤ sz)
    (hpages : PageAllocator.create (start + kPageSize) (descriptorSize sz) = some pages)
    (hheap : PageHeap.create (start + kPageSize + descriptorSize sz) (heapSize sz) = some heap)
    (hlists : initFreeLists kSizeClassNum 0 pages m = some (pages', m', lists)) :
    Allocator.create m start sz = some (some (⟨heap, pages', lists⟩, m')) := by
  unfold descriptorSize at hpages
  unfold heapSize descriptorSize at hheap
  unfold Allocator.create
  rw [if_neg (not_not.mpr halign), if_neg (Nat.not_lt.mpr hsz)]
  simp only [hpages, hheap, hlists, Option.bind_eq_bind, Option.bind_some, Option.pure_def]

/-- **`Create`** accepts every aligned region of a page or more. -/
theorem create_eq {start : Int} {sz : Nat} (halign : start % kPageSize = 0) (hsz : kPageSize ≤ sz) (hlt : sz < 2 ^ 32)
    (m : Mem) :
    ∃ m', Allocator.create m start sz = some (some (created start sz, m')) ∧
      ∀ c < 11, Sentinel (created start sz).pages m' c (2 * c + 1 : Nat) := by
  obtain ⟨hmod, hle, hround⟩ := descriptorSize_spec sz
  have halign₁ : (start + kPageSize) % kPageSize = 0 := by
    unfold kPageSize at halign ⊢
    omega
  have halign₂ : (start + kPageSize + descriptorSize sz) % kPageSize = 0 := by
    unfold kPageSize at halign ⊢
    omega
  have hcap : 585 ≤ descriptorSize sz / 28 ∧ descriptorSize sz / 28 < 2 ^ 31 := by omega
  have hmax : toInt32 (descriptorSize sz / sizeofPage : Nat) = (descriptorSize sz / sizeofPage : Nat) :=
    toInt32_of_range (by unfold sizeofPage; omega) (by unfold sizeofPage; omega)
  have hpages := pages_create_of_aligned halign₁ (descriptorSize sz)
  rw [hmax] at hpages
  have hheap : PageHeap.create (start + kPageSize + descriptorSize sz) (heapSize sz) =
      some ⟨start + kPageSize + descriptorSize sz, heapSize sz, (heapSize sz / kPageSize : Nat)⟩ := by
    unfold PageHeap.create
    simp only [guard, halign₂, if_true, Option.pure_def, Option.bind_eq_bind, Option.bind_some]
  obtain ⟨m', hrun, hs, -⟩ := initFreeLists_eq (n := 11) (c := 0)
    (a := ⟨start + kPageSize, descriptorSize sz, (descriptorSize sz / sizeofPage : Nat), 0, kInvalidOffset⟩) rfl rfl
    (show ((2 * (0 + 11) : Nat) : Int) ≤ (descriptorSize sz / sizeofPage : Nat) by unfold sizeofPage; omega)
    (inRange_natCast hcap.2) m
  refine ⟨m', ?_, fun c hc => (hs c (Nat.zero_le _) (by omega)).congr rfl⟩
  exact create_run halign hsz hpages hheap hrun

/-- What `Create` returns. -/
theorem created_of_create {a : Allocator} {start : Int} {sz : Nat} (h : Allocator.create m start sz = some (some (a, m')))
    (hlt : sz < 2 ^ 32) : a = created start sz ∧ ∀ c < 11, Sentinel a.pages m' c (2 * c + 1 : Nat) := by
  by_cases halign : start % kPageSize = 0
  · by_cases hsz : kPageSize ≤ sz
    · obtain ⟨m₁, hrun, hs⟩ := create_eq halign hsz hlt m
      rw [hrun] at h
      obtain ⟨rfl, rfl⟩ := Prod.mk.inj (Option.some.inj (Option.some.inj h))
      exact ⟨rfl, hs⟩
    · unfold Allocator.create at h
      rw [if_neg (not_not.mpr halign), if_pos (Nat.lt_of_not_le hsz)] at h
      cases h
  · unfold Allocator.create at h
    rw [if_pos halign] at h
    cases h

end SizeClass
end Snippets
