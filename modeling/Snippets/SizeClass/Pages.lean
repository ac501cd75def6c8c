import Snippets.SizeClass.Model
import Snippets.Lib.Pool
import Snippets.Lib.Run

/-!
# `SizeClass.Pages` — descriptors, and the allocator that hands them out

What a store into a member of a descriptor does to the descriptor (`page_set…`), and to the bytes elsewhere (`Outside`).

A client of `PageAllocator` allocates descriptors and gives back those it holds. The allocator is a `Pool` of ids
(`Holding`), as long as the only page that is given back is page 0: the link of a free page is stored at the byte with the
number of the id, which is in the descriptor itself only for page 0.
-/

namespace Snippets

open Lib

namespace SizeClass

variable {m m' m'' : Mem} {p q lo hi lo' hi' : Int} {v : Int} {n : Nat}

/-! ## Stores into a descriptor

Each member is at an offset of its own below 28. A store changes that member of the page, and no byte elsewhere. -/

/-- The memories differ only from `lo` to `hi`. -/
def Outside (m m' : Mem) (lo hi : Int) : Prop := ∀ x, x < lo ∨ hi ≤ x → m' x = m x

/-- Nothing written, -/
theorem Outside.refl : Outside m m lo hi := fun _ _ => rfl

/-- two writes into one range, -/
theorem Outside.trans (h : Outside m m' lo hi) (h' : Outside m' m'' lo hi) : Outside m m'' lo hi := by
  intro x hx
  rw [h' x hx, h x hx]

/-- and into a larger one. -/
theorem Outside.mono (h : Outside m m' lo hi) (hlo : lo' ≤ lo) (hhi : hi ≤ hi') : Outside m m' lo' hi' := by
  intro x hx
  exact h x (by omega)

/-- A number outside the range reads as before. -/
theorem Outside.readInt32 (h : Outside m m' lo hi) (hp : p + 4 ≤ lo ∨ hi ≤ p) : m'.readInt32 p = m.readInt32 p := by
  refine congrArg int32OfBytes (Mem.read_congr ?_)
  intro i hi'
  exact h _ (by omega)

/-- A descriptor is its bytes. -/
theorem page_congr (h : ∀ x, p ≤ x → x < p + 28 → m' x = m x) : page m' p = page m p := by
  have hword : ∀ (q : Int) (n : Nat), p ≤ q → q + n ≤ p + 28 → m'.readWord q n = m.readWord q n := by
    intro q n hlo hhi
    apply Mem.readWord_shift
    intro i hi
    exact h _ (by omega) (by omega)
  have hint : ∀ q : Int, p ≤ q → q + 4 ≤ p + 28 → m'.readInt32 q = m.readInt32 q := by
    intro q hlo hhi
    refine congrArg int32OfBytes (Mem.read_congr ?_)
    intro i hi
    exact h _ (by omega) (by omega)
  unfold page
  rw [hword p 1 (by omega) (by omega), hword (p + 1) 1 (by omega) (by omega), hword (p + 4) 4 (by omega) (by omega),
    hint (p + 8) (by omega) (by omega), hint (p + 12) (by omega) (by omega), hint (p + 16) (by omega) (by omega),
    hint (p + 20) (by omega) (by omega), hint (p + 24) (by omega) (by omega)]

/-- A descriptor elsewhere. -/
theorem Outside.page (h : Outside m m' lo hi) (hp : p + 28 ≤ lo ∨ hi ≤ p) : page m' p = page m p := by
  apply page_congr
  intro x hlo hhi
  exact h x (by omega)

theorem outside_writeInt32 : Outside m (m.writeInt32 p v) p (p + 4) := fun _ hx => Mem.writeInt32_outside (by omega)

theorem outside_setStatus : Outside m (setStatus m p n) p (p + 28) := fun _ hx => Mem.writeWord_outside (by omega)

theorem outside_setPowOfTwoSize : Outside m (setPowOfTwoSize m p n) p (p + 28) := fun _ hx => Mem.writeWord_outside (by omega)

theorem outside_setRef : Outside m (setRef m p n) p (p + 28) := fun _ hx => Mem.writeWord_outside (by omega)

theorem outside_setId : Outside m (setId m p v) p (p + 28) := fun _ hx => Mem.writeInt32_outside (by omega)

theorem outside_setNext : Outside m (setNext m p v) p (p + 28) := fun _ hx => Mem.writeInt32_outside (by omega)

theorem outside_setPrev : Outside m (setPrev m p v) p (p + 28) := fun _ hx => Mem.writeInt32_outside (by omega)

theorem outside_setFree : Outside m (setFree m p v) p (p + 28) := fun _ hx => Mem.writeInt32_outside (by omega)

theorem outside_setFreeList : Outside m (setFreeList m p v) p (p + 28) := fun _ hx => Mem.writeInt32_outside (by omega)

/-- An `int`. -/
def InRange (v : Int) : Prop := -(2 ^ 31) ≤ v ∧ v < 2 ^ 31

/-- A number in range is not cut. -/
theorem ofInt_eq (h : InRange v) : ofInt v = some v := if_pos h

theorem page_setStatus (hn : n < 256) : page (setStatus m p n) p = { page m p with status := n } := by
  unfold page setStatus Mem.readInt32
  simp (disch := omega) only [Mem.readWord_writeWord_disjoint, Mem.readWord_writeWord_self, Mem.read_writeWord_disjoint,
    Page.mk.injEq, and_true]
  omega

theorem page_setPowOfTwoSize (hn : n < 256) : page (setPowOfTwoSize m p n) p = { page m p with powOfTwoSize := n } := by
  unfold page setPowOfTwoSize Mem.readInt32
  simp (disch := omega) only [Mem.readWord_writeWord_disjoint, Mem.readWord_writeWord_self, Mem.read_writeWord_disjoint,
    Page.mk.injEq, and_true, true_and]
  omega

theorem page_setRef (hn : n < 2 ^ 32) : page (setRef m p n) p = { page m p with ref := n } := by
  unfold page setRef Mem.readInt32
  simp (disch := omega) only [Mem.readWord_writeWord_disjoint, Mem.readWord_writeWord_self, Mem.read_writeWord_disjoint,
    Page.mk.injEq, and_true, true_and]
  omega

/-- A store next to a word. -/
theorem readWord_writeInt32_disjoint (h : p + n ≤ q ∨ q + 4 ≤ p) : (m.writeInt32 q v).readWord p n = m.readWord p n :=
  Mem.readWord_write_disjoint (by rw [int32Bytes_length]; exact h)

theorem page_setId (hv : InRange v) : page (setId m p v) p = { page m p with id := v } := by
  unfold page setId
  simp (disch := omega) only [readWord_writeInt32_disjoint, Mem.readInt32_writeInt32_disjoint,
    Mem.readInt32_writeInt32_self hv.1 hv.2]

theorem page_setNext (hv : InRange v) : page (setNext m p v) p = { page m p with next := v } := by
  unfold page setNext
  simp (disch := omega) only [readWord_writeInt32_disjoint, Mem.readInt32_writeInt32_disjoint,
    Mem.readInt32_writeInt32_self hv.1 hv.2]

theorem page_setPrev (hv : InRange v) : page (setPrev m p v) p = { page m p with prev := v } := by
  unfold page setPrev
  simp (disch := omega) only [readWord_writeInt32_disjoint, Mem.readInt32_writeInt32_disjoint,
    Mem.readInt32_writeInt32_self hv.1 hv.2]

theorem page_setFree (hv : InRange v) : page (setFree m p v) p = { page m p with free := v } := by
  unfold page setFree
  simp (disch := omega) only [readWord_writeInt32_disjoint, Mem.readInt32_writeInt32_disjoint,
    Mem.readInt32_writeInt32_self hv.1 hv.2]

theorem page_setFreeList (hv : InRange v) : page (setFreeList m p v) p = { page m p with freeList := v } := by
  unfold page setFreeList
  simp (disch := omega) only [readWord_writeInt32_disjoint, Mem.readInt32_writeInt32_disjoint,
    Mem.readInt32_writeInt32_self hv.1 hv.2]

/-- The two constants that mean none -/
theorem inRange_invalidPageID : InRange kInvalidPageID := by
  unfold InRange
  decide

/-- are in range, -/
theorem inRange_invalidOffset : InRange kInvalidOffset := inRange_invalidPageID

/-- and so is zero. -/
theorem inRange_zero : InRange 0 := by
  unfold InRange
  omega

/-- A descriptor that was just handed out. -/
def newPage (pow : Nat) (id : Int) : Page := ⟨inUse, pow, 0, id, kInvalidPageID, kInvalidPageID, 0, kInvalidOffset⟩

/-- A descriptor that was set up is a new page, -/
theorem page_initAllocatedPage {id : Int} (hid : InRange id) :
    page (initAllocatedPage m p id) p = newPage (page m p).powOfTwoSize id := by
  unfold initAllocatedPage
  dsimp only
  rw [page_setFreeList inRange_invalidOffset, page_setFree inRange_zero, page_setPrev inRange_invalidPageID,
    page_setNext inRange_invalidPageID, page_setId hid, page_setRef (by decide), page_setStatus (by decide)]
  rfl

/-- and nothing else was written. -/
theorem outside_initAllocatedPage {id : Int} : Outside m (initAllocatedPage m p id) p (p + 28) :=
  ((((((outside_setStatus.trans outside_setRef).trans outside_setId).trans outside_setNext).trans outside_setPrev).trans
    outside_setFree).trans outside_setFreeList)

/-! ## Clients of `PageAllocator`

The descriptors are a pool of ids. Its free list goes through cells at the wrong distance, as in
`RegionAllocator`, so only descriptor 0 can be given back unharmed. -/

/-- A call with the id it returned, or of the page it is about. -/
inductive PageCall
  | allocate (res : Option Nat)
  | deallocate (id : Nat)

/-- The allocator and its memory, the ids that were given back, the last one first, and those in use. -/
structure PageClient where
  pages : PageAllocator
  mem : Mem
  freed : List Nat
  live : List Nat

/-- The step relation: a client gives back pages that are in use, and to which nothing refers. -/
def PageStep (s : PageClient) : PageCall → PageClient → Prop
  | .allocate none, t => ∃ a m, s.pages.allocate s.mem = some (a, m, none) ∧ t = { s with pages := a, mem := m }
  | .allocate (some id), t => ∃ a m, s.pages.allocate s.mem = some (a, m, some (s.pages.address id)) ∧
      t = ⟨a, m, s.freed.erase id, id :: s.live⟩
  | .deallocate id, t => id ∈ s.live ∧ (page s.mem (s.pages.address id)).ref = 0 ∧
      ∃ a m, s.pages.deallocate s.mem (s.pages.address id) = some (a, m) ∧ t = ⟨a, m, id :: s.freed, s.live.erase id⟩

/-- When a call does what it should: only page 0 is given back, and the counter of an allocator whose capacity has turned
    negative does not overflow. -/
def PageSpared (s : PageClient) : PageCall → Prop
  | .allocate _ => ¬ (s.pages.max < 0 ∧ s.pages.freeList = kInvalidOffset ∧ s.pages.next = 2 ^ 31 - 1)
  | .deallocate id => id = 0

/-- What a client relies on in a call. -/
structure PageStepSound (s : PageClient) (call : PageCall) (t : PageClient) : Prop where
  fresh : ∀ id, call = .allocate (some id) → id ∉ s.live ∧ id < s.pages.capacity
  full : ∀ res, call = .allocate res → (res = none ↔ s.live.length = s.pages.capacity)
  frame : ∀ id, call = .deallocate id → ∀ j < s.pages.capacity, j ≠ id →
    page t.mem (s.pages.address j) = page s.mem (s.pages.address j)

/-- What a client relies on in a state. -/
structure PageSound (s : PageClient) : Prop where
  distinct : s.live.Nodup
  below : ∀ id ∈ s.live, id < s.pages.capacity
  allocate : PageSpared s (.allocate none) → ∃ res t, PageStep s (.allocate res) t
  deallocate : ∀ id ∈ s.live, PageSpared s (.deallocate id) → ∃ t, PageStep s (.deallocate id) t
  steps : ∀ call t, PageStep s call t → PageSpared s call → PageStepSound s call t

/-- How many ids there are. -/
def idLimit (max : Int) : Nat := if 0 ≤ max then max.toNat else 2 ^ 31 - 1

/-- **The allocator's invariant.** -/
structure PageHolding (s : PageClient) : Prop where
  pool : Pool.Within ⟨s.pages.next.toNat, s.freed, s.live⟩ 0 (idLimit s.pages.max)
  next : 0 ≤ s.pages.next
  max : InRange s.pages.max
  room : sizeofPage * idLimit s.pages.max ≤ s.pages.size
  list : s.freed = [] ∧ s.pages.freeList = kInvalidOffset ∨
    s.freed = [0] ∧ s.pages.freeList = 0 ∧ s.mem.readInt32 s.pages.start = kInvalidOffset
  inUse : ∀ id ∈ s.live, (page s.mem (s.pages.address id)).status = inUse ∧ (page s.mem (s.pages.address id)).ref = 0 ∧
    (page s.mem (s.pages.address id)).id = id

section Client

variable {s t : PageClient} {call : PageCall} {id : Nat}

/-- The limit of the ids is an `int`. -/
theorem idLimit_lt {max : Int} (h : max < 2 ^ 31) : idLimit max < 2 ^ 31 := by
  unfold idLimit
  split <;> omega

/-- Ids are below the capacity, whether or not that has turned negative. -/
theorem PageHolding.limit_le (h : PageHolding s) : idLimit s.pages.max ≤ s.pages.capacity := by
  obtain ⟨hmin, hmax⟩ := h.max
  unfold idLimit PageAllocator.capacity toSize
  split <;> omega

/-- Two descriptors do not overlap, -/
theorem address_apart {a : PageAllocator} {i j : Nat} (hne : i ≠ j) :
    a.address i + 28 ≤ a.address j ∨ a.address j + 28 ≤ a.address i := by
  unfold PageAllocator.address sizeofPage
  omega

/-- so an address is one id's. -/
theorem address_inj {a : PageAllocator} {i j : Nat} (h : a.address i = a.address j) : i = j := by
  unfold PageAllocator.address sizeofPage at h
  omega

/-- A page that is in use stays so, when another one is initialised. -/
theorem PageHolding.inUse_init (h : PageHolding s) {i : Nat} (hi : InRange i) (hnot : i ∉ s.live) :
    ∀ id ∈ i :: s.live, (page (initAllocatedPage s.mem (s.pages.address i) i) (s.pages.address id)).status = SizeClass.inUse ∧
      (page (initAllocatedPage s.mem (s.pages.address i) i) (s.pages.address id)).ref = 0 ∧
      (page (initAllocatedPage s.mem (s.pages.address i) i) (s.pages.address id)).id = id := by
  intro id hid
  rcases List.mem_cons.mp hid with rfl | hlive
  · rw [page_initAllocatedPage hi]
    exact ⟨rfl, rfl, rfl⟩
  · have hne : id ≠ i := by
      rintro rfl
      exact hnot hlive
    rw [outside_initAllocatedPage.page (address_apart hne)]
    exact h.inUse id hlive

/-- **`Allocate`** fails when every page is in use, and hands out one that is not otherwise. -/
theorem PageHolding.allocate_cases (h : PageHolding s) (hspare : PageSpared s (.allocate none)) :
    (s.pages.max = s.live.length ∧ s.pages.allocate s.mem = some (s.pages, s.mem, none)) ∨
      (s.live.length < idLimit s.pages.max ∧ ∃ a m, ∃ id : Nat,
        s.pages.allocate s.mem = some (a, m, some (s.pages.address id)) ∧ id ∉ s.live ∧ id < idLimit s.pages.max ∧
        a.max = s.pages.max ∧ a.start = s.pages.start ∧ PageHolding ⟨a, m, s.freed.erase id, id :: s.live⟩) := by
  have hlimit := idLimit_lt h.max.2
  have hnext := h.next
  rcases h.list with ⟨hfreed, hnil⟩ | ⟨hfreed, hzero, hlink⟩
  · have hnew : s.pages.next.toNat = 0 + s.live.length := h.pool.next_eq hfreed
    have hle : s.pages.next.toNat ≤ idLimit s.pages.max := h.pool.le_hi
    -- full, a descriptor given back, or a new one
    by_cases hfull : s.pages.next = s.pages.max
    · refine Or.inl ⟨by omega, ?_⟩
      unfold PageAllocator.allocate
      rw [if_pos hnil, if_pos hfull]
    · have hlt : s.pages.next.toNat < idLimit s.pages.max := by
        have hspare' : ¬ (s.pages.max < 0 ∧ s.pages.next = 2 ^ 31 - 1) := fun hneg => hspare ⟨hneg.1, hnil, hneg.2⟩
        unfold idLimit at hle ⊢
        by_cases hpos : 0 ≤ s.pages.max
        · rw [if_pos hpos] at hle ⊢
          omega
        · rw [if_neg hpos] at hle ⊢
          omega
      have hcast : ((s.pages.next.toNat : Nat) : Int) = s.pages.next := Int.toNat_of_nonneg hnext
      have hnot : s.pages.next.toNat ∉ s.live := h.pool.next_not_live
      have hrange : InRange (s.pages.next.toNat : Int) := ⟨by omega, by omega⟩
      have hrun : s.pages.allocate s.mem = some ({ s.pages with next := s.pages.next + 1 },
          initAllocatedPage s.mem (s.pages.address (s.pages.next.toNat : Nat)) (s.pages.next.toNat : Nat),
          some (s.pages.address (s.pages.next.toNat : Nat))) := by
        unfold PageAllocator.allocate
        rw [if_pos hnil, if_neg hfull, ofInt_eq ⟨by omega, by omega⟩, hcast]
        rfl
      refine Or.inr ⟨by omega, _, _, s.pages.next.toNat, hrun, hnot, hlt, rfl, rfl, ?_, by show 0 ≤ s.pages.next + 1; omega,
        h.max, h.room, Or.inl ⟨?_, hnil⟩, h.inUse_init hrange hnot⟩
      · have hbump := h.pool.bump hfreed hlt
        have hsucc : (s.pages.next + 1).toNat = s.pages.next.toNat + 1 := by omega
        show Pool.Within ⟨(s.pages.next + 1).toNat, _, _⟩ 0 _
        rw [hsucc, hfreed]
        exact hbump
      · rw [hfreed]
        rfl
  · have hmem : 0 ∈ s.freed := by
      rw [hfreed]
      exact List.mem_cons_self
    have hnot : 0 ∉ s.live := h.pool.not_live_of_free hmem
    have hlen := h.pool.length
    have hle := h.pool.le_hi
    have hone : s.freed.length = 1 := by
      rw [hfreed]
      rfl
    simp only [hone] at hlen hle
    have hrange : InRange ((0 : Nat) : Int) := inRange_zero
    have hrun : s.pages.allocate s.mem = some ({ s.pages with freeList := kInvalidOffset },
        initAllocatedPage s.mem (s.pages.address (0 : Nat)) (0 : Nat), some (s.pages.address (0 : Nat))) := by
      unfold PageAllocator.allocate
      rw [hzero, if_neg (by decide), Int.add_zero, hlink]
      rfl
    refine Or.inr ⟨by omega, _, _, 0, hrun, hnot, (h.pool.mem_free hmem).2, rfl, rfl, ?_, h.next, h.max, h.room,
      Or.inl ⟨?_, rfl⟩, h.inUse_init hrange hnot⟩
    · have hpop := h.pool.pop hfreed
      rw [hfreed]
      exact hpop
    · rw [hfreed]
      rfl

/-- `Deallocate`, when no assert fails. -/
theorem deallocate_eq {a : PageAllocator} {m : Mem} {i : Nat} (hlt : i < a.next) (hroom : sizeofPage * i < a.size)
    (hid : (page m (a.address i)).id = i) (href : (page m (a.address i)).ref = 0)
    (hstatus : (page m (a.address i)).status = inUse) :
    a.deallocate m (a.address i) = some ({ a with freeList := i },
      (setStatus m (a.address i) free).writeInt32 (a.start + i) a.freeList) := by
  have hne : (i : Int) ≠ kInvalidPageID := by
    unfold kInvalidPageID
    omega
  have hpos : (0 : Int) ≤ i := Int.natCast_nonneg i
  have hstart : a.start ≤ a.address i := by
    unfold PageAllocator.address
    omega
  have hend : a.address i < a.start + a.size := by
    unfold PageAllocator.address
    omega
  unfold PageAllocator.deallocate
  simp only [hid, href, hstatus, guard, hlt, hne, hpos, hstart, hend, if_true, Option.pure_def, Option.bind_eq_bind,
    Option.bind_some, ne_eq, not_false_eq_true]

/-- `Deallocate` of page 0: the link is in the descriptor itself. -/
theorem PageHolding.deallocate (h : PageHolding s) (hid : 0 ∈ s.live) :
    ∃ a m, s.pages.deallocate s.mem (s.pages.address (0 : Nat)) = some (a, m) ∧
      Outside s.mem m (s.pages.address (0 : Nat)) (s.pages.address (0 : Nat) + 28) ∧
      PageHolding ⟨a, m, 0 :: s.freed, s.live.erase 0⟩ := by
  obtain ⟨hstatus, href, hzero⟩ := h.inUse 0 hid
  obtain ⟨hfreed, hnil⟩ : s.freed = [] ∧ s.pages.freeList = kInvalidOffset := by
    rcases h.list with hlist | ⟨hfreed, -⟩
    · exact hlist
    · have hmem : 0 ∈ s.freed := by
        rw [hfreed]
        exact List.mem_cons_self
      exact absurd hid (h.pool.not_live_of_free hmem)
  have hlt : 0 < s.pages.next.toNat := (h.pool.mem_iff.mp (Or.inr hid)).2
  have hlimit : 0 < idLimit s.pages.max := (h.pool.mem_live hid).2
  have hroom := h.room
  have haddr : s.pages.address (0 : Nat) = s.pages.start := by
    unfold PageAllocator.address
    omega
  have hzero' : (page s.mem s.pages.start).id = 0 := by
    rw [← haddr]
    exact hzero
  rw [haddr] at hstatus href ⊢
  have hout : Outside s.mem ((setStatus s.mem s.pages.start SizeClass.free).writeInt32 s.pages.start kInvalidOffset)
      s.pages.start (s.pages.start + 28) :=
    outside_setStatus.trans (outside_writeInt32.mono (Int.le_refl _) (by omega))
  refine ⟨{ s.pages with freeList := 0 }, _, ?_, hout, h.pool.give hid, h.next, h.max, h.room, Or.inr ⟨?_, rfl, ?_⟩, ?_⟩
  · have hrun := deallocate_eq (a := s.pages) (m := s.mem) (i := 0) (by omega) (by unfold sizeofPage at hroom ⊢; omega) hzero
      (by rw [haddr]; exact href) (by rw [haddr]; exact hstatus)
    rw [haddr, hnil] at hrun
    have hadd : s.pages.start + ((0 : Nat) : Int) = s.pages.start := by omega
    rw [hadd] at hrun
    exact hrun
  · rw [hfreed]
  · exact Mem.readInt32_writeInt32_self (by decide) (by decide)
  · intro j hj
    have hne : j ≠ 0 := by
      rintro rfl
      exact absurd hj h.pool.nodup_live.not_mem_erase
    have hap := address_apart (a := s.pages) hne
    rw [haddr] at hap
    show (page _ (s.pages.address j)).status = _ ∧ (page _ (s.pages.address j)).ref = 0 ∧ (page _ (s.pages.address j)).id = j
    rw [hout.page hap]
    exact h.inUse j (List.mem_of_mem_erase hj)

/-- **Every call keeps the invariant.** -/
theorem PageHolding.step (h : PageHolding s) (hst : PageStep s call t) (hspare : PageSpared s call) : PageHolding t := by
  cases call with
  | allocate res =>
      rcases h.allocate_cases hspare with ⟨-, halloc⟩ | ⟨-, a, m, id, halloc, -, -, -, -, hnew⟩
      · cases res with
        | none =>
            obtain ⟨a, m, hrun, rfl⟩ := hst
            rw [halloc] at hrun
            cases hrun
            exact h
        | some id =>
            obtain ⟨a, m, hrun, -⟩ := hst
            rw [halloc] at hrun
            cases hrun
      · cases res with
        | none =>
            obtain ⟨a, m, hrun, -⟩ := hst
            rw [halloc] at hrun
            cases hrun
        | some j =>
            obtain ⟨a, m, hrun, rfl⟩ := hst
            rw [halloc] at hrun
            obtain ⟨rfl, hrest⟩ := Prod.mk.inj (Option.some.inj hrun)
            obtain ⟨rfl, hid⟩ := Prod.mk.inj hrest
            obtain rfl := address_inj (Option.some.inj hid)
            exact hnew
  | deallocate id =>
      obtain rfl : id = 0 := hspare
      obtain ⟨hid, -, a, m, hrun, rfl⟩ := hst
      obtain ⟨a', m', hdealloc, -, hgive⟩ := h.deallocate hid
      rw [hdealloc] at hrun
      cases hrun
      exact hgive

/-- What one call promises. -/
theorem PageHolding.stepSound (h : PageHolding s) (hst : PageStep s call t) (hspare : PageSpared s call) :
    PageStepSound s call t := by
  obtain ⟨hmin, hmax⟩ := h.max
  have hlimit := h.limit_le
  have hle : s.live.length ≤ idLimit s.pages.max := h.pool.length_le
  -- a new id, `none` exactly when there is none left, and the other descriptors
  refine ⟨?_, ?_, ?_⟩
  · rintro id rfl
    obtain ⟨a, m, hrun, -⟩ := hst
    rcases h.allocate_cases hspare with ⟨-, halloc⟩ | ⟨-, a', m', j, halloc, hnot, hlt, -⟩
    · rw [halloc] at hrun
      cases hrun
    · rw [halloc] at hrun
      obtain ⟨-, hid⟩ := Prod.mk.inj (Prod.mk.inj (Option.some.inj hrun)).2
      obtain rfl := address_inj (Option.some.inj hid)
      exact ⟨hnot, Nat.lt_of_lt_of_le hlt hlimit⟩
  · rintro res rfl
    rcases h.allocate_cases hspare with ⟨hfull, halloc⟩ | ⟨hroom, a', m', j, halloc, -⟩
    · refine iff_of_true ?_ ?_
      · cases res with
        | none => rfl
        | some id =>
            obtain ⟨a, m, hrun, -⟩ := hst
            rw [halloc] at hrun
            cases hrun
      · unfold PageAllocator.capacity
        rw [hfull, toSize_of_range (by omega) (by omega)]
        omega
    · refine iff_of_false ?_ (by omega)
      rintro rfl
      obtain ⟨a, m, hrun, -⟩ := hst
      rw [halloc] at hrun
      cases hrun
  · rintro id rfl j - hne
    obtain rfl : id = 0 := hspare
    obtain ⟨hid, -, a, m, hrun, rfl⟩ := hst
    obtain ⟨a', m', hdealloc, hout, -⟩ := h.deallocate hid
    rw [hdealloc] at hrun
    cases hrun
    exact hout.page (address_apart hne)

/-- What a state promises. -/
theorem PageHolding.sound (h : PageHolding s) : PageSound s := by
  have hlimit := h.limit_le
  refine ⟨h.pool.nodup_live, ?_, ?_, ?_, fun call t hst hspare => h.stepSound hst hspare⟩
  · intro id hid
    exact Nat.lt_of_lt_of_le (h.pool.mem_live hid).2 hlimit
  · intro hspare
    rcases h.allocate_cases hspare with ⟨-, halloc⟩ | ⟨-, a, m, id, halloc, -⟩
    · exact ⟨none, _, _, _, halloc, rfl⟩
    · exact ⟨some id, _, a, m, halloc, rfl⟩
  · rintro id hid hspare
    obtain rfl : id = 0 := hspare
    obtain ⟨a, m, hdealloc, -⟩ := h.deallocate hid
    exact ⟨_, hid, (h.inUse 0 hid).2.1, a, m, hdealloc, rfl⟩

end Client

/-! ## From `Create` on

A created allocator has no pages. -/

section Created

variable {start : Int} {size : Nat} {a : PageAllocator} {mem : Mem} {calls : List PageCall} {s : PageClient}

/-- What `Create` checks and computes. -/
theorem pages_create_eq (hc : PageAllocator.create start size = some a) :
    start % kPageSize = 0 ∧ a = ⟨start, size, toInt32 (size / sizeofPage : Nat), 0, kInvalidOffset⟩ := by
  unfold PageAllocator.create at hc
  by_cases halign : start % kPageSize = 0
  · have heq : (start + 3) / 4 * 4 = start := by
      unfold kPageSize at halign
      omega
    simp only [guard, halign, heq, if_true, Int.sub_self, Int.toNat_zero, Nat.add_zero, Nat.sub_zero, ite_self,
      Option.pure_def, Option.bind_eq_bind, Option.bind_some, Option.some.injEq] at hc
    exact ⟨halign, hc.symm⟩
  · simp only [guard, halign, if_false, Option.bind_eq_bind] at hc
    cases hc

/-- The count of pages is cut to 32 bits, -/
theorem inRange_toInt32 (x : Int) : InRange (toInt32 x) := by
  unfold InRange toInt32
  split <;> omega

/-- which never makes it larger. -/
theorem idLimit_toInt32_le (n : Nat) : idLimit (toInt32 n) ≤ n := by
  unfold idLimit toInt32
  by_cases hn : 2 ^ 31 ≤ ((n : Int) % 2 ^ 32).toNat
  · rw [if_pos hn]
    split <;> omega
  · rw [if_neg hn]
    split <;> omega

/-- So the invariant holds in the beginning. -/
theorem pageHolding_create (hc : PageAllocator.create start size = some a) (mem : Mem) : PageHolding ⟨a, mem, [], []⟩ := by
  obtain ⟨-, rfl⟩ := pages_create_eq hc
  refine ⟨Pool.within_new (Nat.zero_le _), Int.le_refl _, inRange_toInt32 _, ?_, Or.inl ⟨rfl, rfl⟩, fun id hid => nomatch hid⟩
  exact (Nat.mul_le_mul_left _ (idLimit_toInt32_le _)).trans (Nat.mul_div_le _ _)

/-- **The descriptors are handed out soundly** in every run whose calls are all `PageSpared`. -/
theorem pageSound_of_run (hc : PageAllocator.create start size = some a)
    (hrun : Run (fun s call t => PageStep s call t ∧ PageSpared s call) ⟨a, mem, [], []⟩ calls s) : PageSound s := by
  have h : PageHolding s :=
    Run.invariant (I := PageHolding) (fun _ _ _ h hst => h.step hst.1 hst.2) hrun (pageHolding_create hc mem)
  exact h.sound

/-- Room for two descriptors. -/
def twoPages : PageAllocator := ⟨0, 56, 2, 0, -1⟩

/-- Two descriptors, from 56 bytes. -/
theorem create_twoPages : PageAllocator.create 0 56 = some twoPages := by decide +kernel

/-- The memory after the first `Allocate`, -/
def memOne : Mem := initAllocatedPage (fun _ => 0) 0 0

/-- and after the second. -/
def memTwo : Mem := initAllocatedPage memOne 28 1

/-- The two calls. -/
theorem step_twoPages : PageStep ⟨twoPages, fun _ => 0, [], []⟩ (.allocate (some 0)) ⟨{ twoPages with next := 1 }, memOne, [], [0]⟩ ∧
    PageStep ⟨{ twoPages with next := 1 }, memOne, [], [0]⟩ (.allocate (some 1))
      ⟨{ twoPages with next := 2 }, memTwo, [], [1, 0]⟩ :=
  ⟨⟨_, _, rfl, rfl⟩, ⟨_, _, rfl, rfl⟩⟩

/-- Page 0 is given back while page 1 is in use, and got again. -/
theorem pageSound_of_run_again : ∃ a m, Run (fun s call t => PageStep s call t ∧ PageSpared s call)
    ⟨twoPages, fun _ => 0, [], []⟩ [.allocate (some 0), .allocate (some 1), .deallocate 0, .allocate (some 0)]
      ⟨a, m, [], [0, 1]⟩ ∧ PageSound ⟨a, m, [], [0, 1]⟩ := by
  have hc : (({ twoPages with next := 2 } : PageAllocator).deallocate memTwo 0).bind
      (fun x => (x.1.allocate x.2).map fun y => (x.1.address 0, x.1.max, y.2.2)) = some (0, 2, some 0) := by
    decide +kernel
  simp only [Option.bind_eq_some_iff, Option.map_eq_some_iff, Prod.mk.injEq] at hc
  obtain ⟨⟨a₁, m₁⟩, hback, ⟨a₂, m₂, p⟩, hgot, hfirst, hmax, rfl⟩ := hc
  have hgive : PageStep ⟨{ twoPages with next := 2 }, memTwo, [], [1, 0]⟩ (.deallocate 0) ⟨a₁, m₁, [0], [1]⟩ :=
    ⟨by decide, by decide +kernel, _, _, hback, rfl⟩
  have hget : PageStep ⟨a₁, m₁, [0], [1]⟩ (.allocate (some 0)) ⟨a₂, m₂, [], [0, 1]⟩ :=
    ⟨a₂, m₂, by rw [Int.natCast_zero, hfirst]; exact hgot, rfl⟩
  -- the capacity stays two, which is not negative
  have hspared : ∀ (s : PageClient) (res : Option Nat), s.pages.max = 2 → PageSpared s (.allocate res) := by
    rintro s res htwo ⟨hneg, -⟩
    omega
  have hrun : Run (fun s call t => PageStep s call t ∧ PageSpared s call) ⟨twoPages, fun _ => 0, [], []⟩
      [.allocate (some 0), .allocate (some 1), .deallocate 0, .allocate (some 0)] ⟨a₂, m₂, [], [0, 1]⟩ :=
    (((Run.single ⟨step_twoPages.1, hspared _ _ rfl⟩).tail ⟨step_twoPages.2, hspared _ _ rfl⟩).tail ⟨hgive, rfl⟩).tail
      ⟨hget, hspared _ _ hmax⟩
  exact ⟨a₂, m₂, hrun, pageSound_of_run create_twoPages hrun⟩

/-- **The link of page 1 is written over the members of page 0.** -/
theorem link_overwrites_page : PageAllocator.create 0 56 = some twoPages ∧ ∃ calls s t,
    Run PageStep ⟨twoPages, fun _ => 0, [], []⟩ calls s ∧ PageStep s (.deallocate 1) t ∧ 0 ∈ t.live ∧
      page t.mem (s.pages.address (0 : Nat)) ≠ page s.mem (s.pages.address (0 : Nat)) := by
  have hrun := Run.trans (Run.single step_twoPages.1) (Run.single step_twoPages.2)
  refine ⟨create_twoPages, _, _, ⟨{ twoPages with next := 2, freeList := 1 },
    (setStatus memTwo 28 free).writeInt32 1 (-1), [1], [0]⟩, hrun, ⟨List.mem_cons_self, ?_, _, _, ?_, rfl⟩, List.mem_cons_self, ?_⟩
  · decide +kernel
  · exact deallocate_eq (by decide) (by decide) (by decide +kernel) (by decide +kernel) (by decide +kernel)
  · decide +kernel

end Created

end SizeClass
end Snippets
