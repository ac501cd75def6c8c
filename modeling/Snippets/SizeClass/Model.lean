import Snippets.Lib.Bytes

/-!
# `SizeClass.Model` — the allocator of `RegionBasedAllocator`, on the bytes of its region

A region has a reserved page, the descriptors of the pages (`PageAllocator`) and the pages themselves (`PageHeap`). The
descriptors are read and written in memory, at the offsets of the members of `struct Page`; the sentinels of the page lists
are descriptors as well. A block is named by its offset from the first page of the heap. Offsets and page ids are 32-bit
`int`s.

`PageAllocator` chains the descriptors that were given back with `SLL_push`, which takes an offset in bytes; it is given an
id. `Page` chains its free blocks with the same function; it is given an offset from the heap, and pops one from the page.

A failing `assert`, and an `int` that leaves its range, have no result (`none`); `bad_alloc` is a result. Pointers do not
overflow.
-/

namespace Snippets

open Lib

namespace SizeClass

def kInvalidOffset : Int := -1
def kInvalidPageID : Int := -1
def kPageSize : Nat := 16384

/-- The values of `PageStatus`. -/
def inUse : Nat := 1
def free : Nat := 2

/-- `sizeof(Page)`. -/
def sizeofPage : Nat := 28

/-- The sum or difference of two `int`s. -/
def ofInt (x : Int) : Option Int := if -(2 ^ 31) ≤ x ∧ x < 2 ^ 31 then some x else none

/-! ## `struct Page` -/

structure Page where
  status : Nat
  powOfTwoSize : Nat
  ref : Nat
  id : Int
  next : Int
  prev : Int
  free : Int
  freeList : Int
deriving DecidableEq

/-- `*page`. -/
def page (m : Mem) (p : Int) : Page :=
  ⟨m.readWord p 1, m.readWord (p + 1) 1, m.readWord (p + 4) 4, m.readInt32 (p + 8), m.readInt32 (p + 12),
    m.readInt32 (p + 16), m.readInt32 (p + 20), m.readInt32 (p + 24)⟩

def setStatus (m : Mem) (p : Int) (v : Nat) : Mem := m.writeWord p 1 v
def setPowOfTwoSize (m : Mem) (p : Int) (v : Nat) : Mem := m.writeWord (p + 1) 1 v
def setRef (m : Mem) (p : Int) (v : Nat) : Mem := m.writeWord (p + 4) 4 v
def setId (m : Mem) (p : Int) (v : Int) : Mem := m.writeInt32 (p + 8) v
def setNext (m : Mem) (p : Int) (v : Int) : Mem := m.writeInt32 (p + 12) v
def setPrev (m : Mem) (p : Int) (v : Int) : Mem := m.writeInt32 (p + 16) v
def setFree (m : Mem) (p : Int) (v : Int) : Mem := m.writeInt32 (p + 20) v
def setFreeList (m : Mem) (p : Int) (v : Int) : Mem := m.writeInt32 (p + 24) v

/-- `base()`; the product is unsigned. -/
def Page.base (pg : Page) : Int := toInt32 (kPageSize * pg.id)

/-- `Page::Allocate`; an offset of `none` is `bad_alloc`. -/
def pageAllocate (m : Mem) (p pageStart : Int) : Option (Mem × Option Int) :=
  let pg := page m p
  if pg.freeList = kInvalidOffset then
    if pg.free = kPageSize then some (m, none)
    else do
      let free ← ofInt (pg.free + 2 ^ pg.powOfTwoSize)
      let m := setFree m p free
      let m := setRef m p (pg.ref + 1)
      let offset ← ofInt (pg.base + free)
      return (m, some offset)
  else do
    let m := setRef m p (pg.ref + 1)
    -- `SLL_pop(&free_list, page_start)`
    let m := setFreeList m p (m.readInt32 (pageStart + pg.freeList))
    let offset ← ofInt (pg.base + pg.freeList)
    return (m, some offset)

/-- `Page::Deallocate`. -/
def pageDeallocate (m : Mem) (p pageStart : Int) (offset : Int) : Option Mem := do
  guard ((page m p).status = inUse)
  guard (0 < (page m p).ref)
  let m := setRef m p ((page m p).ref - 1)
  -- `SLL_push(&free_list, page_start, offset)`
  let m := m.writeInt32 (pageStart + offset) (page m p).freeList
  return setFreeList m p offset

/-! ## `class PageAllocator` -/

/-- The members; `max` is a 32-bit `int`. -/
structure PageAllocator where
  start : Int
  size : Nat
  max : Int
  next : Int
  freeList : Int
deriving DecidableEq

/-- Where the descriptor of a page is. -/
def PageAllocator.address (a : PageAllocator) (id : Int) : Int := a.start + sizeofPage * id

def PageAllocator.capacity (a : PageAllocator) : Nat := toSize a.max

/-- `Create`. `align` moves the start to a multiple of `alignof(Page)`, if a page still fits. -/
def PageAllocator.create (start : Int) (size : Nat) : Option PageAllocator := do
  guard (start % kPageSize = 0)
  let aligned := (start + 3) / 4 * 4
  let diff := (aligned - start).toNat
  let (start, size) := if size < sizeofPage + diff then (start, size) else (aligned, size - diff)
  return ⟨start, size, toInt32 (size / sizeofPage : Nat), 0, kInvalidOffset⟩

/-- `InitAllocatedPage`. -/
def initAllocatedPage (m : Mem) (p : Int) (id : Int) : Mem :=
  let m := setStatus m p inUse
  let m := setRef m p 0
  let m := setId m p id
  let m := setNext m p kInvalidPageID
  let m := setPrev m p kInvalidPageID
  let m := setFree m p 0
  setFreeList m p kInvalidOffset

/-- `Allocate`: the address of the descriptor, or `none` for `bad_alloc`. -/
def PageAllocator.allocate (a : PageAllocator) (m : Mem) : Option (PageAllocator × Mem × Option Int) :=
  if a.freeList = kInvalidOffset then
    if a.next = a.max then some (a, m, none)
    else do
      let next ← ofInt (a.next + 1)
      return ({ a with next := next }, initAllocatedPage m (a.address a.next) a.next, some (a.address a.next))
  else
    -- `SLL_pop(&free_list_, start)`
    some ({ a with freeList := m.readInt32 (a.start + a.freeList) },
      initAllocatedPage m (a.address a.freeList) a.freeList, some (a.address a.freeList))

def PageAllocator.findPage (a : PageAllocator) (id : Int) : Option Int := do
  guard (id < a.next)
  guard (id ≠ kInvalidPageID)
  guard (0 ≤ id)
  return a.address id

/-- `Deallocate`. -/
def PageAllocator.deallocate (a : PageAllocator) (m : Mem) (p : Int) : Option (PageAllocator × Mem) := do
  let pg := page m p
  guard (pg.id < a.next)
  guard (pg.id ≠ kInvalidPageID)
  guard (0 ≤ pg.id)
  guard (a.start ≤ p)
  guard (p < a.start + a.size)
  guard (a.address pg.id = p)
  guard (pg.ref = 0)
  guard (pg.status = inUse)
  let m := setStatus m p SizeClass.free
  -- `SLL_push(&free_list_, start, page->id)`
  let m := m.writeInt32 (a.start + pg.id) a.freeList
  return ({ a with freeList := pg.id }, m)

/-! ## Lists of pages -/

def dllInit (m : Mem) (p : Int) : Mem :=
  let m := setPrev m p (page m p).id
  setNext m p (page m p).id

def dllEmpty (m : Mem) (list : Int) : Bool := (page m list).next = (page m list).id

def dllHead (a : PageAllocator) (m : Mem) (list : Int) : Option Int := do
  guard !(dllEmpty m list)
  a.findPage (page m list).next

def dllPrepend (a : PageAllocator) (m : Mem) (list p : Int) : Option Mem :=
  let m := setPrev m p (page m list).id
  let m := setNext m p (page m list).next
  let m := setNext m list (page m p).id
  if (page m p).next ≠ kInvalidPageID then do
    let oldNext ← a.findPage (page m p).next
    return setPrev m oldNext (page m p).id
  else some m

def dllRemove (a : PageAllocator) (m : Mem) (p : Int) : Option Mem := do
  guard ((page m p).next ≠ kInvalidPageID)
  let prev ← a.findPage (page m p).prev
  let m := setNext m prev (page m p).next
  let next ← a.findPage (page m p).next
  return setPrev m next (page m p).prev

/-! ## `class PageHeap` -/

structure PageHeap where
  start : Int
  size : Nat
  max : Int

def PageHeap.capacity (h : PageHeap) : Nat := (h.max % 2 ^ 32).toNat

def PageHeap.create (start : Int) (size : Nat) : Option PageHeap := do
  guard (start % kPageSize = 0)
  return ⟨start, size, (size / kPageSize : Nat)⟩

/-- `Get`; the product is unsigned. -/
def PageHeap.get (h : PageHeap) (id : Int) : Option Int := do
  guard (id ≠ kInvalidPageID)
  guard (0 ≤ id)
  guard (id < h.max)
  return h.start + (id * kPageSize) % 2 ^ 32

def PageHeap.getPageIDByOffset (h : PageHeap) (offset : Int) : Option Int := do
  guard (offset / kPageSize < h.max)
  return offset / kPageSize

/-! ## `class FreeList` -/

structure FreeList where
  powOfTwoSize : Nat
  empty : Int
  nonempty : Int

/-- `Init`. -/
def FreeList.init (m : Mem) (empty nonempty : Int) (powOfTwoSize : Nat) : FreeList × Mem :=
  let list : FreeList := ⟨powOfTwoSize, (page m empty).id, (page m nonempty).id⟩
  (list, dllInit (dllInit m empty) nonempty)

/-- The page that `Allocate` puts into an empty list; `false` is `bad_alloc`. -/
def FreeList.refill (list : FreeList) (a : PageAllocator) (m : Mem) (nonempty : Int) : Option (PageAllocator × Mem × Bool) :=
  if dllEmpty m nonempty then
    match a.allocate m with
    | none => none
    | some (a, m, none) => some (a, m, false)
    | some (a, m, some p) => (dllPrepend a (setPowOfTwoSize m p list.powOfTwoSize) nonempty p).map fun m => (a, m, true)
  else some (a, m, true)

/-- `Allocate`; an offset of `none` is `bad_alloc`. -/
def FreeList.allocate (list : FreeList) (a : PageAllocator) (heap : PageHeap) (m : Mem) :
    Option (PageAllocator × Mem × Option Int) := do
  let nonempty ← a.findPage list.nonempty
  match ← list.refill a m nonempty with
  | (a, m, false) => return (a, m, none)
  | (a, m, true) =>
      let p ← dllHead a m nonempty
      let pageStart ← heap.get (page m p).id
      let (m, offset) ← pageAllocate m p pageStart
      return (a, m, offset)

/-- `Deallocate`. -/
def FreeList.deallocate (a : PageAllocator) (heap : PageHeap) (m : Mem) (offset : Int) : Option (PageAllocator × Mem) := do
  let p ← a.findPage (offset / kPageSize)
  guard ((page m p).id = offset / kPageSize)
  let pageStart ← heap.get (page m p).id
  let m ← pageDeallocate m p pageStart offset
  if (page m p).ref = 0 then
    let (a, m) ← a.deallocate m p
    return (a, ← dllRemove a m p)
  else return (a, m)

/-! ## `class Allocator` -/

structure Allocator where
  heap : PageHeap
  pages : PageAllocator
  list : List FreeList

def kSizeClassNum : Nat := 11
def kMinClassSize : Nat := 4

/-- The loop of `RoundUpToPowerOfTwo`. -/
def doubleUpTo (sz : Nat) : Nat → Nat → Nat
  | 0, x => x
  | fuel + 1, x => if x < sz then doubleUpTo sz fuel (x * 2) else x

def roundUpToPowerOfTwo (sz : Nat) : Nat := doubleUpTo sz 32 1

/-- The loop of `RoundUpToPageSize`. -/
def addPagesUpTo (sz : Nat) : Nat → Nat → Nat
  | 0, x => x
  | fuel + 1, x => if x < sz then addPagesUpTo sz fuel (x + kPageSize) else x

def roundUpToPageSize (sz : Nat) : Nat := addPagesUpTo sz (sz / kPageSize + 1) kPageSize

/-- The loop of `SizeClass`. -/
def countBits : Nat → Int → Nat → Int
  | 0, cls, _ => cls
  | fuel + 1, cls, x => if x ≠ 0 then countBits fuel (cls + 1) (x / 2) else cls

def sizeClass (powOfTwo : Nat) : Option Nat :=
  if kPageSize < powOfTwo then none
  else if powOfTwo ≤ kMinClassSize then some 0
  else do
    let cls := countBits 32 (-1) (powOfTwo / kMinClassSize)
    guard (cls < kSizeClassNum)
    return cls.toNat

/-- `InitFreeList`; an exception leaves no allocator behind. -/
def initFreeList (a : PageAllocator) (m : Mem) (cls : Nat) : Option (PageAllocator × Mem × FreeList) :=
  match a.allocate m with
  | some (a, m, some empty) =>
      match a.allocate m with
      | some (a, m, some nonempty) =>
          let (list, m) := FreeList.init m empty nonempty (cls + 2)
          some (a, m, list)
      | _ => none
  | _ => none

/-- The loop of `Create` over the size classes. -/
def initFreeLists : Nat → Nat → PageAllocator → Mem → Option (PageAllocator × Mem × List FreeList)
  | 0, _, a, m => some (a, m, [])
  | n + 1, cls, a, m => do
      let (a, m, list) ← initFreeList a m cls
      let (a, m, lists) ← initFreeLists n (cls + 1) a m
      return (a, m, list :: lists)

/-- `Create`: the inner `none` is `nullptr`. Sizes are 32-bit words. -/
def Allocator.create (m : Mem) (start : Int) (sz : Nat) : Option (Option (Allocator × Mem)) :=
  if start % kPageSize ≠ 0 then some none
  else if sz < kPageSize then some none
  else do
    let left := sz - kPageSize
    let allocatorRegionSize := roundUpToPageSize (left / 128)
    let pages ← PageAllocator.create (start + kPageSize) allocatorRegionSize
    let heapRegionSize := (left + 2 ^ 32 - allocatorRegionSize) % 2 ^ 32
    let heap ← PageHeap.create (start + kPageSize + allocatorRegionSize) heapRegionSize
    let (pages, m, lists) ← initFreeLists kSizeClassNum 0 pages m
    return some (⟨heap, pages, lists⟩, m)

/-- What `Allocate` does: an offset, `kInvalidOffset` included, or `bad_alloc`. -/
def Allocator.allocate (a : Allocator) (m : Mem) (sz : Nat) : Option (Allocator × Mem × Option Int) :=
  if kPageSize < sz then some (a, m, some kInvalidOffset)
  else do
    let cls ← sizeClass (roundUpToPowerOfTwo sz)
    let list ← a.list[cls]?
    let (pages, m, offset) ← list.allocate a.pages a.heap m
    return ({ a with pages := pages }, m, offset)

def Allocator.deallocate (a : Allocator) (m : Mem) (offset : Int) : Option (Allocator × Mem) := do
  let id ← a.heap.getPageIDByOffset offset
  let p ← a.pages.findPage id
  guard ((page m p).id = id)
  guard (2 ≤ (page m p).powOfTwoSize)
  guard ((page m p).powOfTwoSize - 2 < kSizeClassNum)
  let (pages, m) ← FreeList.deallocate a.pages a.heap m offset
  return ({ a with pages := pages }, m)

end SizeClass
end Snippets
