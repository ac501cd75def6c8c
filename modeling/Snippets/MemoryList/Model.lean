import Snippets.Lib.Bytes
import Snippets.Lib.Run

/-!
# `MemoryList.Model` — the slice allocator of `udpserver/src/base/memory_list.cc`

`MemoryList` carves a raw buffer into equal slices and threads two intrusive lists, *free* and *used*, through
their eight-byte heads (`next`, then `prev`); the rest of a slice is the client's payload. Slice heads live in
byte memory at the addresses the source computes; the buffer's own header is kept as a record.

Addresses and sizes are 64-bit words, so every `size_t`/`uintptr_t` result is a `toSize`. Slice ids are
`int32_t`: an id computation that leaves that range is undefined and has no result (`none`), like a failing
`assert`.
-/

namespace Snippets

open Lib

namespace MemoryList

/-- `MemoryList::SliceId`, an `int32_t`. -/
abbrev SliceId := Int

def kInvalidSliceId : SliceId := -1

/-- `sizeof(Header)`. -/
def kHeaderSize : Nat := 48

/-- `sizeof(SliceId) * 2`. -/
def kSliceHeadSize : Nat := 8

def kMagicNumber : Int := -356060050714630365

/-- `MemoryList::Header`. -/
structure Header where
  magicNumber : Int
  padding : Nat
  size : Nat
  bufferLength : Nat
  sliceSize : Nat
  free : SliceId
  used : SliceId

end MemoryList

/-- `class MemoryList`, with the memory its slices live in. -/
structure MemoryList where
  start : Nat
  endAddr : Nat
  buf : Nat
  header : MemoryList.Header
  capacity : Nat
  sliceRealSize : Nat
  mem : Mem

namespace MemoryList

/-! ## Slice heads -/

/-- `GetSliceById`: the inner `none` is `NULL`, the outer one its failing assert. -/
def getSliceById (ml : MemoryList) (id : SliceId) : Option (Option Nat) :=
  if id = kInvalidSliceId then some none
  else if id ≥ 0 then some (some (toSize (ml.buf + ml.sliceRealSize * id)))
  else none

def sliceNext (ml : MemoryList) (p : Nat) : SliceId := ml.mem.readInt32 p

def slicePrev (ml : MemoryList) (p : Nat) : SliceId := ml.mem.readInt32 (p + 4)

def setSliceNext (ml : MemoryList) (p : Nat) (v : SliceId) : MemoryList :=
  { ml with mem := ml.mem.writeInt32 p v }

def setSlicePrev (ml : MemoryList) (p : Nat) (v : SliceId) : MemoryList :=
  { ml with mem := ml.mem.writeInt32 (p + 4) v }

/-- `if (p) { p->next = v; }`. -/
def setSliceNext? (ml : MemoryList) (p : Option Nat) (v : SliceId) : MemoryList :=
  match p with
  | some p => ml.setSliceNext p v
  | none => ml

/-- `if (p) { p->prev = v; }`. -/
def setSlicePrev? (ml : MemoryList) (p : Option Nat) (v : SliceId) : MemoryList :=
  match p with
  | some p => ml.setSlicePrev p v
  | none => ml

def setFree (ml : MemoryList) (id : SliceId) : MemoryList := { ml with header := { ml.header with free := id } }

def setUsed (ml : MemoryList) (id : SliceId) : MemoryList := { ml with header := { ml.header with used := id } }

def setSize (ml : MemoryList) (n : Int) : MemoryList := { ml with header := { ml.header with size := toSize n } }

def size (ml : MemoryList) : Nat := ml.header.size

def full (ml : MemoryList) : Bool := ml.header.size == ml.capacity

/-! ## `MakeSliceList`, `CreateFrom`, `clear` -/

/-- The loop of `MakeSliceList`: link the slices from `cur` on. `fuel` is how many more ids fit into an
    `int32_t`; running out of it is the overflow of `prev + 2`. -/
def makeSliceLoop (realSize e : Nat) : Nat → Mem → Nat → SliceId → Option (Mem × Nat × SliceId)
  | fuel, m, cur, prev =>
    if toSize (cur + realSize) ≤ e then
      match fuel with
      | 0 => none
      | fuel + 1 =>
          let m := (m.writeInt32 (cur + 4) prev).writeInt32 cur (prev + 2)
          let cur' := toSize (cur + realSize)
          let m := if toSize (cur' + realSize) > e then m.writeInt32 cur kInvalidSliceId else m
          makeSliceLoop realSize e fuel m cur' (prev + 1)
    else some (m, cur, prev)

def makeSliceList (ml : MemoryList) : Option MemoryList :=
  match makeSliceLoop ml.sliceRealSize ml.endAddr (2 ^ 31 - 1) ml.mem ml.buf kInvalidSliceId with
  | none => none
  | some (m, cur, prev) =>
      let ml := { ml with mem := m }
      let ml := { ml with header := { ml.header with used := kInvalidSliceId, padding := toSize (ml.endAddr - cur) } }
      if prev = kInvalidSliceId then some { ml.setFree kInvalidSliceId with capacity := 0 }
      else some { ml.setFree 0 with capacity := toSize (prev + 1) }

/-- `CreateFrom`: the inner `none` is `NULL`. -/
def createFrom (start len sliceSize : Nat) (mem : Mem) : Option (Option MemoryList) :=
  let e := toSize (start + len)
  if e > start then
    if toSize (start + kHeaderSize) > e then some none
    else
      let ml : MemoryList :=
        { start := start
          endAddr := e
          buf := toSize (start + kHeaderSize)
          header := ⟨kMagicNumber, 0, 0, len, sliceSize, kInvalidSliceId, kInvalidSliceId⟩
          capacity := 0
          sliceRealSize := toSize (kSliceHeadSize + sliceSize)
          mem := mem }
      (makeSliceList ml).map some
  else none

def clear (ml : MemoryList) : Option MemoryList := (ml.setSize 0).makeSliceList

/-! ## `GetSlice` and `FreeSlice` -/

/-- First part of `GetSlice`: the slice after the head becomes the head of the free list. -/
def takeFree (ml : MemoryList) (slice : Nat) : Option MemoryList :=
  let ml := ml.setFree (ml.sliceNext slice)
  (ml.getSliceById (ml.sliceNext slice)).map fun next => ml.setSlicePrev? next kInvalidSliceId

/-- Second part of `GetSlice`: put slice in the front of the used list. -/
def putUsed (ml : MemoryList) (slice : Nat) (sliceId : SliceId) : Option MemoryList :=
  let oldHead := ml.header.used
  let ml := ((ml.setUsed sliceId).setSlicePrev slice kInvalidSliceId).setSliceNext slice oldHead
  (ml.getSliceById oldHead).map fun old => ml.setSlicePrev? old sliceId

def getSlice (ml : MemoryList) : Option (MemoryList × SliceId) :=
  if ml.header.free = kInvalidSliceId then some (ml, kInvalidSliceId)
  else
    match ml.getSliceById ml.header.free with
    | some (some slice) =>
        (ml.takeFree slice).bind fun ml' =>
          (ml'.putUsed slice ml.header.free).map fun ml' => (ml'.setSize (ml'.header.size + 1), ml.header.free)
    | _ => none

/-- The two stores of `FreeSlice` that close the gap around a slice. -/
def unlinkSlice (ml : MemoryList) (slice : Nat) (prev next : Option Nat) : MemoryList :=
  let ml := ml.setSliceNext? prev (ml.sliceNext slice)
  ml.setSlicePrev? next (ml.slicePrev slice)

/-- `if (header_->used == id) { assert (prev == NULL); header_->used = slice->next; }`. -/
def advanceUsed (ml : MemoryList) (slice : Nat) (prev : Option Nat) (id : SliceId) : Option MemoryList :=
  if ml.header.used = id then
    if prev = none then some (ml.setUsed (ml.sliceNext slice)) else none
  else some ml

/-- First part of `FreeSlice`: unlink self from used list. -/
def dropUsed (ml : MemoryList) (slice : Nat) (id : SliceId) : Option MemoryList :=
  match ml.getSliceById (ml.slicePrev slice), ml.getSliceById (ml.sliceNext slice) with
  | some prev, some next => (ml.unlinkSlice slice prev next).advanceUsed slice prev id
  | _, _ => none

/-- Second part of `FreeSlice`: put slice in the front of free list. -/
def putFree (ml : MemoryList) (slice : Nat) (id : SliceId) : Option MemoryList :=
  let oldHead := ml.header.free
  let ml := ((ml.setSlicePrev slice kInvalidSliceId).setSliceNext slice ml.header.free).setFree id
  (ml.getSliceById oldHead).map fun old => ml.setSlicePrev? old id

def freeSlice (ml : MemoryList) (id : SliceId) : Option MemoryList :=
  if id = kInvalidSliceId then some ml
  else if id ≥ 0 ∧ id < toInt32 ml.capacity then
    match ml.getSliceById id with
    | some (some slice) =>
        (ml.dropUsed slice id).bind fun ml =>
          (ml.putFree slice id).map fun ml => ml.setSize (ml.header.size - 1)
    | _ => none
  else none

/-- `GetBuffer`: where a slice's payload starts. -/
def getBuffer (ml : MemoryList) (id : SliceId) : Option Nat :=
  match ml.getSliceById id with
  | some (some slice) => some (toSize (slice + kSliceHeadSize))
  | _ => none

/-! ## Calls and runs -/

/-- A call with what it returned, or a byte the client stores into the payload of a slice. -/
inductive Call
  | getSlice (res : SliceId)
  | freeSlice (id : SliceId)
  | clear
  | store (id : SliceId) (off : Nat) (byte : UInt8)

/-- The allocator and the ids its client holds. -/
structure Client where
  ml : MemoryList
  held : List SliceId

/-- The step relation: a client frees only ids it holds, and stores only into the payload of such a slice. -/
def Step (s : Client) : Call → Client → Prop
  | .getSlice r, t => s.ml.getSlice = some (t.ml, r) ∧
      t.held = if r = kInvalidSliceId then s.held else r :: s.held
  | .freeSlice id, t => id ∈ s.held ∧ s.ml.freeSlice id = some t.ml ∧ t.held = s.held.erase id
  | .clear, t => s.ml.clear = some t.ml ∧ t.held = []
  | .store id off byte, t => id ∈ s.held ∧ off < s.ml.header.sliceSize ∧ ∃ p, s.ml.getBuffer id = some p ∧
      t = { s with ml := { s.ml with mem := s.ml.mem.write (p + off) [byte] } }

end MemoryList
end Snippets
