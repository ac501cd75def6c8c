import Snippets.RegionTable.Model

/-!
# `RegionVector.Model` — `RegionBasedVector<T>`, on the bytes of its region

The vector, for any `T`, with its header in the region or elsewhere. Its elements follow each other from `start_` on, and the
header counts them. An iterator is an address.

Pointers do not overflow. `operator==` is left out, and of the accessors by index all but `at`.
-/

namespace Snippets

open Lib

/-- The layout of `T`. -/
structure PodLayout where
  size : Nat
  align : Nat
  size_pos : 0 < size
  stride : align ∣ size

/-- `void(*)(T&)`: what it makes of the bytes of an element. -/
def DestroyFunc : Type := { f : List UInt8 → List UInt8 // ∀ bs, (f bs).length = bs.length }

structure RegionVector where
  header : Int
  start : Int
  capacity : Nat
  destroyFunc : Option DestroyFunc

namespace RegionVector

open RegionTable (checkAligned alignTo vectorMagic)

/-- The exceptions. -/
inductive Failure
  | badAlloc
  | outOfRange
  | invalidIterator
deriving DecidableEq

variable (T : PodLayout)

/-- `Create`: the vector, or `nullptr`. A header of `none` is put in front of the elements. -/
def create (m : Mem) (data : Int) (size : Nat) (header : Option Int) : Mem × Option RegionVector :=
  if ¬checkAligned data then (m, none)
  else
    let p := if header.isNone then alignTo 8 data + 16 else data
    let header := header.getD (alignTo 8 data)
    let start := alignTo T.align p
    let minsize := (start - data).toNat
    if size < minsize then (m, none)
    else
      let m := m.writeWord header 8 vectorMagic
      let m := m.writeWord (header + 8) 4 0
      let m := m.writeWord (header + 12) 4 T.size
      (m, some ⟨header, start, (size - minsize) / T.size, none⟩)

/-- `Restore`, which finds no destroy function. -/
def restore (m : Mem) (data : Int) (size : Nat) (header : Option Int) : Option RegionVector :=
  if ¬checkAligned data then none
  else
    let p := if header.isNone then alignTo 8 data + 16 else data
    let header := header.getD (alignTo 8 data)
    let start := alignTo T.align p
    let minsize := (start - data).toNat
    if size < minsize then none
    else
      let capacity := (size - minsize) / T.size
      if m.readWord header 8 ≠ vectorMagic ∨ m.readWord (header + 12) 4 ≠ T.size ∨ capacity < m.readWord (header + 8) 4 then none
      else some ⟨header, start, capacity, none⟩

variable (v : RegionVector)

/-- `size()`. -/
def size (m : Mem) : Nat := m.readWord (v.header + 8) 4

/-- `max_size()`. -/
def maxSize : Nat := v.capacity

/-- `begin()`. -/
def beginPtr : Int := v.start

/-- `end()`. -/
def endPtr (m : Mem) : Int := v.start + T.size * v.size m

/-- `on_destroy`, with the function that was there. -/
def onDestroy (f : Option DestroyFunc) : RegionVector × Option DestroyFunc := ({ v with destroyFunc := f }, v.destroyFunc)

/-- `at`. -/
def elementAt (m : Mem) (index : Nat) : Except Failure (List UInt8) :=
  if v.size m ≤ index then .error .outOfRange else .ok (m.read (v.start + T.size * index) T.size)

def pushBack (m : Mem) (x : List UInt8) : Except Failure Mem :=
  if v.size m = v.maxSize then .error .badAlloc
  else .ok ((m.writeWord (v.header + 8) 4 (v.size m + 1)).write (v.endPtr T m) x)

/-- The call of `destroy_func_`, if there is one. -/
def destroy (m : Mem) (it : Int) : Mem :=
  match v.destroyFunc with
  | none => m
  | some f => m.write it (f.1 (m.read it T.size))

/-- `erase`: the memory, and the iterator that it returns. The check of the alignment takes the size for a power of two. -/
def erase (m : Mem) (it : Int) : Except Failure (Mem × Int) :=
  if it < v.beginPtr ∨ v.endPtr T m ≤ it then .error .outOfRange
  else
    let next := it + T.size
    if (it % 2 ^ 64).toNat &&& (T.size - 1) ≠ 0 then .error .invalidIterator
    else
      let m := v.destroy T m it
      let m := if next ≠ v.endPtr T m then m.write it (m.read next (v.endPtr T m - next).toNat) else m
      .ok (m.writeWord (v.header + 8) 4 (v.size m + (2 ^ 32 - 1)), next)

/-- `clear`. -/
def clear (m : Mem) : Mem :=
  ((List.range (v.size m)).foldl (fun m (i : Nat) => v.destroy T m (v.beginPtr + T.size * i)) m).writeWord (v.header + 8) 4 0

/-- The bytes of the elements. -/
def elements (m : Mem) : List (List UInt8) := (List.range (v.size m)).map fun i : Nat => m.read (v.start + T.size * i) T.size

end RegionVector
end Snippets
