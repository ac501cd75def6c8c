import Snippets.Lib.Bytes

/-!
# `PersistentVector.Model` — `Vector<T>` of `udpserver/src/base/vector.h`

A vector of PODs in a buffer that outlives the process: three words of metadata, then the elements. The size is one of these
words, so what `RecoverFrom` finds there is whatever the buffer holds. Sums and products of sizes are 64-bit words; the address
of an element is not reduced.

Every call has a list of the accesses to elements that it makes (`Call.accesses`). `begin()` and `end()` are left out.
-/

namespace Snippets

open Lib

namespace PersistentVector

/-- A POD type: its size. -/
structure Pod where
  size : Nat
  size_pos : 0 < size
  size_lt : size < 2 ^ 64

def kMagicNumber : Nat := 2473338958754726831

def sizeofMetaData : Nat := 24

/-- `md_` and `kMaxLength`; `start_` is behind the metadata. -/
structure Vector where
  md : Int
  kMaxLength : Nat
deriving DecidableEq

namespace Vector

variable (T : Pod) (v : Vector) (m : Mem)

/-! ## Metadata -/

/-- `md_->magic_number`. -/
def magicNumber : Nat := m.readWord v.md 8

/-- `md_->size`. -/
def size : Nat := m.readWord (v.md + 8) 8

/-- `md_->value_size`. -/
def valueSize : Nat := m.readWord (v.md + 16) 8

def setSize (n : Nat) : Mem := m.writeWord (v.md + 8) 8 n

/-- Where an element is in the buffer. -/
def offset (i : Nat) : Nat := sizeofMetaData + T.size * i

/-- `start_ + i`. -/
def address (i : Nat) : Int := v.md + offset T i

/-- `Used`. -/
def used : Nat := v.size m * T.size % 2 ^ 64

/-- `HasSpace`. -/
def hasSpace : Bool := (v.used T m + T.size + sizeofMetaData) % 2 ^ 64 ≤ v.kMaxLength

/-! ## `CreateFrom` and `RecoverFrom` -/

def createFrom (buf : Int) (len : Nat) : Mem × Vector :=
  let m := m.writeWord buf 8 kMagicNumber
  let m := m.writeWord (buf + 8) 8 0
  let m := m.writeWord (buf + 16) 8 T.size
  (m, ⟨buf, len⟩)

def recoverFrom (buf : Int) (len : Nat) : Option Vector :=
  let v : Vector := ⟨buf, len⟩
  if v.magicNumber m ≠ kMagicNumber ∨ v.valueSize m ≠ T.size ∨
      (v.valueSize m * v.size m + sizeofMetaData) % 2 ^ 64 > len then none
  else some v

/-! ## Operations -/

/-- `CopyFrom`. -/
def copyFrom (rhs : Vector) : Mem × Bool :=
  if v.kMaxLength < (rhs.used T m + sizeofMetaData) % 2 ^ 64 then (m, false)
  else
    let m := m.write (v.address T 0) (m.read (rhs.address T 0) (rhs.used T m))
    (v.setSize m (rhs.size m), true)

/-- `push_back`, of an element by its bytes. -/
def pushBack (x : List UInt8) : Mem × Bool :=
  if v.hasSpace T m then
    let m := m.write (v.address T (v.size m)) x
    (v.setSize m ((v.size m + 1) % 2 ^ 64), true)
  else (m, false)

/-- `erase(size_t, size_t)`. -/
def erase (s e : Nat) : Option Mem :=
  if s < e ∧ s < v.size m ∧ e ≤ v.size m then
    let len := (v.size m - e) * T.size % 2 ^ 64
    let m := m.write (v.address T s) (m.read (v.address T e) len)
    some (v.setSize m (v.size m - (e - s)))
  else none

/-- `erase(size_t)`. -/
def eraseAt (idx : Nat) : Option Mem := v.erase T m idx ((idx + 1) % 2 ^ 64)

/-- `pop_back`. -/
def popBack : Option (Mem × List UInt8) :=
  if v.size m ≠ 0 then
    let m := v.setSize m (v.size m - 1)
    some (m, m.read (v.address T (v.size m)) T.size)
  else none

/-- `operator[]`. -/
def get (idx : Nat) : Option (List UInt8) :=
  if idx < v.size m then some (m.read (v.address T idx) T.size) else none

end Vector

/-! ## Calls -/

inductive Call
  | pushBack (x : List UInt8)
  | popBack
  | erase (s e : Nat)
  | eraseAt (idx : Nat)
  | copyFrom (rhs : Vector)
  | get (idx : Nat)

/-- The memory after a call, unless an assert fails. -/
def Call.exec (T : Pod) (v : Vector) (m : Mem) : Call → Option Mem
  | .pushBack x => some (v.pushBack T m x).1
  | .popBack => (v.popBack T m).map Prod.fst
  | .erase s e => v.erase T m s e
  | .eraseAt idx => v.eraseAt T m idx
  | .copyFrom rhs => some (v.copyFrom T m rhs).1
  | .get idx => (v.get T m idx).map fun _ => m

/-- Bytes of the buffer of a vector that a call reads or writes as elements. -/
structure Access where
  vector : Vector
  offset : Nat
  length : Nat

/-- What `erase(size_t, size_t)` moves: from where, and to where. -/
def eraseAccesses (T : Pod) (v : Vector) (m : Mem) (s e : Nat) : List Access :=
  let len := (v.size m - e) * T.size % 2 ^ 64
  [⟨v, Vector.offset T e, len⟩, ⟨v, Vector.offset T s, len⟩]

def Call.accesses (T : Pod) (v : Vector) (m : Mem) : Call → List Access
  | .pushBack _ => if v.hasSpace T m then [⟨v, Vector.offset T (v.size m), T.size⟩] else []
  | .popBack => [⟨v, Vector.offset T (v.size m - 1), T.size⟩]
  | .erase s e => eraseAccesses T v m s e
  | .eraseAt idx => eraseAccesses T v m idx ((idx + 1) % 2 ^ 64)
  | .copyFrom rhs =>
      if v.kMaxLength < (rhs.used T m + sizeofMetaData) % 2 ^ 64 then []
      else [⟨rhs, Vector.offset T 0, rhs.used T m⟩, ⟨v, Vector.offset T 0, rhs.used T m⟩]
  | .get idx => [⟨v, Vector.offset T idx, T.size⟩]

end PersistentVector
end Snippets
