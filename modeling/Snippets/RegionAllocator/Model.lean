import Snippets.RegionTable.Model
import Snippets.Lib.Run

/-!
# `RegionAllocator.Model` — `RegionBasedAllocator<T>`, on the bytes of its region

The allocator that the hash table uses, for any `T`, and with its header in the region or elsewhere. Its nodes have ids from 1
on. A free node holds the id of the next free one, which is stored at the address that `NodeIDToNodeIDPtr` computes; a client
reads and writes a node at the address that `Get` computes.

A failing `assert` has no result (`none`). Pointers do not overflow.
-/

namespace Snippets

open Lib

/-- The layout of `T`. That a node can hold an id is asserted. -/
structure ElementLayout where
  size : Nat
  align : Nat
  holds_id : 4 ≤ size
  aligned : align ∣ 16

structure RegionAllocator where
  header : Int
  start : Int
  maxNodeId : Nat
deriving DecidableEq

namespace RegionAllocator

open RegionTable (checkAligned alignTo allocatorMagic)

variable (T : ElementLayout)

/-- `Create`: the allocator, or `nullptr`. A header of `none` is put in front of the nodes. -/
def create (m : Mem) (data : Int) (size : Nat) (header : Option Int) : Mem × Option RegionAllocator :=
  if ¬checkAligned data then (m, none)
  else
    let p := if header.isNone then data + 24 else data
    let header := header.getD data
    let dataStart := alignTo T.align p
    if size < (dataStart - data).toNat then (m, none)
    else
      let m := m.writeWord header 8 allocatorMagic
      let m := m.writeWord (header + 8) 4 0
      let m := m.writeWord (header + 12) 4 T.size
      let m := m.writeWord (header + 20) 4 0
      let maxNodeId := (data + size - dataStart).toNat / T.size % 2 ^ 32
      let m := m.writeWord (header + 16) 4 (min maxNodeId 1)
      (m, some ⟨header, dataStart, maxNodeId⟩)

variable (a : RegionAllocator)

/-- `size()`. -/
def size (m : Mem) : Nat := m.readWord (a.header + 8) 4

/-- `max_size()`. -/
def maxSize : Nat := a.maxNodeId

/-- `Get`. -/
def get (id : Nat) : Option Int :=
  if id = 0 ∨ a.maxNodeId < id then none else some (a.start + T.size * (id - 1 : Nat))

/-- `NodeIDToNodeIDPtr`, which is one node further. -/
def nodeIdPtr (id : Nat) : Option Int :=
  if id = 0 ∨ a.maxNodeId < id then none else some (a.start + T.size * id)

/-- `Allocate`; an id of `none` is `bad_alloc`. -/
def allocate (m : Mem) : Option (Mem × Option Nat) :=
  let freeList := m.readWord (a.header + 20) 4
  let free := m.readWord (a.header + 16) 4
  let size := m.readWord (a.header + 8) 4
  if freeList ≠ 0 then do
    let p ← a.nodeIdPtr T freeList
    let m := m.writeWord (a.header + 20) 4 (m.readWord p 4)
    return (m.writeWord (a.header + 8) 4 (size + 1), some freeList)
  else if a.maxNodeId < free then some (m, none)
  else some ((m.writeWord (a.header + 16) 4 (free + 1)).writeWord (a.header + 8) 4 (size + 1), some free)

/-- `Deallocate`. The size is a 32-bit word. -/
def deallocate (m : Mem) (index : Nat) : Option Mem := do
  let p ← a.nodeIdPtr T index
  let m := m.writeWord p 4 (m.readWord (a.header + 20) 4)
  let m := m.writeWord (a.header + 20) 4 index
  return m.writeWord (a.header + 8) 4 (m.readWord (a.header + 8) 4 + (2 ^ 32 - 1))

def clear (m : Mem) : Mem :=
  let m := m.writeWord (a.header + 8) 4 0
  let m := m.writeWord (a.header + 16) 4 (min a.maxNodeId 1)
  m.writeWord (a.header + 20) 4 0

/-- The allocator that a hash table keeps is this one, for its nodes. -/
theorem allocate_nodes {K : Type} (tr : RegionTraits K) (t : RegionTable) (hsize : 4 ≤ tr.nodeSize) (m : Mem) :
    t.allocate tr m = (⟨t.header + 32, t.nodeStart, t.maxNodeId⟩ : RegionAllocator).allocate
      ⟨tr.nodeSize, tr.nodeAlign, hsize, tr.aligned⟩ m := by
  unfold RegionTable.allocate RegionAllocator.allocate RegionTable.nodeIdPtr RegionAllocator.nodeIdPtr
  simp only [Int.add_assoc]
  rfl

/-! ## Calls -/

/-- A call with what it returned, or the bytes a client stores into a node. -/
inductive Call
  | allocate (res : Option Nat)
  | deallocate (id : Nat)
  | clear
  | write (id : Nat) (bytes : List UInt8)

/-- The memory, the ids the client gave back, the last one first, and the ids it holds. -/
structure Client where
  mem : Mem
  freed : List Nat
  live : List Nat

/-- The step relation: a client gives back only ids it holds, and stores only into such nodes. -/
def Step (s : Client) : Call → Client → Prop
  | .allocate none, t => ∃ m, a.allocate T s.mem = some (m, none) ∧ t = { s with mem := m }
  | .allocate (some id), t => ∃ m, a.allocate T s.mem = some (m, some id) ∧ t = ⟨m, s.freed.erase id, id :: s.live⟩
  | .deallocate id, t => id ∈ s.live ∧ ∃ m, a.deallocate T s.mem id = some m ∧ t = ⟨m, id :: s.freed, s.live.erase id⟩
  | .clear, t => t = ⟨a.clear s.mem, [], []⟩
  | .write id bytes, t => id ∈ s.live ∧ bytes.length = T.size ∧ ∃ p, a.get T id = some p ∧
      t = { s with mem := s.mem.write p bytes }

end RegionAllocator
end Snippets
