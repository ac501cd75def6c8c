import Snippets.Lib.Bytes
import Snippets.Lib.KeyedStore

/-!
# `RegionTable.Model` — `RegionBasedHashTable`, on the bytes of its region

The table lives in a range of memory that its user gives it: a header, the array of the buckets (a `RegionBasedVector` of
node ids) and the nodes (a `RegionBasedAllocator`), at addresses that `Create` and `Restore` compute from the start of the
region and from the header. The object itself only remembers these addresses (`Table`). A node is an id, 1 or more; a
bucket is the id of its first node, and 0 ends a chain.

A failing `assert` has no result (`none`). An exception is a result, with the memory as it was when it was thrown.
Pointers do not overflow, and the sizes of a region that can exist do not overflow a `size_t`.
-/

namespace Snippets

open Lib

namespace RegionTable

def kMagic : Nat := 0x6d17ffb6f6d53d7e
def vectorMagic : Nat := 0x74548fc3e42b937b
def allocatorMagic : Nat := 0x434da4cca9fea893

def kPrimeList : List Nat :=
  [53, 97, 193, 389, 769, 1543, 3079, 6151, 12289, 24593, 49157, 98317, 196613, 393241, 786433, 1572869, 3145739,
    6291469, 12582917, 25165843, 50331653, 100663319, 201326611, 402653189, 805306457, 1610612741, 3221225473, 4294967291]

/-- `Align(p)`. -/
def align (p : Int) : Int := (p + 15) / 16 * 16

/-- `Align<T>(p)`, for the alignment of `T`. -/
def alignTo (a : Nat) (p : Int) : Int := (p + a - 1) / a * a

theorem le_alignTo {n : Nat} (hn : 0 < n) (p : Int) : p ≤ alignTo n p := by
  have hdiv := Int.emod_add_mul_ediv (p + n - 1) n
  have hlt := Int.emod_lt_of_pos (p + n - 1) (show (0 : Int) < n by omega)
  unfold alignTo
  rw [Int.mul_comm] at hdiv
  omega

def checkAligned (p : Int) : Bool := p % 16 = 0

end RegionTable

/-- The template's arguments: the layout of `T` and of `HashTableNode<T>`, `Hash`, `Pred` and `KeyOfValue`. A value is its
    bytes. -/
structure RegionTraits (K : Type) where
  valueSize : Nat
  valueOffset : Nat
  nodeSize : Nat
  nodeAlign : Nat
  hash : K → Nat
  keyEqual : K → K → Bool
  keyOfValue : { bs : List UInt8 // bs.length = valueSize } → K
  next_before : 4 ≤ valueOffset
  inside : valueOffset + valueSize ≤ nodeSize
  aligned : nodeAlign ∣ 16

namespace RegionTraits

variable {K : Type} (tr : RegionTraits K)

abbrev Value := { bs : List UInt8 // bs.length = tr.valueSize }

/-- `Pred` is an equality, and equal keys have the same hash. -/
structure Lawful (tr : RegionTraits K) : Prop where
  refl : ∀ k, tr.keyEqual k k = true
  symm : ∀ {j k}, tr.keyEqual j k = true → tr.keyEqual k j = true
  trans : ∀ {i j k}, tr.keyEqual i j = true → tr.keyEqual j k = true → tr.keyEqual i k = true
  hash : ∀ {j k}, tr.keyEqual j k = true → tr.hash j = tr.hash k

end RegionTraits

/-- `_HashTable`, with the members of its `buckets_` and `alloc_`. -/
structure RegionTable where
  header : Int
  bucketStart : Int
  capacity : Nat
  nodeStart : Int
  maxNodeId : Nat

namespace RegionTable

variable {K : Type} (tr : RegionTraits K)

/-! ## `RegionBasedVector<NodeID>`, with its header elsewhere -/

/-- `VectorType::Create`: the first element and the capacity. -/
def vectorCreate (m : Mem) (data : Int) (size : Nat) (header : Int) : Mem × Option (Int × Nat) :=
  if ¬checkAligned data then (m, none)
  else if size < (alignTo 4 data - data).toNat then (m, none)
  else
    let m := m.writeWord header 8 vectorMagic
    let m := m.writeWord (header + 8) 4 0
    let m := m.writeWord (header + 12) 4 4
    (m, some (alignTo 4 data, (size - (alignTo 4 data - data).toNat) / 4))

def vectorRestore (m : Mem) (data : Int) (size : Nat) (header : Int) : Option (Int × Nat) :=
  if ¬checkAligned data then none
  else if size < (alignTo 4 data - data).toNat then none
  else
    let capacity := (size - (alignTo 4 data - data).toNat) / 4
    if m.readWord header 8 ≠ vectorMagic ∨ m.readWord (header + 12) 4 ≠ 4 ∨ capacity < m.readWord (header + 8) 4 then none
    else some (alignTo 4 data, capacity)

/-- `push_back`; `none` is `bad_alloc`. -/
def pushBack (header start : Int) (capacity : Nat) (m : Mem) (v : Nat) : Option Mem :=
  let current := m.readWord (header + 8) 4
  if current = capacity then none
  else some ((m.writeWord (start + 4 * current) 4 v).writeWord (header + 8) 4 (current + 1))

/-- `push_back(kInvalidNodeID)`, `n` times. -/
def pushInvalid (header start : Int) (capacity : Nat) : Nat → Mem → Option Mem
  | 0, m => some m
  | n + 1, m => (pushBack header start capacity m 0).bind (pushInvalid header start capacity n)

/-! ## `RegionBasedAllocator<HashTableNode<T>>`, with its header elsewhere -/

/-- `AllocatorType::Create`: the first node and the greatest id. -/
def allocatorCreate (m : Mem) (data : Int) (size : Nat) (header : Int) : Mem × Option (Int × Nat) :=
  if ¬checkAligned data then (m, none)
  else if size < (alignTo tr.nodeAlign data - data).toNat then (m, none)
  else
    let maxNodeId := (size - (alignTo tr.nodeAlign data - data).toNat) / tr.nodeSize % 2 ^ 32
    let m := m.writeWord header 8 allocatorMagic
    let m := m.writeWord (header + 8) 4 0
    let m := m.writeWord (header + 12) 4 tr.nodeSize
    let m := m.writeWord (header + 20) 4 0
    let m := m.writeWord (header + 16) 4 (min maxNodeId 1)
    (m, some (alignTo tr.nodeAlign data, maxNodeId))

def allocatorRestore (m : Mem) (data : Int) (size : Nat) (header : Int) : Option (Int × Nat) :=
  if ¬checkAligned data then none
  else if size < (alignTo tr.nodeAlign data - data).toNat then none
  else
    let maxNodeId := (size - (alignTo tr.nodeAlign data - data).toNat) / tr.nodeSize
    if m.readWord header 8 ≠ allocatorMagic ∨ maxNodeId < m.readWord (header + 8) 4 ∨
        m.readWord (header + 12) 4 ≠ tr.nodeSize ∨ maxNodeId < m.readWord (header + 20) 4 ∨
        maxNodeId + 1 < m.readWord (header + 16) 4 then none
    else some (alignTo tr.nodeAlign data, maxNodeId % 2 ^ 32)

/-! ## Creation -/

/-- The first prime of the table that is not below `n`, or `n`. -/
def bucketNum (n : Nat) : Nat := (kPrimeList.find? (n ≤ ·)).getD n

/-- `Create`: the table, or `nullptr`, and the memory. -/
def create (m : Mem) (data : Int) (size : Nat) : Option (Mem × Option RegionTable) :=
  if ¬checkAligned data then some (m, none)
  else
    let num := bucketNum (max 53 (2 * size / (4 + 2 * tr.nodeSize)))
    let start := align (data + 56)
    let p := start + 4 * num
    if size < (p - data).toNat then some (m, none)
    else
      let m := m.writeWord data 8 kMagic
      let m := m.writeWord (data + 8) 4 tr.valueSize
      let m := m.writeWord (data + 12) 4 num
      match vectorCreate m start (4 * num) (data + 16) with
      | (_, none) => none
      | (m, some (bucketStart, capacity)) =>
          if capacity ≠ num then none
          else
            match pushInvalid (data + 16) bucketStart capacity num m with
            | none => none
            | some m =>
                if data + size < align p then some (m, none)
                else
                  match allocatorCreate tr m (align p) (data + size - align p).toNat (data + 32) with
                  | (_, none) => none
                  | (m, some (nodeStart, maxNodeId)) => some (m, some ⟨data, bucketStart, capacity, nodeStart, maxNodeId⟩)

/-- `Restore`. -/
def restore (m : Mem) (data : Int) (size : Nat) : Option RegionTable :=
  if ¬checkAligned data then none
  else
    let num := m.readWord (data + 12) 4
    if m.readWord data 8 ≠ kMagic ∨ m.readWord (data + 8) 4 ≠ tr.valueSize ∨ num ∉ kPrimeList then none
    else
      let start := align (data + 56)
      let p := align (start + 4 * num)
      if size < (p - data).toNat then none
      else
        match vectorRestore m start (4 * num) (data + 16) with
        | none => none
        | some (bucketStart, capacity) =>
            match allocatorRestore tr m p (data + size - p).toNat (data + 32) with
            | none => none
            | some (nodeStart, maxNodeId) => some ⟨data, bucketStart, capacity, nodeStart, maxNodeId⟩

/-! ## Looking -/

variable (t : RegionTable)

/-- `size()`. -/
def size (m : Mem) : Nat := m.readWord (t.header + 40) 4

/-- `max_size()`. -/
def maxSize : Nat := t.maxNodeId

/-- `bucket_count()`. -/
def bucketCount (m : Mem) : Nat := m.readWord (t.header + 24) 4

/-- `(*buckets_)[n]`, by its address. -/
def bucketAt (m : Mem) (n : Nat) : Option Int := if n < t.bucketCount m then some (t.bucketStart + 4 * n) else none

/-- `alloc_->Get(id)`. -/
def get (id : Nat) : Option Int :=
  if id = 0 ∨ t.maxNodeId < id then none else some (t.nodeStart + tr.nodeSize * (id - 1 : Nat))

/-- `node->next`. -/
def next (m : Mem) (node : Int) : Nat := m.readWord node 4

/-- `node->val`. -/
def val (m : Mem) (node : Int) : tr.Value := ⟨m.read (node + tr.valueOffset) tr.valueSize, Mem.read_length ..⟩

/-- `bucket(k)`; the remainder by zero has no result. -/
def bucket (m : Mem) (k : K) : Option Nat :=
  if t.bucketCount m = 0 then none else some (tr.hash k % t.bucketCount m)

/-- The loop of `find` and `insert` down a chain. -/
def seek (m : Mem) (k : K) : Nat → Nat → Option (Option Int)
  | 0, _ => none
  | fuel + 1, id =>
      if id = 0 then some none
      else do
        let node ← t.get tr id
        if tr.keyEqual (tr.keyOfValue (val tr m node)) k then some (some node) else seek m k fuel (next m node)

/-- The chain where a key belongs. -/
def search (m : Mem) (k : K) : Option (Int × Option Int) := do
  let index ← t.bucket tr m k
  let cell ← t.bucketAt m index
  let node ← t.seek tr m k (t.maxNodeId + 1) (m.readWord cell 4)
  return (cell, node)

/-- `find(k)`: the node, or `end()`. -/
def find (m : Mem) (k : K) : Option (Option Int) := (t.search tr m k).map Prod.snd

/-- The loop of `bucket_size`; `num` is an `int` that is returned as a `size_type`. -/
def chainLength (m : Mem) : Nat → Nat → Nat → Option Nat
  | 0, _, _ => none
  | fuel + 1, num, id =>
      if id = 0 then some (num % 2 ^ 32)
      else do
        let node ← t.get tr id
        chainLength m fuel (num + 1) (next m node)

/-- `bucket_size(n)`. -/
def bucketSize (m : Mem) (n : Nat) : Option Nat := do
  let cell ← t.bucketAt m n
  t.chainLength tr m (t.maxNodeId + 1) 0 (m.readWord cell 4)

/-! ## Iterators -/

/-- The first node of a bucket from an index on. -/
def firstFrom (m : Mem) : Nat → Nat → Option (Option Int)
  | 0, _ => some none
  | n + 1, index => do
      let cell ← t.bucketAt m index
      if m.readWord cell 4 ≠ 0 then (t.get tr (m.readWord cell 4)).map some else firstFrom m n (index + 1)

/-- `begin()`. -/
def begin (m : Mem) : Option (Option Int) := t.firstFrom tr m (t.bucketCount m) 0

/-- `operator++`. -/
def advance (m : Mem) (node : Int) : Option (Option Int) := do
  let index ← t.bucket tr m (tr.keyOfValue (val tr m node))
  if next m node ≠ 0 then (t.get tr (next m node)).map some
  else t.firstFrom tr m (t.bucketCount m - (index + 1)) (index + 1)

/-- What an iterator meets until it is `end()`. -/
def walkFrom (m : Mem) : Nat → Option Int → Option (List tr.Value)
  | 0, _ => none
  | _ + 1, none => some []
  | fuel + 1, some node => do
      let node' ← t.advance tr m node
      let rest ← walkFrom m fuel node'
      return val tr m node :: rest

/-- `begin()` to `end()`. -/
def walk (m : Mem) : Option (List tr.Value) := do
  let first ← t.begin tr m
  t.walkFrom tr m (t.maxNodeId + 1) first

/-! ## Changing -/

/-- `NodeIDToNodeIDPtr`, which is one node further than `Get`. -/
def nodeIdPtr (id : Nat) : Option Int :=
  if id = 0 ∨ t.maxNodeId < id then none else some (t.nodeStart + tr.nodeSize * id)

/-- `Allocate`; an id of `none` is `bad_alloc`. -/
def allocate (m : Mem) : Option (Mem × Option Nat) :=
  let freeList := m.readWord (t.header + 52) 4
  let free := m.readWord (t.header + 48) 4
  let size := m.readWord (t.header + 40) 4
  if freeList ≠ 0 then do
    let p ← t.nodeIdPtr tr freeList
    let m := m.writeWord (t.header + 52) 4 (m.readWord p 4)
    return (m.writeWord (t.header + 40) 4 (size + 1), some freeList)
  else if t.maxNodeId < free then some (m, none)
  else some ((m.writeWord (t.header + 48) 4 (free + 1)).writeWord (t.header + 40) 4 (size + 1), some free)

/-- What `insert` does: it throws `bad_alloc`, or returns an iterator and whether the value is new. -/
inductive Inserted
  | badAlloc
  | done (node : Int) (new : Bool)
deriving DecidableEq

/-- The new node of `insert`, at the front of its chain. -/
def link (m : Mem) (cell : Int) (id : Nat) (node : Int) (obj : tr.Value) : Mem :=
  let m := m.write (node + tr.valueOffset) obj.1
  let m := m.writeWord node 4 (m.readWord cell 4)
  m.writeWord cell 4 id

def insert (m : Mem) (obj : tr.Value) : Option (Mem × Inserted) := do
  let (cell, found) ← t.search tr m (tr.keyOfValue obj)
  match found with
  | some node => return (m, .done node false)
  | none =>
      let (m, id) ← t.allocate tr m
      match id with
      | none => return (m, .badAlloc)
      | some id =>
          let node ← t.get tr id
          return (link tr m cell id node obj, .done node true)

/-- `std::fill` over the buckets. -/
def fillInvalid (start : Int) : Nat → Mem → Mem
  | 0, m => m
  | n + 1, m => (fillInvalid start n m).writeWord (start + 4 * n) 4 0

def clear (m : Mem) : Mem :=
  let m := fillInvalid t.bucketStart (t.bucketCount m) m
  let m := m.writeWord (t.header + 40) 4 0
  let m := m.writeWord (t.header + 48) 4 (min t.maxNodeId 1)
  m.writeWord (t.header + 52) 4 0

/-! ## Calls -/

/-- One call, with what its iterator points to. -/
def step (m : Mem) : KeyedStore.Op tr.Value K → Option (Mem × KeyedStore.Answer tr.Value)
  | .insert v => (t.insert tr m v).map fun r =>
      match r.2 with
      | .badAlloc => (r.1, .full)
      | .done node new => (r.1, .inserted (val tr r.1 node) new)
  | .find k => (t.find tr m k).map fun node => (m, .found (node.map (val tr m)))
  | .clear => some (t.clear m, .cleared)

def exec : Mem → List (KeyedStore.Op tr.Value K) → Option (Mem × List (KeyedStore.Answer tr.Value))
  | m, [] => some (m, [])
  | m, op :: ops => do
      let (m, answer) ← t.step tr m op
      let (m, answers) ← exec m ops
      return (m, answer :: answers)

end RegionTable
end Snippets
