import Snippets.RegionTable.Chains
import Mathlib.Tactic.Ring
import Mathlib.Tactic.Linarith

/-!
# `RegionTable.Region` — where everything is in a region, and `Create`

The header takes the first 56 bytes of a region, the buckets begin 64 bytes after its start, and the nodes at the next
multiple of 16 after the buckets (`Layout`). `Holding` says that a region of memory is a table in use: its header has the
right words, and its buckets and nodes are the chains of some values. `Create` makes a region that holds nothing, if the
estimate of the number of the buckets is within the table of primes.
-/

namespace Snippets

open Lib

namespace RegionTable

variable {K : Type} {tr : RegionTraits K} {t : RegionTable} {m m' : Mem} {size n : Nat} {vs : List tr.Value} {data : Int}

/-! ## Alignment

`Align` rounds an address up to a multiple of sixteen. Everything in a region begins at such an address, or at a
fixed distance from one. -/

/-- The buckets begin right behind the header. -/
theorem align_header (h : data % 16 = 0) : align (data + 56) = data + 64 := by
  unfold align
  omega

/-- The result is a multiple of sixteen, -/
theorem align_aligned (p : Int) : align p % 16 = 0 := by
  unfold align
  omega

/-- not below the address, -/
theorem le_align (p : Int) : p ≤ align p := by
  unfold align
  omega

/-- and moves with it by multiples of sixteen. -/
theorem align_add (p d : Int) (hd : d % 16 = 0) : align (p + d) = align p + d := by
  unfold align
  omega

/-- The check is whether an address is one itself. -/
theorem checkAligned_iff {p : Int} : checkAligned p = true ↔ p % 16 = 0 := decide_eq_true_iff

/-- Such an address is also a multiple of what divides sixteen, -/
theorem alignTo_of_aligned {a : Nat} (ha : a ∣ 16) {p : Int} (h : p % 16 = 0) : alignTo a p = p := by
  have hpos : 0 < a := Nat.pos_of_dvd_of_pos ha (by omega)
  obtain ⟨q, rfl⟩ : (a : Int) ∣ p := (Int.natCast_dvd_natCast.mpr ha).trans (Int.dvd_of_emod_eq_zero h)
  unfold alignTo
  have hsum : (a : Int) * q + a - 1 = (a - 1 : Int) + a * q := by ring
  rw [hsum, Int.add_mul_ediv_left _ _ (by omega), Int.ediv_eq_zero_of_lt (by omega) (by omega)]
  ring

/-- so no byte is lost before the first element. -/
theorem alignTo_sub_self {a : Nat} (ha : a ∣ 16) {p : Int} (h : p % 16 = 0) : (alignTo a p - p).toNat = 0 := by
  rw [alignTo_of_aligned ha h]
  omega

/-! ## The layout

A header, `n` buckets and the nodes, one behind the other inside the region. -/

/-- A table of `n` buckets in a region of `size` bytes. -/
structure Layout (tr : RegionTraits K) (t : RegionTable) (size n : Nat) : Prop where
  aligned : t.header % 16 = 0
  prime : n ∈ kPrimeList
  buckets : t.bucketStart = t.header + 64
  capacity : t.capacity = n
  nodes : t.nodeStart = align (t.header + 64 + 4 * n)
  fits : t.nodeStart ≤ t.header + size
  ids : t.maxNodeId = (t.header + size - t.nodeStart).toNat / tr.nodeSize
  small : t.maxNodeId + 1 < 2 ^ 32
  some_node : 1 ≤ t.maxNodeId
  element_small : tr.nodeSize < 2 ^ 32

namespace Layout

variable (hl : Layout tr t size n)
include hl

/-- There is a bucket, -/
theorem pos : 0 < n := by
  have hmem := hl.prime
  have hall : ∀ p ∈ kPrimeList, 0 < p := by decide
  exact hall n hmem

/-- and the nodes begin behind the last one. -/
theorem nodes_ge : t.header + 64 + 4 * n ≤ t.nodeStart := by
  rw [hl.nodes]
  exact le_align _

/-- A node is within the region. -/
theorem node_inside {id : Nat} (hpos : 0 < id) (hle : id ≤ t.maxNodeId) :
    t.nodeStart ≤ t.nodeAddr tr id ∧ t.nodeAddr tr id + tr.nodeSize ≤ t.header + size := by
  have hids : t.maxNodeId * tr.nodeSize ≤ (t.header + size - t.nodeStart).toNat := by
    rw [hl.ids]
    exact Nat.div_mul_le_self _ _
  have hmul : tr.nodeSize * (id - 1) + tr.nodeSize ≤ t.maxNodeId * tr.nodeSize := by
    calc tr.nodeSize * (id - 1) + tr.nodeSize = tr.nodeSize * (id - 1 + 1) := by ring
      _ = id * tr.nodeSize := by rw [Nat.sub_add_cancel hpos, Nat.mul_comm]
      _ ≤ t.maxNodeId * tr.nodeSize := Nat.mul_le_mul_right _ hle
  have hfits := hl.fits
  unfold nodeAddr
  rw [← Nat.cast_mul]
  omega

end Layout

/-- Two nodes do not overlap. -/
theorem nodeAddr_disjoint {i j : Nat} (hi : 0 < i) (hij : i < j) : t.nodeAddr tr i + tr.nodeSize ≤ t.nodeAddr tr j := by
  have hmul : tr.nodeSize * (i - 1) + tr.nodeSize ≤ tr.nodeSize * (j - 1) := by
    calc tr.nodeSize * (i - 1) + tr.nodeSize = tr.nodeSize * (i - 1 + 1) := by ring
      _ ≤ tr.nodeSize * (j - 1) := Nat.mul_le_mul_left _ (by omega)
  unfold nodeAddr
  rw [← Nat.cast_mul, ← Nat.cast_mul]
  omega

/-! ## A table in use

What the words of the header say, the heads of the chains, and the nodes with their values. -/

/-- The words of the header that never change. -/
structure Formatted (tr : RegionTraits K) (m : Mem) (data : Int) (n : Nat) : Prop where
  magic : m.readWord data 8 = kMagic
  elementSize : m.readWord (data + 8) 4 = tr.valueSize
  bucketNum : m.readWord (data + 12) 4 = n
  vectorMagic : m.readWord (data + 16) 8 = vectorMagic
  current : m.readWord (data + 24) 4 = n
  idSize : m.readWord (data + 28) 4 = 4
  allocatorMagic : m.readWord (data + 32) 8 = allocatorMagic
  nodeSize : m.readWord (data + 44) 4 = tr.nodeSize

/-- The fixed words of a header may be read elsewhere, when they are the same there; the count of the nodes is not
    one of them. -/
theorem Formatted.congr {data' : Int} (hf : Formatted tr m data n)
    (h : ∀ (a : Int) (len : Nat), 0 ≤ a → a + len ≤ 40 ∨ 44 ≤ a ∧ a + len ≤ 48 →
      m'.readWord (data' + a) len = m.readWord (data + a) len) : Formatted tr m' data' n where
  magic := by
    have hword := h 0 8 (by omega) (by omega)
    rw [add_zero, add_zero] at hword
    exact hword.trans hf.magic
  elementSize := (h 8 4 (by omega) (by omega)).trans hf.elementSize
  bucketNum := (h 12 4 (by omega) (by omega)).trans hf.bucketNum
  vectorMagic := (h 16 8 (by omega) (by omega)).trans hf.vectorMagic
  current := (h 24 4 (by omega) (by omega)).trans hf.current
  idSize := (h 28 4 (by omega) (by omega)).trans hf.idSize
  allocatorMagic := (h 32 8 (by omega) (by omega)).trans hf.allocatorMagic
  nodeSize := (h 44 4 (by omega) (by omega)).trans hf.nodeSize

/-- **The table's invariant**: the memory holds the values. -/
structure Holding (tr : RegionTraits K) (t : RegionTable) (n : Nat) (m : Mem) (vs : List tr.Value) : Prop where
  formatted : Formatted tr m t.header n
  size : m.readWord (t.header + 40) 4 = vs.length
  free : m.readWord (t.header + 48) 4 = vs.length + 1
  freeList : m.readWord (t.header + 52) 4 = 0
  heads : ∀ b < n, m.readWord (t.bucketStart + 4 * b) 4 = firstId tr n b vs
  stored : Stored tr t m n vs
  room : vs.length ≤ t.maxNodeId

/-- The heads of the chains are in the buckets. -/
theorem Holding.toHeads (h : Holding tr t n m vs) : Heads tr t m n vs := ⟨h.formatted.current, h.heads⟩

/-! ## `Create`

It writes the header, then the buckets one by one, and last the header of the nodes. -/

variable {header start : Int} {capacity k c : Nat}

/-- The loop that fills the buckets, while the counter does not wrap. -/
theorem pushInvalid_spec (hafter : header + 12 ≤ start) (hcap : capacity < 2 ^ 32) (hk : c + k ≤ capacity)
    (hcur : m.readWord (header + 8) 4 = c) (hzero : ∀ b < c, m.readWord (start + 4 * b) 4 = 0) :
    ∃ m', pushInvalid header start capacity k m = some m' ∧ m'.readWord (header + 8) 4 = c + k ∧
      (∀ b < c + k, m'.readWord (start + 4 * b) 4 = 0) ∧
      ∀ x, x < header + 8 ∨ header + 12 ≤ x ∧ x < start → m' x = m x := by
  -- by induction on the buckets still to be written
  induction k generalizing m c with
  | zero => exact ⟨m, rfl, hcur, hzero, fun _ _ => rfl⟩
  | succ k ih =>
      have hpush : pushBack header start capacity m 0 =
          some ((m.writeWord (start + 4 * c) 4 0).writeWord (header + 8) 4 (c + 1)) := by
        unfold pushBack
        simp only [hcur]
        rw [if_neg (by omega)]
      have hcur' : ((m.writeWord (start + 4 * c) 4 0).writeWord (header + 8) 4 (c + 1)).readWord (header + 8) 4 = c + 1 := by
        rw [Mem.readWord_writeWord_self]
        omega
      have hzero' : ∀ b < c + 1,
          ((m.writeWord (start + 4 * c) 4 0).writeWord (header + 8) 4 (c + 1)).readWord (start + 4 * b) 4 = 0 := by
        intro b hb
        rw [Mem.readWord_writeWord_disjoint (by omega)]
        by_cases hbc : b = c
        · rw [hbc, Mem.readWord_writeWord_self]
          rfl
        · rw [Mem.readWord_writeWord_disjoint (by omega)]
          exact hzero b (by omega)
      obtain ⟨m', hrun, hcount, hall, hframe⟩ := ih (by omega) hcur' hzero'
      refine ⟨m', ?_, by omega, fun b hb => hall b (by omega), ?_⟩
      · rw [pushInvalid, hpush]
        exact hrun
      · intro x hx
        rw [hframe x hx, Mem.writeWord_outside (by omega), Mem.writeWord_outside (by omega)]

/-- The header that `Create` writes before the buckets. -/
def formatHeader (tr : RegionTraits K) (m : Mem) (data : Int) (num : Nat) : Mem :=
  (((((m.writeWord data 8 kMagic).writeWord (data + 8) 4 tr.valueSize).writeWord (data + 12) 4 num).writeWord
    (data + 16) 8 vectorMagic).writeWord (data + 16 + 8) 4 0).writeWord (data + 16 + 12) 4 4

/-- The header of the allocator. -/
def formatAllocator (tr : RegionTraits K) (m : Mem) (data : Int) (maxNodeId : Nat) : Mem :=
  ((((m.writeWord (data + 32) 8 allocatorMagic).writeWord (data + 32 + 8) 4 0).writeWord (data + 32 + 12) 4
    tr.nodeSize).writeWord (data + 32 + 20) 4 0).writeWord (data + 32 + 16) 4 (min maxNodeId 1)

/-- The number of buckets of a region. -/
def bucketsOf (tr : RegionTraits K) (size : Nat) : Nat := bucketNum (max 53 (2 * size / (4 + 2 * tr.nodeSize)))

/-- The table that `Create` returns. -/
def created (tr : RegionTraits K) (data : Int) (size num : Nat) : RegionTable :=
  ⟨data, data + 64, num, align (data + 64 + 4 * num),
    (data + size - align (data + 64 + 4 * num)).toNat / tr.nodeSize % 2 ^ 32⟩

/-- The vector of the buckets, freshly made, -/
theorem vectorCreate_eq (hal : start % 16 = 0) : vectorCreate m start (4 * n) header =
    (((m.writeWord header 8 vectorMagic).writeWord (header + 8) 4 0).writeWord (header + 12) 4 4, some (start, n)) := by
  have hdvd : (4 : Nat) ∣ 16 := by decide
  unfold vectorCreate
  rw [if_neg (not_not.mpr (checkAligned_iff.mpr hal)), alignTo_sub_self hdvd hal, if_neg (by omega),
    alignTo_of_aligned hdvd hal]
  simp

/-- and the allocator of the nodes. -/
theorem allocatorCreate_eq (hal : start % 16 = 0) (k : Nat) : allocatorCreate tr m start k (data + 32) =
    (formatAllocator tr m data (k / tr.nodeSize % 2 ^ 32), some (start, k / tr.nodeSize % 2 ^ 32)) := by
  unfold allocatorCreate formatAllocator
  rw [if_neg (not_not.mpr (checkAligned_iff.mpr hal)), alignTo_sub_self tr.aligned hal, if_neg (by omega),
    alignTo_of_aligned tr.aligned hal]
  rfl

/-- The vector read back from its header, -/
theorem vectorRestore_eq (hal : start % 16 = 0) (hmagic : m.readWord header 8 = vectorMagic)
    (hcurrent : m.readWord (header + 8) 4 ≤ n) (hid : m.readWord (header + 12) 4 = 4) :
    vectorRestore m start (4 * n) header = some (start, n) := by
  have hdvd : (4 : Nat) ∣ 16 := by decide
  have hcap : (4 * n - 0) / 4 = n := by omega
  unfold vectorRestore
  rw [if_neg (not_not.mpr (checkAligned_iff.mpr hal)), alignTo_sub_self hdvd hal, if_neg (by omega),
    alignTo_of_aligned hdvd hal, hcap, hmagic, hid]
  exact if_neg (by simpa using hcurrent)

/-- and the allocator. -/
theorem allocatorRestore_eq (hal : start % 16 = 0) (hmagic : m.readWord header 8 = allocatorMagic)
    (hnode : m.readWord (header + 12) 4 = tr.nodeSize) (hsize : m.readWord (header + 8) 4 ≤ k / tr.nodeSize)
    (hlist : m.readWord (header + 20) 4 ≤ k / tr.nodeSize) (hfree : m.readWord (header + 16) 4 ≤ k / tr.nodeSize + 1) :
    allocatorRestore tr m start k header = some (start, k / tr.nodeSize % 2 ^ 32) := by
  unfold allocatorRestore
  rw [if_neg (not_not.mpr (checkAligned_iff.mpr hal)), alignTo_sub_self tr.aligned hal, if_neg (by omega),
    alignTo_of_aligned tr.aligned hal, Nat.sub_zero, hmagic, hnode]
  refine if_neg ?_
  simp only [ne_eq, not_true_eq_false, false_or, not_or, Nat.not_lt]
  exact ⟨hsize, hlist, hfree⟩

/-- What `Create` does when it can write the buckets. -/
theorem create_eq (hal : data % 16 = 0) (hfit : 64 + 4 * bucketsOf tr size ≤ size)
    (hpush : pushInvalid (data + 16) (data + 64) (bucketsOf tr size) (bucketsOf tr size)
      (formatHeader tr m data (bucketsOf tr size)) = some m') :
    create tr m data size =
      if data + size < align (data + 64 + 4 * bucketsOf tr size) then some (m', none)
      else some (formatAllocator tr m' data (created tr data size (bucketsOf tr size)).maxNodeId,
        some (created tr data size (bucketsOf tr size))) := by
  have hstart : (data + 64) % 16 = 0 := by omega
  unfold create
  rw [if_neg (not_not.mpr (checkAligned_iff.mpr hal))]
  have hnum : bucketNum (max 53 (2 * size / (4 + 2 * tr.nodeSize))) = bucketsOf tr size := rfl
  simp only [align_header hal, hnum]
  rw [if_neg (by omega), vectorCreate_eq hstart]
  simp only [ne_eq, not_true_eq_false, if_false]
  unfold formatHeader at hpush
  rw [hpush]
  simp only [allocatorCreate_eq (align_aligned _)]
  rfl

/-- `Create` wants an aligned region, -/
theorem create_aligned {r : Mem} (h : create tr m data size = some (r, some t)) : data % 16 = 0 := by
  by_contra hal
  unfold create at h
  rw [if_pos (mt checkAligned_iff.mp hal)] at h
  simp at h

/-- and one that the buckets fit into. -/
theorem create_fits {r : Mem} (h : create tr m data size = some (r, some t)) : 64 + 4 * bucketsOf tr size ≤ size := by
  by_contra hfit
  have hal := create_aligned h
  have hnum : bucketNum (max 53 (2 * size / (4 + 2 * tr.nodeSize))) = bucketsOf tr size := rfl
  unfold create at h
  rw [if_neg (not_not.mpr (checkAligned_iff.mpr hal))] at h
  simp only [align_header hal, hnum] at h
  rw [if_pos (by omega)] at h
  simp at h

/-! ### Within the table of primes

Up to the last prime of the table the number of buckets is a prime, and it is below the 32 bits of the header. -/

/-- The estimate of the number of the buckets does not pass the last prime, and the header has room for the sizes. -/
structure Tabled (tr : RegionTraits K) (size : Nat) : Prop where
  estimate : size / (tr.nodeSize + 2) ≤ 4294967291
  node : tr.nodeSize < 2 ^ 32

/-- The estimate is the size by that of a node and half a bucket. -/
theorem estimate_eq (tr : RegionTraits K) (size : Nat) : 2 * size / (4 + 2 * tr.nodeSize) = size / (tr.nodeSize + 2) := by
  have hsum : 4 + 2 * tr.nodeSize = 2 * (tr.nodeSize + 2) := by ring
  rw [hsum, Nat.mul_div_mul_left _ _ (by omega)]

/-- An estimate within the table gives a prime that is not below it. -/
theorem bucketNum_spec {e : Nat} (h : e ≤ 4294967291) : bucketNum e ∈ kPrimeList ∧ e ≤ bucketNum e := by
  unfold bucketNum
  cases hf : kPrimeList.find? (e ≤ ·) with
  | none =>
      have hlast : 4294967291 ∈ kPrimeList := by decide
      have hnot := List.find?_eq_none.mp hf _ hlast
      simp only [decide_eq_true_eq] at hnot
      omega
  | some p =>
      have hle : e ≤ p := by simpa using List.find?_some hf
      exact ⟨List.mem_of_find?_eq_some hf, hle⟩

/-- So there is a prime number of buckets. -/
theorem Tabled.prime (h : Tabled tr size) :
    bucketsOf tr size ∈ kPrimeList ∧ size / (tr.nodeSize + 2) ≤ bucketsOf tr size := by
  have hest := h.estimate
  have hspec := bucketNum_spec (show max 53 (2 * size / (4 + 2 * tr.nodeSize)) ≤ 4294967291 by rw [estimate_eq]; omega)
  rw [estimate_eq] at hspec
  unfold bucketsOf
  rw [estimate_eq]
  exact ⟨hspec.1, by omega⟩

/-- A node has its link at least. -/
theorem nodeSize_pos (tr : RegionTraits K) : 4 ≤ tr.nodeSize := by
  have h₁ := tr.next_before
  have h₂ := tr.inside
  omega

/-- With that many buckets the ids of the nodes have room in 32 bits. -/
theorem Tabled.ids (h : Tabled tr size) : (size - (64 + 4 * bucketsOf tr size : Nat)) / tr.nodeSize ≤ 4294967292 := by
  obtain ⟨-, hge⟩ := h.prime
  have hest := h.estimate
  have hnode := nodeSize_pos tr
  have hlt : size < (tr.nodeSize + 2) * (size / (tr.nodeSize + 2) + 1) := Nat.lt_mul_div_succ _ (by omega)
  generalize size / (tr.nodeSize + 2) = q at hge hest hlt
  apply Nat.le_of_lt_succ
  rw [Nat.div_lt_iff_lt_mul (by omega)]
  have hexpand : (tr.nodeSize + 2) * (q + 1) = tr.nodeSize * q + tr.nodeSize + 2 * q + 2 := by ring
  have hmul : tr.nodeSize * q ≤ tr.nodeSize * 4294967291 := Nat.mul_le_mul_left _ hest
  omega

/-- Both numbers of the header fit it. -/
theorem Tabled.words (h : Tabled tr size) : bucketsOf tr size < 2 ^ 32 ∧ tr.valueSize < 2 ^ 32 := by
  have hall : ∀ p ∈ kPrimeList, p < 2 ^ 32 := by decide
  have hin := tr.inside
  have hnode := h.node
  exact ⟨hall _ h.prime.1, by omega⟩

/-- The table's parts lie in the region. -/
theorem created_layout (h : Tabled tr size) (hal : data % 16 = 0)
    (hroom : align (data + 64 + 4 * bucketsOf tr size) ≤ data + size)
    (hmax : 1 ≤ (created tr data size (bucketsOf tr size)).maxSize) :
    Layout tr (created tr data size (bucketsOf tr size)) size (bucketsOf tr size) := by
  have hids := h.ids
  have hle := le_align (data + 64 + 4 * bucketsOf tr size)
  have hbound : (data + size - align (data + 64 + 4 * bucketsOf tr size)).toNat / tr.nodeSize ≤ 4294967292 := by
    refine le_trans (Nat.div_le_div_right ?_) hids
    omega
  have hmod : (created tr data size (bucketsOf tr size)).maxNodeId =
      (data + size - align (data + 64 + 4 * bucketsOf tr size)).toNat / tr.nodeSize :=
    Nat.mod_eq_of_lt (by omega)
  exact {
    aligned := hal
    prime := h.prime.1
    buckets := rfl
    capacity := rfl
    nodes := rfl
    fits := hroom
    ids := hmod
    small := by rw [hmod]; omega
    some_node := hmax
    element_small := h.node }

/-- The buckets that `Create` fills, and what it leaves of the header. -/
theorem push_header (m : Mem) (data : Int) (hn : n < 2 ^ 32) (hnode : tr.valueSize < 2 ^ 32) :
    ∃ m', pushInvalid (data + 16) (data + 64) n n (formatHeader tr m data n) = some m' ∧
      m'.readWord data 8 = kMagic ∧ m'.readWord (data + 8) 4 = tr.valueSize ∧ m'.readWord (data + 12) 4 = n ∧
      m'.readWord (data + 16) 8 = vectorMagic ∧ m'.readWord (data + 24) 4 = n ∧ m'.readWord (data + 28) 4 = 4 ∧
      ∀ b < n, m'.readWord (data + 64 + 4 * b) 4 = 0 := by
  have hcur : (formatHeader tr m data n).readWord (data + 16 + 8) 4 = 0 := by
    unfold formatHeader
    rw [Mem.readWord_writeWord_disjoint (by omega), Mem.readWord_writeWord_self]
    rfl
  have hafter : data + 16 + 12 ≤ data + 64 := by omega
  obtain ⟨m', hpush, hcount, hzero, hframe⟩ := pushInvalid_spec (k := n) hafter hn (by omega) hcur (by omega)
  -- the buckets are behind the header, so its words stay
  have hword : ∀ (a : Int) (len : Nat), a + len ≤ data + 24 ∨ data + 28 ≤ a ∧ a + len ≤ data + 64 →
      m'.readWord a len = (formatHeader tr m data n).readWord a len := by
    intro a len ha
    apply Mem.readWord_shift
    intro i hi
    exact hframe _ (by omega)
  have hidSize : (data + 28 : Int) = data + 16 + 12 := by omega
  have hcount' : m'.readWord (data + 24) 4 = n := by
    rw [← Nat.zero_add n, ← hcount]
    congr 1
    omega
  refine ⟨m', hpush, ?_, ?_, ?_, ?_, hcount', ?_, fun b hb => hzero b (by omega)⟩
  · rw [hword _ _ (by omega), formatHeader]
    simp (disch := omega) only [Mem.readWord_writeWord_disjoint, Mem.readWord_writeWord_self]
    rfl
  · rw [hword _ _ (by omega), formatHeader]
    simp (disch := omega) only [Mem.readWord_writeWord_disjoint, Mem.readWord_writeWord_self]
    exact Nat.mod_eq_of_lt hnode
  · rw [hword _ _ (by omega), formatHeader]
    simp (disch := omega) only [Mem.readWord_writeWord_disjoint, Mem.readWord_writeWord_self]
    exact Nat.mod_eq_of_lt hn
  · rw [hword _ _ (by omega), formatHeader]
    simp (disch := omega) only [Mem.readWord_writeWord_disjoint, Mem.readWord_writeWord_self]
    rfl
  · rw [hword _ _ (by omega), formatHeader, hidSize, Mem.readWord_writeWord_self]
    rfl

/-- The allocator's header is written by itself, -/
theorem formatAllocator_outside {a : Int} {len : Nat} (h : a + len ≤ data + 32 ∨ data + 56 ≤ a) (k : Nat) :
    (formatAllocator tr m data k).readWord a len = m.readWord a len := by
  unfold formatAllocator
  simp (disch := omega) only [Mem.readWord_writeWord_disjoint]

/-- word for word. -/
theorem formatAllocator_words (hnode : tr.nodeSize < 2 ^ 32) {k : Nat} (hk : 1 ≤ k) :
    (formatAllocator tr m data k).readWord (data + 32) 8 = allocatorMagic ∧
      (formatAllocator tr m data k).readWord (data + 40) 4 = 0 ∧
      (formatAllocator tr m data k).readWord (data + 44) 4 = tr.nodeSize ∧
      (formatAllocator tr m data k).readWord (data + 48) 4 = 1 ∧ (formatAllocator tr m data k).readWord (data + 52) 4 = 0 := by
  have h40 : data + 40 = data + 32 + 8 := by omega
  have h44 : data + 44 = data + 32 + 12 := by omega
  have h48 : data + 48 = data + 32 + 16 := by omega
  have h52 : data + 52 = data + 32 + 20 := by omega
  unfold formatAllocator
  rw [h40, h44, h48, h52, Nat.min_eq_right hk]
  simp (disch := omega) only [Mem.readWord_writeWord_disjoint, Mem.readWord_writeWord_self]
  refine ⟨rfl, rfl, Nat.mod_eq_of_lt hnode, rfl, rfl⟩

/-- **`Create`** makes an empty table when the region has room for the buckets. -/
theorem create_holding (h : Tabled tr size) (hal : data % 16 = 0)
    (hroom : align (data + 64 + 4 * bucketsOf tr size) ≤ data + size) (m : Mem) :
    ∃ r, create tr m data size = some (r, some (created tr data size (bucketsOf tr size))) ∧
      (1 ≤ (created tr data size (bucketsOf tr size)).maxSize →
        Holding tr (created tr data size (bucketsOf tr size)) (bucketsOf tr size) r []) := by
  have hle := le_align (data + 64 + 4 * bucketsOf tr size)
  obtain ⟨m', hpush, hmagic, helement, hnum, hvector, hcurrent, hid, hzero⟩ := push_header m data h.words.1 h.words.2
  refine ⟨formatAllocator tr m' data (created tr data size (bucketsOf tr size)).maxNodeId, ?_, ?_⟩
  · rw [create_eq hal (by omega) hpush, if_neg (by omega)]
  · intro hmax
    obtain ⟨halloc, hsize, hnode, hfree, hlist⟩ := formatAllocator_words h.node hmax
    -- the allocator's header is apart from the other words and from the buckets
    have hout : ∀ {a : Int} {len : Nat}, a + len ≤ data + 32 ∨ data + 56 ≤ a →
        (formatAllocator tr m' data (created tr data size (bucketsOf tr size)).maxNodeId).readWord a len =
          m'.readWord a len := fun ha => formatAllocator_outside ha _
    refine ⟨⟨?_, ?_, ?_, ?_, ?_, ?_, halloc, hnode⟩, hsize, hfree, hlist, ?_, trivial, Nat.zero_le _⟩
    · exact (hout (by simp only [created]; omega)).trans hmagic
    · exact (hout (by simp only [created]; omega)).trans helement
    · exact (hout (by simp only [created]; omega)).trans hnum
    · exact (hout (by simp only [created]; omega)).trans hvector
    · exact (hout (by simp only [created]; omega)).trans hcurrent
    · exact (hout (by simp only [created]; omega)).trans hid
    · intro b hb
      exact (hout (by simp only [created]; omega)).trans (hzero b hb)

/-- A created table holds nothing. -/
theorem holding_of_create {r : Mem} (h : Tabled tr size) (hc : create tr m data size = some (r, some t))
    (hmax : 1 ≤ t.maxSize) :
    t.header = data ∧ Layout tr t size (bucketsOf tr size) ∧ Holding tr t (bucketsOf tr size) r [] := by
  have hal := create_aligned hc
  have hroom : align (data + 64 + 4 * bucketsOf tr size) ≤ data + size := by
    by_contra hno
    obtain ⟨m', hpush, -⟩ := push_header m data h.words.1 h.words.2
    rw [create_eq hal (create_fits hc) hpush, if_pos (by omega)] at hc
    simp at hc
  obtain ⟨r', hc', hholds⟩ := create_holding h hal hroom m
  rw [hc, Option.some.injEq, Prod.mk.injEq, Option.some.injEq] at hc'
  obtain ⟨rfl, rfl⟩ := hc'
  exact ⟨rfl, created_layout h hal hroom hmax, hholds hmax⟩

/-! ### Past the table of primes

The number of the buckets is then the estimate itself, and the header has only its last 32 bits. -/

/-- With that many buckets the counter of the vector never reaches the capacity. -/
theorem pushInvalid_wraps (hafter : header + 12 ≤ start) (hcap : 2 ^ 32 ≤ capacity) (k : Nat) (m : Mem) :
    ∃ m', pushInvalid header start capacity k m = some m' ∧ ∀ x, x < header + 8 → m' x = m x := by
  induction k generalizing m with
  | zero => exact ⟨m, rfl, fun _ _ => rfl⟩
  | succ k ih =>
      have hlt := Mem.readWord_lt m (header + 8) 4
      have hpush : pushBack header start capacity m 0 = some ((m.writeWord (start + 4 * (m.readWord (header + 8) 4 : Nat)) 4
          0).writeWord (header + 8) 4 (m.readWord (header + 8) 4 + 1)) := by
        unfold pushBack
        exact if_neg (by omega)
      rw [pushInvalid, hpush, Option.bind_some]
      obtain ⟨m', hrun, hframe⟩ := ih ((m.writeWord (start + 4 * (m.readWord (header + 8) 4 : Nat)) 4 0).writeWord
        (header + 8) 4 (m.readWord (header + 8) 4 + 1))
      refine ⟨m', hrun, ?_⟩
      intro x hx
      rw [hframe x hx, Mem.writeWord_outside (by omega), Mem.writeWord_outside (by omega)]

/-- The count of buckets is cut, so the header names fewer than there are. -/
theorem create_wraps (hal : data % 16 = 0) (hroom : align (data + 64 + 4 * bucketsOf tr size) ≤ data + size)
    (hwrap : 2 ^ 32 ≤ bucketsOf tr size) (m : Mem) :
    ∃ r, create tr m data size = some (r, some (created tr data size (bucketsOf tr size))) ∧
      r.readWord (data + 12) 4 = bucketsOf tr size % 2 ^ 32 := by
  have hle := le_align (data + 64 + 4 * bucketsOf tr size)
  have hafter : data + 16 + 12 ≤ data + 64 := by omega
  obtain ⟨m', hpush, hframe⟩ := pushInvalid_wraps hafter hwrap (bucketsOf tr size)
    (formatHeader tr m data (bucketsOf tr size))
  refine ⟨formatAllocator tr m' data (created tr data size (bucketsOf tr size)).maxNodeId, ?_, ?_⟩
  · rw [create_eq hal (by omega) hpush, if_neg (by omega)]
  · have hword : m'.readWord (data + 12) 4 = (formatHeader tr m data (bucketsOf tr size)).readWord (data + 12) 4 := by
      apply Mem.readWord_shift
      intro i hi
      exact hframe _ (by omega)
    rw [formatAllocator_outside (by omega), hword]
    unfold formatHeader
    simp (disch := omega) only [Mem.readWord_writeWord_disjoint, Mem.readWord_writeWord_self]
    rfl

end RegionTable
end Snippets
