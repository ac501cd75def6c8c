import Snippets.RegionTable.Region

/-!
# `RegionTable.Refinement` — a table in a region is a bounded keyed store

Every call keeps the invariant and answers as the store of the values does (`Holding.step`), so a whole run does. What a
table shows — its size, its buckets, the iterator, the keys that are found and the inserts that change nothing — is read
off the invariant (`Observed`). The invariant says nothing about the address of the region: a copy of the bytes elsewhere
holds the same values, and `Restore` finds them there.
-/

namespace Snippets

open Lib

namespace RegionTable

variable {K : Type} {tr : RegionTraits K} {t t' : RegionTable} {m m' : Mem} {size n : Nat} {vs : List tr.Value}
  {v : tr.Value} {data : Int}

/-- The nodes of the values, when they are read elsewhere. -/
theorem Stored.congr (hs : Stored tr t m n vs)
    (h : ∀ id, 0 < id → id ≤ vs.length →
      next m' (t'.nodeAddr tr id) = next m (t.nodeAddr tr id) ∧
        val tr m' (t'.nodeAddr tr id) = val tr m (t.nodeAddr tr id)) : Stored tr t' m' n vs := by
  induction vs with
  | nil => trivial
  | cons v vs ih =>
      obtain ⟨hnext, hval, hrest⟩ := hs
      obtain ⟨hnext', hval'⟩ := h (vs.length + 1) (Nat.succ_pos _) (Nat.le_refl _)
      refine ⟨hnext'.trans hnext, hval'.trans hval, ih hrest ?_⟩
      intro id hpos hle
      exact h id hpos (Nat.le_succ_of_le hle)

/-! ## A copy

The bytes of the region at another address. What the table reads are offsets from the header, so a copy holds
what the region held. -/

section Copy

variable (hl : Layout tr t size n) (h : Holding tr t n m vs) (hal : data % 16 = 0)
  (hcopy : ∀ i : Nat, i < size → m' (data + i) = m (t.header + i))
include hl hal

/-- The table at another address. -/
def moved (t : RegionTable) (data : Int) (n : Nat) : RegionTable :=
  ⟨data, data + 64, n, align (data + 64 + 4 * n), t.maxNodeId⟩

/-- The nodes move with the region, -/
theorem moved_nodeStart : (t.moved data n).nodeStart = t.nodeStart + (data - t.header) := by
  have hd : (data - t.header) % 16 = 0 := by
    have := hl.aligned
    omega
  rw [hl.nodes, ← align_add _ _ hd]
  show align _ = align _
  congr 1
  omega

/-- and so does the whole layout. -/
theorem moved_layout : Layout tr (t.moved data n) size n where
  aligned := hal
  prime := hl.prime
  buckets := rfl
  capacity := rfl
  nodes := rfl
  fits := by
    rw [moved_nodeStart hl hal]
    have := hl.fits
    show _ ≤ data + size
    omega
  ids := by
    rw [moved_nodeStart hl hal]
    show t.maxNodeId = _
    rw [hl.ids]
    congr 2
    show _ = data + size - _
    omega
  small := hl.small
  some_node := hl.some_node
  element_small := hl.element_small

include hcopy

omit hl hal in
/-- A word of the region, read in the copy. -/
theorem copy_word {a : Int} {len : Nat} (ha : 0 ≤ a ∧ a + len ≤ size) :
    m'.readWord (data + a) len = m.readWord (t.header + a) len := by
  obtain ⟨a, rfl⟩ := Int.eq_ofNat_of_zero_le ha.1
  apply Mem.readWord_shift
  intro i hi
  have := hcopy (a + i) (by omega)
  push_cast at this
  rwa [← add_assoc, ← add_assoc] at this

include h

/-- **A copy** of the region holds the same values. -/
theorem copy_holding : Holding tr (t.moved data n) n m' vs := by
  have hsize : t.header + 64 + 4 * n ≤ t.header + size := hl.nodes_ge.trans hl.fits
  refine ⟨h.formatted.congr ?_, ?_, ?_, ?_, ?_, h.stored.congr ?_, h.room⟩
  · intro a len hpos ha
    exact copy_word hcopy (by omega)
  · exact (copy_word hcopy (by omega)).trans h.size
  · exact (copy_word hcopy (by omega)).trans h.free
  · exact (copy_word hcopy (by omega)).trans h.freeList
  -- the heads of the buckets
  · intro b hb
    have hword : m'.readWord (data + (64 + 4 * b)) 4 = m.readWord (t.header + (64 + 4 * b)) 4 :=
      copy_word hcopy (by omega)
    rw [← h.heads b hb, hl.buckets]
    rwa [← add_assoc, ← add_assoc] at hword
  · intro id hpos hle
    obtain ⟨hlow, hhigh⟩ := hl.node_inside hpos (hle.trans h.room)
    have hge := hl.nodes_ge
    have hin := tr.inside
    have hbefore := tr.next_before
    -- the node, as an offset into the region
    obtain ⟨a, ha⟩ : ∃ a : Nat, t.nodeAddr tr id = t.header + a := ⟨(t.nodeAddr tr id - t.header).toNat, by omega⟩
    have ha' : (t.moved data n).nodeAddr tr id = data + a := by
      unfold nodeAddr at ha ⊢
      rw [moved_nodeStart hl hal]
      omega
    rw [ha, ha']
    constructor
    · exact copy_word hcopy (by omega)
    · apply Subtype.ext
      apply Mem.read_shift
      intro i hi
      have := hcopy (a + tr.valueOffset + i) (by omega)
      push_cast at this
      rwa [← add_assoc, ← add_assoc, ← add_assoc, ← add_assoc] at this

/-- **`Restore`** finds the table in the copy. -/
theorem restore_copy : restore tr m' data size = some (t.moved data n) := by
  have hlay := moved_layout hl hal
  have hhold := copy_holding hl h hal hcopy
  have hf : Formatted tr m' data n := hhold.formatted
  have hge := hlay.nodes_ge
  have hfits : align (data + 64 + 4 * n) ≤ data + size := hlay.fits
  have hids : (data + size - align (data + 64 + 4 * n)).toNat / tr.nodeSize = t.maxNodeId := hlay.ids.symm
  have hroom := h.room
  have h24 : data + 16 + 8 = data + 24 := by omega
  have h28 : data + 16 + 12 = data + 28 := by omega
  have h40 : data + 32 + 8 = data + 40 := by omega
  have h44 : data + 32 + 12 = data + 44 := by omega
  have h48 : data + 32 + 16 = data + 48 := by omega
  have h52 : data + 32 + 20 = data + 52 := by omega
  have hsize : m'.readWord (data + 40) 4 = vs.length := hhold.size
  have hfree : m'.readWord (data + 48) 4 = vs.length + 1 := hhold.free
  have hlist : m'.readWord (data + 52) 4 = 0 := hhold.freeList
  -- the two parts of the region check their own headers
  have hvector : vectorRestore m' (data + 64) (4 * n) (data + 16) = some (data + 64, n) := by
    apply vectorRestore_eq (by omega) hf.vectorMagic
    · rw [h24, hf.current]
    · rw [h28, hf.idSize]
  have halloc : allocatorRestore tr m' (align (data + 64 + 4 * n)) (data + size - align (data + 64 + 4 * n)).toNat
      (data + 32) = some (align (data + 64 + 4 * n), t.maxNodeId) := by
    rw [allocatorRestore_eq (align_aligned _) hf.allocatorMagic, hids, Nat.mod_eq_of_lt (by have := hl.small; omega)]
    · rw [h44, hf.nodeSize]
    · rw [h40, hsize, hids]
      exact hroom
    · rw [h52, hlist]
      exact Nat.zero_le _
    · rw [h48, hfree, hids]
      omega
  unfold restore
  rw [if_neg (not_not.mpr (checkAligned_iff.mpr hal))]
  simp only [hf.bucketNum, hf.magic, hf.elementSize, align_header hal, hlay.prime, not_true_eq_false, ne_eq, or_self,
    if_false, hvector, halloc]
  rw [if_neg (by omega)]
  rfl

end Copy

/-! ## `insert`

A new node takes the next id, its link is the head of its bucket, and the head is its id. Its writes are in the
node, in the cell of the bucket and in two counters. -/

section Link

variable {cell node : Int} {id : Nat} {a : Int} {len : Nat}

/-- Bytes outside the node and the cell are as before, -/
theorem link_read (hnode : a + len ≤ node ∨ node + tr.nodeSize ≤ a) (hcell : a + len ≤ cell ∨ cell + 4 ≤ a) :
    (link tr m cell id node v).read a len = m.read a len := by
  have hbefore := tr.next_before
  have hin := tr.inside
  have hlen := v.2
  unfold link
  rw [Mem.read_writeWord_disjoint (by omega), Mem.read_writeWord_disjoint (by omega), Mem.read_write_disjoint (by omega)]

/-- and so are words. -/
theorem link_word (hnode : a + len ≤ node ∨ node + tr.nodeSize ≤ a) (hcell : a + len ≤ cell ∨ cell + 4 ≤ a) :
    (link tr m cell id node v).readWord a len = m.readWord a len := by
  unfold Mem.readWord
  rw [link_read hnode hcell]

/-- The cell holds the id of the node, -/
theorem link_cell : (link tr m cell id node v).readWord cell 4 = id % 2 ^ 32 := Mem.readWord_writeWord_self _

variable (hapart : cell + 4 ≤ node)
include hapart

/-- the node's link is what the cell held, -/
theorem link_next : next (link tr m cell id node v) node = m.readWord cell 4 := by
  have hbefore := tr.next_before
  have hlt := Mem.readWord_lt m cell 4
  unfold next link
  rw [Mem.readWord_writeWord_disjoint (by omega), Mem.readWord_writeWord_self, Mem.readWord_write_disjoint (by omega),
    Nat.mod_eq_of_lt hlt]

/-- and its value is the one inserted. -/
theorem link_val : val tr (link tr m cell id node v) node = v := by
  have hbefore := tr.next_before
  have hself : (m.write (node + tr.valueOffset) v.1).read (node + tr.valueOffset) v.1.length = v.1 := Mem.read_write_self
  rw [v.2] at hself
  apply Subtype.ext
  show (link tr m cell id node v).read _ _ = v.1
  unfold link
  rw [Mem.read_writeWord_disjoint (by omega), Mem.read_writeWord_disjoint (by omega), hself]

end Link

section Insert

variable (hl : Layout tr t size n) (h : Holding tr t n m vs)

/-- The counters of the allocator after a new node. -/
def counted (t : RegionTable) (m : Mem) (k : Nat) : Mem :=
  (m.writeWord (t.header + 48) 4 (k + 2)).writeWord (t.header + 40) 4 (k + 1)

/-- The allocator writes its two counters only. -/
theorem counted_read {a : Int} {len : Nat} (h₁ : a + len ≤ t.header + 40 ∨ t.header + 44 ≤ a)
    (h₂ : a + len ≤ t.header + 48 ∨ t.header + 52 ≤ a) (k : Nat) : (t.counted m k).read a len = m.read a len := by
  unfold counted
  rw [Mem.read_writeWord_disjoint (by omega), Mem.read_writeWord_disjoint (by omega)]

include h

/-- A full table gets no node, -/
theorem allocate_full (hfull : vs.length = t.maxNodeId) : t.allocate tr m = some (m, none) := by
  unfold allocate
  simp only [h.freeList, h.free, ne_eq, not_true_eq_false, if_false]
  rw [if_pos (by omega)]

/-- and any other gets the next id. -/
theorem allocate_new (hroom : vs.length < t.maxNodeId) :
    t.allocate tr m = some (t.counted m vs.length, some (vs.length + 1)) := by
  unfold allocate
  simp only [h.freeList, h.free, h.size, ne_eq, not_true_eq_false, if_false]
  rw [if_neg (by omega)]
  rfl

include hl

/-- **A new node** at the front of its chain. -/
theorem link_holding (hroom : vs.length < t.maxNodeId) (v : tr.Value) :
    Holding tr t n (link tr (t.counted m vs.length) (t.bucketStart + 4 * indexOf tr n v) (vs.length + 1)
      (t.nodeAddr tr (vs.length + 1)) v) (v :: vs) := by
  have hb : indexOf tr n v < n := indexOf_lt hl.pos v
  have hstart := hl.buckets
  have hge := hl.nodes_ge
  have hsmall := hl.small
  have hbefore := tr.next_before
  have hin := tr.inside
  obtain ⟨hlow, -⟩ := hl.node_inside (show 0 < vs.length + 1 by omega) hroom
  generalize hcell : t.bucketStart + 4 * (indexOf tr n v : Int) = cell
  -- outside the counters, the node and the cell everything is as it was
  have hread : ∀ {a : Int} {len : Nat}, a + len ≤ t.header + 40 ∨ t.header + 44 ≤ a →
      a + len ≤ t.header + 48 ∨ t.header + 52 ≤ a →
      a + len ≤ t.nodeAddr tr (vs.length + 1) ∨ t.nodeAddr tr (vs.length + 1) + tr.nodeSize ≤ a →
      a + len ≤ cell ∨ cell + 4 ≤ a →
      (link tr (t.counted m vs.length) cell (vs.length + 1) (t.nodeAddr tr (vs.length + 1)) v).read a len =
        m.read a len := by
    intro a len h₁ h₂ h₃ h₄
    rw [link_read h₃ h₄, counted_read h₁ h₂]
  have hword : ∀ {a : Int} {len : Nat}, a + len ≤ t.header + 40 ∨ t.header + 44 ≤ a →
      a + len ≤ t.header + 48 ∨ t.header + 52 ≤ a →
      a + len ≤ t.nodeAddr tr (vs.length + 1) ∨ t.nodeAddr tr (vs.length + 1) + tr.nodeSize ≤ a →
      a + len ≤ cell ∨ cell + 4 ≤ a →
      (link tr (t.counted m vs.length) cell (vs.length + 1) (t.nodeAddr tr (vs.length + 1)) v).readWord a len =
        m.readWord a len := by
    intro a len h₁ h₂ h₃ h₄
    unfold Mem.readWord
    rw [hread h₁ h₂ h₃ h₄]
  refine ⟨h.formatted.congr ?_, ?_, ?_, ?_, ?_, ⟨?_, ?_, ?_⟩, hroom⟩
  · intro a len hpos ha
    exact hword (by omega) (by omega) (by omega) (by omega)
  · rw [link_word (by omega) (by omega), counted, Mem.readWord_writeWord_self, List.length_cons]
    omega
  · rw [link_word (by omega) (by omega), counted, Mem.readWord_writeWord_disjoint (by omega),
      Mem.readWord_writeWord_self, List.length_cons]
    omega
  · exact (hword (by omega) (by omega) (by omega) (by omega)).trans h.freeList
  -- the bucket of the value begins with the new node, the others are as before
  · intro b hb'
    by_cases hvb : indexOf tr n v = b
    · rw [firstId_cons_of_eq hvb, ← hvb, hcell, link_cell]
      omega
    · rw [firstId_cons_of_ne hvb, hword (by omega) (by omega) (by omega) (by omega)]
      exact h.heads b hb'
  · rw [link_next (by omega), ← h.heads _ hb, hcell]
    unfold Mem.readWord
    rw [counted_read (by omega) (by omega)]
  · exact link_val (by omega)
  · -- the other nodes are before the new one
    apply h.stored.congr
    intro id hpos hle
    have hdisj : t.nodeAddr tr id + tr.nodeSize ≤ t.nodeAddr tr (vs.length + 1) := nodeAddr_disjoint hpos (by omega)
    obtain ⟨hlow', -⟩ := hl.node_inside hpos (hle.trans h.room)
    refine ⟨hword (by omega) (by omega) (by omega) (by omega), Subtype.ext ?_⟩
    exact hread (by omega) (by omega) (by omega) (by omega)

variable (hlaw : tr.Lawful)
include hlaw

/-- A key that is there is found, and nothing is written. -/
theorem insert_present {v : tr.Value} {id : Nat}
    (hfound : locate (fun w => tr.keyEqual (tr.keyOfValue w) (tr.keyOfValue v)) vs = some id) :
    t.insert tr m v = some (m, .done (t.nodeAddr tr id) false) := by
  unfold insert
  simp only [search_eq hlaw hl.pos h.stored h.toHeads h.room, hfound, Option.map_some, Option.bind_eq_bind, Option.bind_some]
  rfl

/-- A full table refuses a new key. -/
theorem insert_full {v : tr.Value}
    (habs : locate (fun w => tr.keyEqual (tr.keyOfValue w) (tr.keyOfValue v)) vs = none) (hfull : vs.length = t.maxNodeId) :
    t.insert tr m v = some (m, .badAlloc) := by
  unfold insert
  simp only [search_eq hlaw hl.pos h.stored h.toHeads h.room, habs, Option.map_none, Option.bind_eq_bind, Option.bind_some,
    allocate_full h hfull]
  rfl

/-- Any other table takes it in. -/
theorem insert_new {v : tr.Value}
    (habs : locate (fun w => tr.keyEqual (tr.keyOfValue w) (tr.keyOfValue v)) vs = none)
    (hroom : vs.length < t.maxNodeId) :
    t.insert tr m v = some (link tr (t.counted m vs.length) (t.bucketStart + 4 * indexOf tr n v) (vs.length + 1)
      (t.nodeAddr tr (vs.length + 1)) v, .done (t.nodeAddr tr (vs.length + 1)) true) := by
  unfold insert
  simp only [search_eq hlaw hl.pos h.stored h.toHeads h.room, habs, Option.map_none, Option.bind_eq_bind, Option.bind_some,
    allocate_new h hroom, get_eq (Nat.succ_pos _) hroom]
  rfl

end Insert

/-! ## `clear`

It empties the buckets and sets the counters back; the nodes stay as they are, and no bucket leads to them. -/

/-- Bytes outside the buckets are as before. -/
theorem fillInvalid_read {start a : Int} {k len : Nat} (ha : a + len ≤ start ∨ start + 4 * k ≤ a) :
    (fillInvalid start k m).read a len = m.read a len := by
  induction k with
  | zero => rfl
  | succ k ih =>
      rw [fillInvalid, Mem.read_writeWord_disjoint (by omega)]
      exact ih (by omega)

/-- Every bucket is empty. -/
theorem fillInvalid_zero {start : Int} {b k : Nat} (hb : b < k) : (fillInvalid start k m).readWord (start + 4 * b) 4 = 0 := by
  induction k with
  | zero => omega
  | succ k ih =>
      rw [fillInvalid]
      by_cases hbk : b = k
      · rw [hbk, Mem.readWord_writeWord_self]
        rfl
      · rw [Mem.readWord_writeWord_disjoint (by omega)]
        exact ih (by omega)

/-- So the table holds nothing. -/
theorem clear_holding (hl : Layout tr t size n) (h : Holding tr t n m vs) : Holding tr t n (t.clear m) [] := by
  have hcount : t.bucketCount m = n := h.formatted.current
  have hmin : min t.maxNodeId 1 = 1 := Nat.min_eq_right hl.some_node
  have hstart := hl.buckets
  unfold clear
  simp only [hcount, hmin]
  refine ⟨h.formatted.congr ?_, ?_, ?_, ?_, ?_, trivial, Nat.zero_le _⟩
  · intro a len hpos ha
    rw [Mem.readWord_writeWord_disjoint (by omega), Mem.readWord_writeWord_disjoint (by omega),
      Mem.readWord_writeWord_disjoint (by omega)]
    unfold Mem.readWord
    rw [fillInvalid_read (by omega)]
  · rw [Mem.readWord_writeWord_disjoint (by omega), Mem.readWord_writeWord_disjoint (by omega), Mem.readWord_writeWord_self]
    rfl
  · rw [Mem.readWord_writeWord_disjoint (by omega), Mem.readWord_writeWord_self]
    rfl
  · rw [Mem.readWord_writeWord_self]
    rfl
  · intro b hb
    rw [Mem.readWord_writeWord_disjoint (by omega), Mem.readWord_writeWord_disjoint (by omega),
      Mem.readWord_writeWord_disjoint (by omega), fillInvalid_zero hb]
    rfl

/-! ## Runs

One call of the table is one of the store, with the same answer. -/

section Runs

variable (hl : Layout tr t size n) (hlaw : tr.Lawful) {s : KeyedStore tr.keyOfValue tr.keyEqual t.maxNodeId}

/-- What the search finds is what the store has. -/
theorem lookup_eq (h : Holding tr t n m s.vals) (k : K) :
    s.lookup k = (locate (fun w => tr.keyEqual (tr.keyOfValue w) k) s.vals).map fun id => val tr m (t.nodeAddr tr id) :=
  (locate_val h.stored).symm

include hl hlaw

/-- **One call** keeps the invariant and answers as the store does. -/
theorem step_holding (h : Holding tr t n m s.vals) (op : KeyedStore.Op tr.Value K) :
    ∃ m', t.step tr m op = some (m', (s.step op).2) ∧ Holding tr t n m' (s.step op).1.vals := by
  cases op with
  -- there already, no room, or new
  | insert v =>
      have hlookup := lookup_eq h (tr.keyOfValue v)
      cases hfound : locate (fun w => tr.keyEqual (tr.keyOfValue w) (tr.keyOfValue v)) s.vals with
      | some id =>
          rw [hfound, Option.map_some] at hlookup
          rw [KeyedStore.step_insert_present hlookup]
          refine ⟨m, ?_, h⟩
          rw [step, insert_present hl h hlaw hfound]
          rfl
      | none =>
          rw [hfound, Option.map_none] at hlookup
          by_cases hfull : s.vals.length = t.maxNodeId
          · rw [KeyedStore.step_insert_full hlookup hfull]
            refine ⟨m, ?_, h⟩
            rw [step, insert_full hl h hlaw hfound hfull]
            rfl
          · have hroom : s.vals.length < t.maxNodeId := lt_of_le_of_ne h.room hfull
            rw [KeyedStore.step_insert_new hlookup hfull]
            have hlink := link_holding hl h hroom v
            refine ⟨_, ?_, hlink⟩
            rw [step, insert_new hl h hlaw hfound hroom, Option.map_some]
            simp only [hlink.stored.2.1]
  | find k =>
      refine ⟨m, ?_, h⟩
      rw [step, find_eq hlaw hl.pos h.stored h.toHeads h.room, Option.map_some, Option.map_map]
      show _ = some (m, KeyedStore.Answer.found (s.lookup k))
      rw [lookup_eq h k]
      rfl
  | clear => exact ⟨t.clear m, rfl, clear_holding hl h⟩

/-- **A run** does. -/
theorem exec_holding (h : Holding tr t n m s.vals) (ops : List (KeyedStore.Op tr.Value K)) :
    ∃ m', t.exec tr m ops = some (m', (s.exec ops).2) ∧ Holding tr t n m' (s.exec ops).1.vals := by
  induction ops generalizing m s with
  | nil => exact ⟨m, rfl, h⟩
  | cons op ops ih =>
      obtain ⟨m₁, hstep, h₁⟩ := step_holding hl hlaw h op
      obtain ⟨m₂, hexec, h₂⟩ := ih h₁
      refine ⟨m₂, ?_, h₂⟩
      rw [exec, hstep, Option.bind_eq_bind, Option.bind_some]
      simp only [hexec, Option.bind_eq_bind, Option.bind_some]
      rfl

/-! ## What a table shows

Everything that a client can ask for, of any table that holds the values of the store. -/

/-- A table and its memory are seen as a store. -/
structure Observed (tr : RegionTraits K) (t : RegionTable) (m : Mem) {cap : Nat}
    (s : KeyedStore tr.keyOfValue tr.keyEqual cap) : Prop where
  size : t.size m = s.vals.length
  maxSize : t.maxSize = cap
  find : ∀ k, (t.find tr m k).map (fun node => node.map (val tr m)) = some (s.lookup k)
  present : ∀ v, s.lookup (tr.keyOfValue v) ≠ none →
    ∃ node, t.find tr m (tr.keyOfValue v) = some (some node) ∧ t.insert tr m v = some (m, .done node false)
  full : ∀ v, s.lookup (tr.keyOfValue v) = none → t.size m = t.maxSize → t.insert tr m v = some (m, .badAlloc)
  walk : ∃ ws, t.walk tr m = some ws ∧ ws.Perm s.vals
  buckets : ∃ sizes : Nat → Nat, (∀ b < t.bucketCount m, t.bucketSize tr m b = some (sizes b)) ∧
    ((List.range (t.bucketCount m)).map sizes).sum = t.size m

/-- A table that holds the values shows what the store says. -/
theorem observed (h : Holding tr t n m s.vals) : Observed tr t m s where
  size := h.size
  maxSize := rfl
  find := by
    intro k
    rw [find_eq hlaw hl.pos h.stored h.toHeads h.room, lookup_eq h, Option.map_some, Option.map_map]
    rfl
  present := by
    intro v hv
    rw [lookup_eq h, ne_eq, Option.map_eq_none_iff] at hv
    obtain ⟨id, hid⟩ := Option.ne_none_iff_exists'.mp hv
    refine ⟨t.nodeAddr tr id, ?_, insert_present hl h hlaw hid⟩
    rw [find_eq hlaw hl.pos h.stored h.toHeads h.room, hid]
    rfl
  full := by
    intro v hv hfull
    rw [lookup_eq h, Option.map_eq_none_iff] at hv
    exact insert_full hl h hlaw hv (h.size.symm.trans hfull)
  walk := walk_perm hl.pos h.stored h.toHeads h.room
  buckets := by
    have hsmall := hl.small
    rw [h.toHeads.count]
    refine ⟨fun b => (chain tr n b s.vals).length, ?_, ?_⟩
    · intro b hb
      exact bucketSize_eq h.stored h.toHeads h.room (by omega) hb
    · rw [sum_chains hl.pos]
      exact h.size.symm

end Runs

/-- The calls on an empty store, with their answers. -/
def storeOf (tr : RegionTraits K) (cap : Nat) (ops : List (KeyedStore.Op tr.Value K)) :
    KeyedStore tr.keyOfValue tr.keyEqual cap × List (KeyedStore.Answer tr.Value) := KeyedStore.empty.exec ops

/-- **A table in a region is a bounded keyed store**, and so is a copy of the region. -/
theorem region_refines (hlaw : tr.Lawful) (htab : Tabled tr size) {r : Mem}
    (hc : create tr m data size = some (r, some t)) (hmax : 1 ≤ t.maxSize) (ops : List (KeyedStore.Op tr.Value K)) :
    ∃ r', t.exec tr r ops = some (r', (storeOf tr t.maxSize ops).2) ∧ Observed tr t r' (storeOf tr t.maxSize ops).1 ∧
      ∀ (data' : Int) (m' : Mem), data' % 16 = 0 → (∀ i : Nat, i < size → m' (data' + i) = r' (data + i)) →
        ∃ t', restore tr m' data' size = some t' ∧ Observed tr t' m' (storeOf tr t.maxSize ops).1 := by
  obtain ⟨rfl, hl, hholds⟩ := holding_of_create htab hc hmax
  obtain ⟨r', hexec, h⟩ : ∃ r', t.exec tr r ops = some (r', (storeOf tr t.maxSize ops).2) ∧
      Holding tr t _ r' (storeOf tr t.maxSize ops).1.vals := exec_holding hl hlaw hholds ops
  refine ⟨r', hexec, observed hl hlaw h, ?_⟩
  intro data' m' hal hcopy
  refine ⟨t.moved data' _, restore_copy hl h hal hcopy, ?_⟩
  exact observed (moved_layout hl hal) hlaw (copy_holding hl h hal hcopy)

/-- `PODPair<int, uint32_t>` with `std::hash<int>`. -/
def podPair : RegionTraits Int where
  valueSize := 8
  valueOffset := 4
  nodeSize := 12
  nodeAlign := 4
  hash k := (k % 2 ^ 64).toNat
  keyEqual j k := decide (j = k)
  keyOfValue v := int32OfBytes (v.1.take 4)
  next_before := by decide
  inside := by decide
  aligned := by decide

/-- `int`s are compared and hashed lawfully. -/
theorem podPair_lawful : podPair.Lawful where
  refl k := decide_eq_true rfl
  symm h := decide_eq_true (of_decide_eq_true h).symm
  trans h₁ h₂ := decide_eq_true ((of_decide_eq_true h₁).trans (of_decide_eq_true h₂))
  hash h := by rw [of_decide_eq_true h]

/-- A pair. -/
def pod (first : Int) (second : Nat) : podPair.Value :=
  ⟨int32Bytes first ++ toLe 4 second, by rw [List.length_append, int32Bytes_length, toLe_length]; rfl⟩

/-- A table in a region of 512 bytes: two inserts of one key, and a lookup of it and of another. -/
theorem region_refines_pod : ∃ r t r', create podPair (fun _ => 0) 0 512 = some (r, some t) ∧ 1 ≤ t.maxSize ∧
    t.exec podPair r [.insert (pod 1 2), .insert (pod 1 3), .find 1, .find 0] =
      some (r', [.inserted (pod 1 2) true, .inserted (pod 1 2) false, .found (some (pod 1 2)), .found none]) := by
  have htab : Tabled podPair 512 := ⟨by decide, by decide⟩
  obtain ⟨r, hc, -⟩ := create_holding htab (show (0 : Int) % 16 = 0 by decide) (by decide) (fun _ => 0)
  have hmax : 1 ≤ (created podPair 0 512 (bucketsOf podPair 512)).maxSize := by decide
  obtain ⟨r', hexec, -⟩ := region_refines podPair_lawful htab hc hmax [.insert (pod 1 2), .insert (pod 1 3), .find 1, .find 0]
  have hanswers : (storeOf podPair (created podPair 0 512 (bucketsOf podPair 512)).maxSize
      [.insert (pod 1 2), .insert (pod 1 3), .find 1, .find 0]).2 =
        [.inserted (pod 1 2) true, .inserted (pod 1 2) false, .found (some (pod 1 2)), .found none] := by decide +kernel
  rw [hanswers] at hexec
  exact ⟨r, _, r', hc, hmax, hexec⟩

/-- A region of 128 GiB: its table cannot be restored from a copy. -/
theorem large_region_not_restored : ∃ r t, create podPair (fun _ => 0) 0 (2 ^ 37) = some (r, some t) ∧ 1 ≤ t.maxSize ∧
    ∃ m' : Mem, (∀ i : Nat, i < 2 ^ 37 → m' (16 + i) = r (0 + i)) ∧ restore podPair m' 16 (2 ^ 37) = none := by
  have hnum : bucketsOf podPair (2 ^ 37) = 9817068105 := by decide +kernel
  have hroom : align (0 + 64 + 4 * bucketsOf podPair (2 ^ 37)) ≤ 0 + (2 ^ 37 : Nat) := by
    rw [hnum]
    decide
  obtain ⟨r, hc, hword⟩ := create_wraps (show (0 : Int) % 16 = 0 by decide) hroom (by rw [hnum]; decide) (fun _ => 0)
  refine ⟨r, _, hc, ?_, fun x => r (x - 16), ?_, ?_⟩
  · rw [hnum]
    decide +kernel
  · intro i hi
    exact congrArg r (by omega)
  · have hcopy : Mem.readWord (fun x => r (x - 16)) (16 + 12) 4 = r.readWord (0 + 12) 4 := by
      apply Mem.readWord_shift
      intro i hi
      exact congrArg r (by omega)
    -- the header's number of buckets is no prime of the table
    have habs : Mem.readWord (fun x => r (x - 16)) (16 + 12) 4 ∉ kPrimeList := by
      rw [hcopy, hword, hnum]
      decide
    unfold restore
    rw [if_neg (by decide)]
    exact if_pos (Or.inr (Or.inr habs))

end RegionTable
end Snippets
