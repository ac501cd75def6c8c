import Snippets.RegionAllocator.Model
import Snippets.RegionTable.Region
import Snippets.Lib.Pool
import Snippets.Lib.Thread

/-!
# `RegionAllocator.Soundness` — what a client of the allocator may rely on

The allocator is a `Pool` of the ids from 1 to `max_size()`: its header counts the ids handed out and those that are live, and
its free list is a thread through the link cells (`Holding`). The link cell of a node is not in the node but in the next one,
or behind the last one. So the promises (`Sound`) hold as long as no node is given back while the next one is live or while
there is no room for the link, and nobody stores into a node while the link of the node before is in it (`Spared`).
-/

namespace Snippets

open Lib

namespace RegionAllocator

open RegionTable (checkAligned alignTo le_alignTo allocatorMagic)

variable (T : ElementLayout) (a : RegionAllocator)

/-- Where a node is. -/
def nodeAddr (id : Nat) : Int := a.start + T.size * (id - 1 : Nat)

/-- Where the link of a free node is. -/
def linkAddr (id : Nat) : Int := a.start + T.size * id

/-- The link cell of an id. -/
def links (m : Mem) (id : Nat) : Nat := m.readWord (a.linkAddr T id) 4

/-- What the allocator may write to. -/
def Owned (data : Int) (size : Nat) (x : Int) : Prop := data ≤ x ∧ x < data + size ∨ a.header ≤ x ∧ x < a.header + 24

/-- When a call does what it should. -/
def Spared (stop : Int) (s : Client) : Call → Prop
  | .allocate _ => ¬ (s.live.length = a.maxNodeId ∧ a.maxNodeId = 2 ^ 32 - 1)
  | .deallocate id => id + 1 ∉ s.live ∧ a.linkAddr T id + 4 ≤ stop
  | .clear => True
  | .write id _ => id - 1 ∉ s.freed

/-- What a client relies on in a call. -/
structure StepSound (data : Int) (size : Nat) (s : Client) (call : Call) (t : Client) : Prop where
  fresh : ∀ id, call = .allocate (some id) → id ∉ s.live ∧ 1 ≤ id ∧ id ≤ a.maxSize
  full : ∀ res, call = .allocate res → (res = none ↔ a.size s.mem = a.maxSize)
  nodes : (∀ id bytes, call ≠ .write id bytes) → ∀ id ∈ s.live, id ∈ t.live →
    t.mem.read (a.nodeAddr T id) T.size = s.mem.read (a.nodeAddr T id) T.size
  region : (∀ id bytes, call ≠ .write id bytes) → ∀ x, ¬ a.Owned data size x → t.mem x = s.mem x

/-- What a client relies on in a state. -/
structure Sound (data : Int) (size : Nat) (s : Client) : Prop where
  size_eq : a.size s.mem = s.live.length
  allocate : a.Spared T (data + size) s (.allocate none) → ∃ res t, a.Step T s (.allocate res) t
  deallocate : ∀ id ∈ s.live, a.Spared T (data + size) s (.deallocate id) → ∃ t, a.Step T s (.deallocate id) t
  steps : ∀ call t, a.Step T s call t → a.Spared T (data + size) s call → a.StepSound T data size s call t

/-- What `Create` lays out. -/
structure Layout (data : Int) (size : Nat) : Prop where
  first : data ≤ a.start
  last : a.start + T.size * a.maxNodeId ≤ data + size
  header : a.header + 24 ≤ a.start ∨ data + size ≤ a.header
  small : a.maxNodeId < 2 ^ 32
  nonempty : 1 ≤ a.maxNodeId

/-- **The allocator's invariant.** -/
structure Holding (stop : Int) (s : Client) : Prop where
  pool : ∃ next, Pool.Within ⟨next, s.freed, s.live⟩ 1 (a.maxNodeId + 1) ∧ s.mem.readWord (a.header + 16) 4 = next % 2 ^ 32
  size : s.mem.readWord (a.header + 8) 4 = s.live.length
  thread : Thread (a.links T s.mem) 0 (s.mem.readWord (a.header + 20) 4) s.freed
  inside : ∀ id ∈ s.freed, a.linkAddr T id + 4 ≤ stop

variable {T a} {m m' : Mem} {data stop : Int} {size id : Nat} {s t : Client} {call : Call}

/-! ## Addresses

Where the header, the nodes and the link cells are. Link cells lie where the source puts them, which is not
always inside the node they belong to. -/

/-- Distinct cells of a table are a cell apart. -/
theorem cells_apart (r : Nat) {i j : Nat} (hij : i ≠ j) : (r : Int) * i + r ≤ r * j ∨ (r : Int) * j + r ≤ r * i := by
  rcases Nat.lt_or_gt_of_ne hij with h | h
  · left
    have hle := Nat.mul_le_mul_left r h
    rw [Nat.mul_succ] at hle
    exact_mod_cast hle
  · right
    have hle := Nat.mul_le_mul_left r h
    rw [Nat.mul_succ] at hle
    exact_mod_cast hle

/-- A node ends before the region does. -/
theorem Layout.node_last (hl : Layout T a data size) (hpos : 1 ≤ id) (hle : id ≤ a.maxNodeId) :
    a.nodeAddr T id + T.size ≤ data + size := by
  have hmul := Nat.mul_le_mul_left T.size hle
  have hlast := hl.last
  have hsub : T.size * (id - 1) + T.size = T.size * id := by
    rw [← Nat.mul_succ]
    congr 1
    omega
  unfold nodeAddr
  push_cast [← hsub] at hmul ⊢
  have hmul' : (T.size : Int) * (id - 1 : Nat) + T.size ≤ T.size * a.maxNodeId := by exact_mod_cast hmul
  omega

/-- The nodes begin at the start, -/
theorem start_le_nodeAddr (T : ElementLayout) (a : RegionAllocator) (id : Nat) : a.start ≤ a.nodeAddr T id := by
  unfold nodeAddr
  exact Int.le_add_of_nonneg_right (by positivity)

/-- and so do the link cells. -/
theorem start_le_linkAddr (T : ElementLayout) (a : RegionAllocator) (id : Nat) : a.start ≤ a.linkAddr T id := by
  unfold linkAddr
  exact Int.le_add_of_nonneg_right (by positivity)

/-- A link cell is outside every node but the next one. -/
theorem link_node_apart {j : Nat} (hpos : 1 ≤ j) (hne : j ≠ id + 1) :
    a.linkAddr T id + 4 ≤ a.nodeAddr T j ∨ a.nodeAddr T j + T.size ≤ a.linkAddr T id := by
  have hsize := T.holds_id
  have hap := cells_apart T.size (show id ≠ j - 1 by omega)
  unfold linkAddr nodeAddr
  omega

/-- Two link cells do not overlap. -/
theorem link_link_apart {i j : Nat} (hne : i ≠ j) :
    a.linkAddr T i + 4 ≤ a.linkAddr T j ∨ a.linkAddr T j + 4 ≤ a.linkAddr T i := by
  have hsize := T.holds_id
  have hap := cells_apart T.size hne
  unfold linkAddr
  omega

/-! ## What the calls write

The two counters and the head of the free list are in the header, and `Deallocate` writes one link cell. -/

/-- `get` of a valid id is the address of its node, -/
theorem get_eq (hpos : 1 ≤ id) (hle : id ≤ a.maxNodeId) : a.get T id = some (a.nodeAddr T id) := by
  unfold get
  rw [if_neg (by omega)]
  rfl

/-- and the pointer to its link is the link cell. -/
theorem nodeIdPtr_eq (hpos : 1 ≤ id) (hle : id ≤ a.maxNodeId) : a.nodeIdPtr T id = some (a.linkAddr T id) := by
  unfold nodeIdPtr
  rw [if_neg (by omega)]
  rfl

/-- The words of the header, after writes to it. -/
theorem clear_outside {x : Int} (hx : x < a.header ∨ a.header + 24 ≤ x) : a.clear m x = m x := by
  unfold clear
  rw [Mem.writeWord_outside (by omega), Mem.writeWord_outside (by omega), Mem.writeWord_outside (by omega)]

/-- `Allocate` writes into the header only. -/
theorem allocate_outside {res : Option Nat} (ha : a.allocate T m = some (m', res)) {x : Int}
    (hx : x < a.header ∨ a.header + 24 ≤ x) : m' x = m x := by
  dsimp only [allocate] at ha
  split at ha
  · obtain ⟨p, -, hp⟩ := Option.bind_eq_some_iff.mp ha
    obtain ⟨rfl, -⟩ := Prod.mk.inj (Option.some.inj hp)
    rw [Mem.writeWord_outside (by omega), Mem.writeWord_outside (by omega)]
  · split at ha
    · obtain ⟨rfl, -⟩ := Prod.mk.inj (Option.some.inj ha)
      rfl
    · obtain ⟨rfl, -⟩ := Prod.mk.inj (Option.some.inj ha)
      rw [Mem.writeWord_outside (by omega), Mem.writeWord_outside (by omega)]

/-- A link cell of a node that is not the one freed, or any byte of no link cell and not of the header. -/
theorem deallocate_outside (hd : a.deallocate T m id = some m') {x : Int} (hx : x < a.header ∨ a.header + 24 ≤ x)
    (hlink : x < a.linkAddr T id ∨ a.linkAddr T id + 4 ≤ x) : m' x = m x := by
  obtain ⟨p, hp, hm⟩ := Option.bind_eq_some_iff.mp hd
  have hpe : p = a.linkAddr T id := by
    unfold nodeIdPtr at hp
    split at hp
    · cases hp
    · exact (Option.some.inj hp).symm
  obtain rfl := Option.some.inj hm
  rw [Mem.writeWord_outside (by omega), Mem.writeWord_outside (by omega), Mem.writeWord_outside (by omega)]

/-! ## The invariant

The pool of ids, the thread of the free ones through their link cells, and the two counters. It is kept when no
live node overlaps a link cell that is written, which `Spared` says. -/

/-- The invariant is about the header and the link cells of the free nodes. -/
theorem Holding.congr (h : Holding T a stop s) {m' : Mem}
    (hhead : ∀ x, a.header ≤ x → x < a.header + 24 → m' x = s.mem x)
    (hlinks : ∀ id ∈ s.freed, ∀ x, a.linkAddr T id ≤ x → x < a.linkAddr T id + 4 → m' x = s.mem x) :
    Holding T a stop { s with mem := m' } := by
  have hword : ∀ k n : Nat, k + n ≤ 24 → m'.readWord (a.header + k) n = s.mem.readWord (a.header + k) n := by
    intro k n hk
    apply Mem.readWord_shift
    intro i hi
    exact hhead _ (by omega) (by omega)
  have h16 := hword 16 4 (by omega)
  have h8 := hword 8 4 (by omega)
  have h20 := hword 20 4 (by omega)
  push_cast at h16 h8 h20
  obtain ⟨next, hpool, hnext⟩ := h.pool
  refine ⟨⟨next, hpool, ?_⟩, ?_, ?_, h.inside⟩
  · rw [h16]
    exact hnext
  · rw [h8]
    exact h.size
  · rw [h20]
    apply h.thread.congr
    intro id hid
    unfold links
    apply Mem.readWord_shift
    intro i hi
    exact hlinks id hid _ (by omega) (by omega)

/-- A link cell misses the header. -/
theorem Layout.link_header (hl : Layout T a data size) (hin : a.linkAddr T id + 4 ≤ data + size) :
    a.header + 24 ≤ a.linkAddr T id ∨ a.linkAddr T id + 4 ≤ a.header := by
  have hstart := start_le_linkAddr T a id
  have hhead := hl.header
  omega

/-- A node misses the header. -/
theorem Layout.node_header (hl : Layout T a data size) (hpos : 1 ≤ id) (hle : id ≤ a.maxNodeId) :
    a.header + 24 ≤ a.nodeAddr T id ∨ a.nodeAddr T id + T.size ≤ a.header := by
  have hstart := start_le_nodeAddr T a id
  have hlast := hl.node_last hpos hle
  have hhead := hl.header
  omega

section Steps

variable (hl : Layout T a data size) (h : Holding T a (data + size) s)

include hl h

omit hl in
/-- A live id is valid, -/
theorem Holding.live_range (hid : id ∈ s.live) : 1 ≤ id ∧ id ≤ a.maxNodeId := by
  obtain ⟨next, hpool, -⟩ := h.pool
  have hmem := hpool.mem_live hid
  omega

omit hl in
/-- and there are no more than `max_size()`. -/
theorem Holding.live_le : s.live.length ≤ a.maxNodeId := by
  obtain ⟨next, hpool, -⟩ := h.pool
  exact hpool.length_le

/-- `Allocate` when there is a free node. -/
theorem Holding.allocate_pop {i : Nat} {is : List Nat} (hfreed : s.freed = i :: is) :
    ∃ m', a.allocate T s.mem = some (m', some i) ∧ Holding T a (data + size) ⟨m', is, i :: s.live⟩ := by
  obtain ⟨next, hpool, hnext⟩ := h.pool
  have hthread := h.thread
  rw [hfreed] at hthread hpool
  obtain ⟨hhead, hne, hrest⟩ := hthread
  have hi := hpool.mem_free List.mem_cons_self
  have hsmall := hl.small
  have hmem : i ∈ s.freed := by
    rw [hfreed]
    exact List.mem_cons_self
  have hlen : (i :: s.live).length ≤ a.maxNodeId + 1 - 1 := (hpool.pop rfl).length_le
  rw [List.length_cons] at hlen
  refine ⟨(s.mem.writeWord (a.header + 20) 4 (s.mem.readWord (a.linkAddr T i) 4)).writeWord (a.header + 8) 4
    (s.live.length + 1), ?_, ⟨next, hpool.pop rfl, ?_⟩, ?_, ?_, ?_⟩
  · dsimp only [allocate]
    rw [hhead, if_pos hne, nodeIdPtr_eq hi.1 (by omega), h.size]
    rfl
  · rw [Mem.readWord_writeWord_disjoint (by omega), Mem.readWord_writeWord_disjoint (by omega)]
    exact hnext
  · rw [Mem.readWord_writeWord_self, List.length_cons, Nat.mod_eq_of_lt (by omega)]
  · rw [Mem.readWord_writeWord_disjoint (by omega), Mem.readWord_writeWord_self,
      Nat.mod_eq_of_lt (Mem.readWord_lt _ _ _)]
    -- the rest of the thread is not in the header
    apply hrest.congr
    intro j hj
    have hjin := hl.link_header (h.inside j (by rw [hfreed]; exact List.mem_cons_of_mem _ hj))
    unfold links
    rw [Mem.readWord_writeWord_disjoint (by omega), Mem.readWord_writeWord_disjoint (by omega)]
  · intro j hj
    exact h.inside j (by rw [hfreed]; exact List.mem_cons_of_mem _ hj)

/-- `Allocate` when no node is free: a new one, or `bad_alloc`. -/
theorem Holding.allocate_new (hfreed : s.freed = []) (hroom : s.live.length ≠ a.maxNodeId) :
    ∃ m', a.allocate T s.mem = some (m', some (s.live.length + 1)) ∧
      Holding T a (data + size) ⟨m', [], (s.live.length + 1) :: s.live⟩ := by
  obtain ⟨next, hpool, hnext⟩ := h.pool
  have hthread := h.thread
  rw [hfreed] at hthread
  have hnil : s.mem.readWord (a.header + 20) 4 = 0 := hthread
  have hle := h.live_le
  have hsmall := hl.small
  have hnew : next = 1 + s.live.length := hpool.next_eq hfreed
  have hfree : s.mem.readWord (a.header + 16) 4 = s.live.length + 1 := by
    rw [hnext, Nat.mod_eq_of_lt (by omega)]
    omega
  have hpool' := hpool.bump hfreed (show next < a.maxNodeId + 1 by omega)
  simp only [show next = s.live.length + 1 by omega] at hpool'
  refine ⟨(s.mem.writeWord (a.header + 16) 4 (s.live.length + 1 + 1)).writeWord (a.header + 8) 4 (s.live.length + 1), ?_,
    ⟨_, hpool', ?_⟩, ?_, ?_, ?_⟩
  · dsimp only [allocate]
    rw [hnil, if_neg (by decide), hfree, if_neg (by omega), h.size]
  · rw [Mem.readWord_writeWord_disjoint (by omega), Mem.readWord_writeWord_self]
    norm_num
  · rw [Mem.readWord_writeWord_self, List.length_cons, Nat.mod_eq_of_lt (by omega)]
  · rw [Mem.readWord_writeWord_disjoint (by omega), Mem.readWord_writeWord_disjoint (by omega)]
    exact hnil
  · intro j hj
    cases hj

/-- A full pool gives nothing, unless its size is the one whose successor wraps. -/
theorem Holding.allocate_full (hlive : s.live.length = a.maxNodeId) (hspare : a.maxNodeId ≠ 2 ^ 32 - 1) :
    a.allocate T s.mem = some (s.mem, none) := by
  obtain ⟨next, hpool, hnext⟩ := h.pool
  have hsmall := hl.small
  have hlen := hpool.length
  have hlo := hpool.lo_le
  have hhi := hpool.le_hi
  have hfreed : s.freed = [] := by
    apply List.eq_nil_of_length_eq_zero
    simp only at hlen hlo hhi
    omega
  have hthread := h.thread
  rw [hfreed] at hthread
  have hnil : s.mem.readWord (a.header + 20) 4 = 0 := hthread
  have hnew : next = 1 + s.live.length := hpool.next_eq hfreed
  dsimp only [allocate]
  rw [hnil, if_neg (by decide), hnext, Nat.mod_eq_of_lt (by omega), if_pos (by omega)]

/-- **`Allocate`** fails when every node is live, and hands out one that is not otherwise. -/
theorem Holding.allocate_cases (hspare : ¬ (s.live.length = a.maxNodeId ∧ a.maxNodeId = 2 ^ 32 - 1)) :
    (s.live.length = a.maxNodeId ∧ a.allocate T s.mem = some (s.mem, none)) ∨
      (s.live.length ≠ a.maxNodeId ∧ ∃ m' id, a.allocate T s.mem = some (m', some id) ∧ id ∉ s.live ∧ 1 ≤ id ∧
        id ≤ a.maxNodeId ∧ Holding T a (data + size) ⟨m', s.freed.erase id, id :: s.live⟩) := by
  obtain ⟨next, hpool, -⟩ := h.pool
  cases hfreed : s.freed with
  | cons i is =>
      obtain ⟨m', halloc, hpop⟩ := h.allocate_pop hl hfreed
      have hi : i ∈ s.freed := by
        rw [hfreed]
        exact List.mem_cons_self
      have hrange := hpool.mem_free hi
      have hle := hpop.live_le
      rw [List.length_cons] at hle
      refine Or.inr ⟨by omega, m', i, halloc, hpool.not_live_of_free hi, hrange.1, by omega, ?_⟩
      rw [List.erase_cons_head]
      exact hpop
  | nil =>
      by_cases hfull : s.live.length = a.maxNodeId
      · exact Or.inl ⟨hfull, h.allocate_full hl hfull fun heq => hspare ⟨hfull, heq⟩⟩
      · obtain ⟨m', halloc, hnew⟩ := h.allocate_new hl hfreed hfull
        have hle := h.live_le
        have hnext : next = 1 + s.live.length := hpool.next_eq hfreed
        have hnot : next ∉ s.live := hpool.next_not_live
        rw [hnext, Nat.add_comm] at hnot
        exact Or.inr ⟨hfull, m', s.live.length + 1, halloc, hnot, by omega, by omega, hnew⟩

/-- `Deallocate` of a live node whose link cell is in the region. -/
theorem Holding.deallocate (hid : id ∈ s.live) (hin : a.linkAddr T id + 4 ≤ data + size) :
    ∃ m', a.deallocate T s.mem id = some m' ∧ Holding T a (data + size) ⟨m', id :: s.freed, s.live.erase id⟩ := by
  obtain ⟨next, hpool, hnext⟩ := h.pool
  obtain ⟨hpos, hle⟩ := h.live_range hid
  have hlive := h.live_le
  have hsmall := hl.small
  have hhead := hl.link_header hin
  have hlen : 0 < s.live.length := List.length_pos_of_mem hid
  have hnot : id ∉ s.freed := fun hfreed => hpool.not_live_of_free hfreed hid
  refine ⟨((s.mem.writeWord (a.linkAddr T id) 4 (s.mem.readWord (a.header + 20) 4)).writeWord (a.header + 20) 4 id).writeWord
    (a.header + 8) 4 (s.live.length + (2 ^ 32 - 1)), ?_, ⟨next, hpool.give hid, ?_⟩, ?_, ?_, ?_⟩
  · unfold RegionAllocator.deallocate
    rw [nodeIdPtr_eq hpos hle]
    simp only [Option.bind_eq_bind, Option.bind_some, Option.pure_def]
    rw [Mem.readWord_writeWord_disjoint (by omega), Mem.readWord_writeWord_disjoint (by omega), h.size]
  · rw [Mem.readWord_writeWord_disjoint (by omega), Mem.readWord_writeWord_disjoint (by omega),
      Mem.readWord_writeWord_disjoint (by omega)]
    exact hnext
  · rw [Mem.readWord_writeWord_self, List.length_erase_of_mem hid]
    norm_num
    omega
  · rw [Mem.readWord_writeWord_disjoint (by omega), Mem.readWord_writeWord_self, Nat.mod_eq_of_lt (by omega)]
    refine ⟨rfl, by omega, ?_⟩
    -- the link of the new head is the old head
    have hself : a.links T (((s.mem.writeWord (a.linkAddr T id) 4 (s.mem.readWord (a.header + 20) 4)).writeWord
        (a.header + 20) 4 id).writeWord (a.header + 8) 4 (s.live.length + (2 ^ 32 - 1))) id =
        s.mem.readWord (a.header + 20) 4 := by
      unfold links
      rw [Mem.readWord_writeWord_disjoint (by omega), Mem.readWord_writeWord_disjoint (by omega),
        Mem.readWord_writeWord_self, Nat.mod_eq_of_lt (Mem.readWord_lt _ _ _)]
    rw [hself]
    apply h.thread.congr
    intro j hj
    have hjhead := hl.link_header (h.inside j hj)
    have hne : j ≠ id := by
      rintro rfl
      exact hnot hj
    have hap := link_link_apart (T := T) (a := a) hne
    unfold links
    rw [Mem.readWord_writeWord_disjoint (by omega), Mem.readWord_writeWord_disjoint (by omega),
      Mem.readWord_writeWord_disjoint (by omega)]
  · intro j hj
    rcases List.mem_cons.mp hj with rfl | hj
    · exact hin
    · exact h.inside j hj

omit h in
/-- `clear` makes all ids new. -/
theorem holding_clear : Holding T a (data + size) ⟨a.clear s.mem, [], []⟩ := by
  have hone := hl.nonempty
  refine ⟨⟨1, Pool.within_new (by omega), ?_⟩, ?_, ?_, ?_⟩
  · unfold clear
    rw [Mem.readWord_writeWord_disjoint (by omega), Mem.readWord_writeWord_self, Nat.min_eq_right hone]
    norm_num
  · unfold clear
    rw [Mem.readWord_writeWord_disjoint (by omega), Mem.readWord_writeWord_disjoint (by omega),
      Mem.readWord_writeWord_self]
    rfl
  · unfold clear
    rw [Mem.readWord_writeWord_self]
    rfl
  · intro j hj
    cases hj

/-- A store into a live node misses the links. -/
theorem Holding.write {bytes : List UInt8} (hid : id ∈ s.live) (hlen : bytes.length = T.size) (hfreed : id - 1 ∉ s.freed) :
    Holding T a (data + size) { s with mem := s.mem.write (a.nodeAddr T id) bytes } := by
  obtain ⟨hpos, hle⟩ := h.live_range hid
  have hhead := hl.node_header hpos hle
  apply h.congr
  · intro x hx₁ hx₂
    exact Mem.write_outside (by rw [hlen]; omega)
  · intro j hj x hx₁ hx₂
    have hne : id ≠ j + 1 := by
      rintro rfl
      exact hfreed hj
    have hap := link_node_apart (T := T) (a := a) hpos hne
    exact Mem.write_outside (by rw [hlen]; omega)

/-- **Every call keeps the invariant.** -/
theorem Holding.step (hst : a.Step T s call t) (hspare : a.Spared T (data + size) s call) : Holding T a (data + size) t := by
  cases call with
  | allocate res =>
      rcases h.allocate_cases hl hspare with ⟨-, halloc⟩ | ⟨-, m', id, halloc, -, -, -, hnew⟩
      · cases res with
        | none =>
            obtain ⟨m, hrun, rfl⟩ := hst
            rw [halloc] at hrun
            obtain ⟨rfl, -⟩ := Prod.mk.inj (Option.some.inj hrun)
            exact h
        | some id =>
            obtain ⟨m, hrun, -⟩ := hst
            rw [halloc] at hrun
            cases hrun
      · cases res with
        | none =>
            obtain ⟨m, hrun, -⟩ := hst
            rw [halloc] at hrun
            cases hrun
        | some id =>
            obtain ⟨m, hrun, rfl⟩ := hst
            rw [halloc] at hrun
            obtain ⟨rfl, hid⟩ := Prod.mk.inj (Option.some.inj hrun)
            obtain rfl := Option.some.inj hid
            exact hnew
  | deallocate id =>
      obtain ⟨hid, m, hrun, rfl⟩ := hst
      obtain ⟨m', hdealloc, hgive⟩ := h.deallocate hl hid hspare.2
      rw [hdealloc] at hrun
      obtain rfl := Option.some.inj hrun
      exact hgive
  | clear =>
      obtain rfl := hst
      exact holding_clear hl
  -- the client writes into a live node that has no link cell of a free id in it
  | write id bytes =>
      obtain ⟨hid, hlen, p, hp, rfl⟩ := hst
      obtain ⟨hpos, hle⟩ := h.live_range hid
      rw [get_eq hpos hle] at hp
      obtain rfl := Option.some.inj hp
      exact h.write hl hid hlen hspare

/-- No assert fails in a call. -/
theorem Holding.allocate_step (hspare : ¬ (s.live.length = a.maxNodeId ∧ a.maxNodeId = 2 ^ 32 - 1)) :
    ∃ res t, a.Step T s (.allocate res) t := by
  rcases h.allocate_cases hl hspare with ⟨-, halloc⟩ | ⟨-, m', id, halloc, -⟩
  · exact ⟨none, _, s.mem, halloc, rfl⟩
  · exact ⟨some id, _, m', halloc, rfl⟩

/-- The bytes of a node that stays live. -/
theorem Holding.node_eq {j : Nat} (hst : a.Step T s call t) (hspare : a.Spared T (data + size) s call)
    (hcall : ∀ id bytes, call ≠ .write id bytes) (hj : j ∈ s.live) (hj' : j ∈ t.live) :
    t.mem.read (a.nodeAddr T j) T.size = s.mem.read (a.nodeAddr T j) T.size := by
  obtain ⟨hpos, hle⟩ := h.live_range hj
  have hhead := hl.node_header hpos hle
  apply Mem.read_congr
  intro i hi
  cases call with
  | allocate res =>
      cases res with
      | none =>
          obtain ⟨m, hrun, rfl⟩ := hst
          exact allocate_outside hrun (by omega)
      | some id =>
          obtain ⟨m, hrun, rfl⟩ := hst
          exact allocate_outside hrun (by omega)
  -- the link cell written does not overlap the node
  | deallocate id =>
      obtain ⟨-, m, hrun, rfl⟩ := hst
      have hne : j ≠ id + 1 := by
        rintro rfl
        exact hspare.1 hj
      have hap := link_node_apart (T := T) (a := a) hpos hne
      exact deallocate_outside hrun (by omega) (by omega)
  | clear =>
      obtain rfl := hst
      cases hj'
  | write id bytes => exact absurd rfl (hcall id bytes)

omit h in
/-- The bytes that are not the allocator's. -/
theorem Layout.region_eq (hst : a.Step T s call t) (hspare : a.Spared T (data + size) s call)
    (hcall : ∀ id bytes, call ≠ .write id bytes) {x : Int} (hx : ¬ a.Owned data size x) : t.mem x = s.mem x := by
  unfold Owned at hx
  have hout : x < a.header ∨ a.header + 24 ≤ x := by omega
  cases call with
  | allocate res =>
      cases res with
      | none =>
          obtain ⟨m, hrun, rfl⟩ := hst
          exact allocate_outside hrun hout
      | some id =>
          obtain ⟨m, hrun, rfl⟩ := hst
          exact allocate_outside hrun hout
  | deallocate id =>
      obtain ⟨-, m, hrun, rfl⟩ := hst
      have hstart := start_le_linkAddr T a id
      have hfirst := hl.first
      have hlast := hspare.2
      exact deallocate_outside hrun hout (by omega)
  | clear =>
      obtain rfl := hst
      exact clear_outside hout
  | write id bytes => exact absurd rfl (hcall id bytes)

/-- What one call promises. -/
theorem Holding.stepSound (hst : a.Step T s call t) (hspare : a.Spared T (data + size) s call) :
    a.StepSound T data size s call t := by
  have hsize : a.size s.mem = s.live.length := h.size
  refine ⟨?_, ?_, fun hcall id hid hid' => h.node_eq hl hst hspare hcall hid hid',
    fun hcall x hx => hl.region_eq hst hspare hcall hx⟩
  · rintro id rfl
    obtain ⟨m, hrun, -⟩ := hst
    rcases h.allocate_cases hl hspare with ⟨-, halloc⟩ | ⟨-, m', j, halloc, hnot, hpos, hle, -⟩
    · rw [halloc] at hrun
      cases hrun
    · rw [halloc] at hrun
      obtain rfl := Option.some.inj (Prod.mk.inj (Option.some.inj hrun)).2
      exact ⟨hnot, hpos, hle⟩
  · rintro res rfl
    rw [hsize]
    rcases h.allocate_cases hl hspare with ⟨hfull, halloc⟩ | ⟨hroom, m', j, halloc, -⟩
    · refine iff_of_true ?_ hfull
      cases res with
      | none => rfl
      | some id =>
          obtain ⟨m, hrun, -⟩ := hst
          rw [halloc] at hrun
          cases hrun
    · refine iff_of_false ?_ hroom
      rintro rfl
      obtain ⟨m, hrun, -⟩ := hst
      rw [halloc] at hrun
      cases hrun

/-- What a state promises. -/
theorem Holding.sound : a.Sound T data size s := by
  refine ⟨h.size, ?_, ?_, fun call t hst hspare => h.stepSound hl hst hspare⟩
  · exact h.allocate_step hl
  · intro id hid hspare
    obtain ⟨m', hdealloc, -⟩ := h.deallocate hl hid hspare.2
    exact ⟨_, hid, m', hdealloc, rfl⟩

end Steps

/-! ## From `Create` on

A created allocator holds no ids, and the layout is what `Create` computed. -/

/-- A new header: nothing is handed out. -/
theorem holding_new (hl : Layout T a data size) (m : Mem) :
    Holding T a (data + size) ⟨((((m.writeWord a.header 8 allocatorMagic).writeWord (a.header + 8) 4 0).writeWord
      (a.header + 12) 4 T.size).writeWord (a.header + 20) 4 0).writeWord (a.header + 16) 4 (min a.maxNodeId 1), [], []⟩ := by
  have hone := hl.nonempty
  refine ⟨⟨1, Pool.within_new (by omega), ?_⟩, ?_, ?_, ?_⟩
  · rw [Mem.readWord_writeWord_self, Nat.min_eq_right hone]
    norm_num
  · rw [Mem.readWord_writeWord_disjoint (by omega), Mem.readWord_writeWord_disjoint (by omega),
      Mem.readWord_writeWord_disjoint (by omega), Mem.readWord_writeWord_self]
    rfl
  · rw [Mem.readWord_writeWord_disjoint (by omega), Mem.readWord_writeWord_self]
    rfl
  · intro j hj
    cases hj

/-- What `Create` computes, when it succeeds. -/
theorem create_eq {m₀ m : Mem} {header : Option Int} (hc : create T m data size header = (m₀, some a)) :
    a.header = header.getD data ∧ a.start = alignTo T.align (if header.isNone then data + 24 else data) ∧
      (a.start - data).toNat ≤ size ∧ a.maxNodeId = (data + size - a.start).toNat / T.size % 2 ^ 32 ∧
      m₀ = ((((m.writeWord a.header 8 allocatorMagic).writeWord (a.header + 8) 4 0).writeWord (a.header + 12) 4
        T.size).writeWord (a.header + 20) 4 0).writeWord (a.header + 16) 4 (min a.maxNodeId 1) := by
  dsimp only [create] at hc
  generalize (if header.isNone = true then data + 24 else data) = p at hc ⊢
  by_cases haligned : checkAligned data = true
  · rw [if_neg (not_not.mpr haligned)] at hc
    by_cases hsize : size < (alignTo T.align p - data).toNat
    · rw [if_pos hsize] at hc
      cases hc
    · rw [if_neg hsize] at hc
      obtain ⟨hm, ha⟩ := Prod.mk.inj hc
      obtain rfl := Option.some.inj ha
      exact ⟨rfl, rfl, Nat.le_of_not_lt hsize, rfl, hm.symm⟩
  · rw [if_pos haligned] at hc
    cases hc

/-- `Create` lays the nodes out behind the header, if that is in the region, and all of them are free. -/
theorem holding_create {m₀ m : Mem} {header : Option Int} (hc : create T m data size header = (m₀, some a))
    (hheader : ∀ h, header = some h → h + 24 ≤ data ∨ data + size ≤ h) (hmax : 1 ≤ a.maxSize) :
    Layout T a data size ∧ Holding T a (data + size) ⟨m₀, [], []⟩ := by
  have hpos : 0 < T.align := Nat.pos_of_dvd_of_pos T.aligned (by decide)
  obtain ⟨hhead, hstart, hsize, hmaxId, hm⟩ := create_eq hc
  have hle := le_alignTo hpos (if header.isNone = true then data + 24 else data)
  rw [← hstart] at hle
  have hfirst : data ≤ a.start := by
    split at hle <;> omega
  have hcells : T.size * a.maxNodeId ≤ (data + size - a.start).toNat := by
    rw [hmaxId]
    exact (Nat.mul_le_mul_left _ (Nat.mod_le _ _)).trans (Nat.mul_div_le _ _)
  have hl : Layout T a data size := by
    refine ⟨hfirst, ?_, ?_, ?_, hmax⟩
    · have hcells' : (T.size : Int) * a.maxNodeId ≤ ((data + size - a.start).toNat : Int) := by exact_mod_cast hcells
      omega
    · cases header with
      | none =>
          have hle' : data + 24 ≤ a.start := hle
          rw [hhead]
          exact Or.inl hle'
      | some h =>
          have hout := hheader h rfl
          rw [hhead, Option.getD_some]
          omega
    · rw [hmaxId]
      exact Nat.mod_lt _ (by decide)
  rw [hm]
  exact ⟨hl, holding_new hl m⟩

/-- **The free list is sound** in every run whose calls are all `Spared`. -/
theorem sound_of_run {m₀ m : Mem} {header : Option Int} (hc : create T m data size header = (m₀, some a))
    (hheader : ∀ h, header = some h → h + 24 ≤ data ∨ data + size ≤ h) (hmax : 1 ≤ a.maxSize) {calls : List Call}
    (hrun : Run (fun s call t => a.Step T s call t ∧ a.Spared T (data + size) s call) ⟨m₀, [], []⟩ calls s) :
    a.Sound T data size s := by
  obtain ⟨hl, h₀⟩ := holding_create hc hheader hmax
  have h : Holding T a (data + size) s :=
    Run.invariant (I := Holding T a (data + size)) (fun _ _ _ h hst => h.step hl hst.1 hst.2) hrun h₀
  exact h.sound hl

/-- A word holds an id, -/
theorem word_holds_id : 4 ≤ 4 := Nat.le_refl 4

/-- and sixteen is a multiple of its size. -/
theorem word_aligned : 4 ∣ 16 := by decide

/-- Words of 32 bits. -/
def word : ElementLayout := ⟨4, 4, word_holds_id, word_aligned⟩

/-- The memory of a region of 36 bytes, with its header in it and room for three words. -/
def memThree : Mem := (create word (fun _ => 0) 0 36 none).1

/-- Three words behind a header. -/
def three : RegionAllocator := ⟨0, 24, 3⟩

/-- `Create` over 36 bytes makes it. -/
theorem create_three : create word (fun _ => 0) 0 36 none = (memThree, some three) := Prod.ext rfl (by decide +kernel)

/-- The memory after one `Allocate`. -/
def memOne : Mem := ((three.allocate word memThree).getD (memThree, none)).1

/-- The memory after the second `Allocate`. -/
def memTwo : Mem := ((three.allocate word memOne).getD (memOne, none)).1

/-- A result known by its second part. -/
theorem eq_some_getD {α β : Type} {x : Option (α × β)} {r : β} (d : α × β) (h : x.map Prod.snd = some r) :
    x = some ((x.getD d).1, r) := by
  obtain ⟨y, rfl, rfl⟩ := Option.map_eq_some_iff.mp h
  rfl

/-- The first call on it, -/
theorem step_one : three.Step word ⟨memThree, [], []⟩ (.allocate (some 1)) ⟨memOne, [], [1]⟩ :=
  ⟨memOne, eq_some_getD _ (by decide +kernel), rfl⟩

/-- and the second. -/
theorem step_two : three.Step word ⟨memOne, [], [1]⟩ (.allocate (some 2)) ⟨memTwo, [], [2, 1]⟩ :=
  ⟨memTwo, eq_some_getD _ (by decide +kernel), rfl⟩

/-- Node 2 is given back while no node behind it is in use, and got and written again. -/
theorem sound_of_run_again : ∃ m, Run (fun s call t => three.Step word s call t ∧ three.Spared word 36 s call)
    ⟨memThree, [], []⟩ [.allocate (some 1), .allocate (some 2), .deallocate 2, .allocate (some 2), .write 2 [1, 1, 1, 1]]
      ⟨m, [], [2, 1]⟩ ∧ three.Sound word 0 36 ⟨m, [], [2, 1]⟩ := by
  have hc : (three.deallocate word memTwo 2).bind (fun m => (three.allocate word m).map Prod.snd) = some (some 2) := by
    decide +kernel
  simp only [Option.bind_eq_some_iff, Option.map_eq_some_iff] at hc
  obtain ⟨m₁, hback, ⟨m₂, id⟩, hgot, rfl⟩ := hc
  have hgive : three.Step word ⟨memTwo, [], [2, 1]⟩ (.deallocate 2) ⟨m₁, [2], [1]⟩ := ⟨by decide, m₁, hback, rfl⟩
  have hget : three.Step word ⟨m₁, [2], [1]⟩ (.allocate (some 2)) ⟨m₂, [], [2, 1]⟩ := ⟨m₂, hgot, rfl⟩
  have hwrite : three.Step word ⟨m₂, [], [2, 1]⟩ (.write 2 [1, 1, 1, 1]) ⟨m₂.write 28 [1, 1, 1, 1], [], [2, 1]⟩ :=
    ⟨List.mem_cons_self, rfl, 28, rfl, rfl⟩
  -- fewer than `2 ^ 32 - 1` nodes
  have hspared : ∀ (s : Client) (res : Option Nat), three.Spared word 36 s (.allocate res) := fun s res hfull =>
    absurd hfull.2 (by decide)
  have hrun : Run (fun s call t => three.Step word s call t ∧ three.Spared word 36 s call) ⟨memThree, [], []⟩
      [.allocate (some 1), .allocate (some 2), .deallocate 2, .allocate (some 2), .write 2 [1, 1, 1, 1]]
      ⟨m₂.write 28 [1, 1, 1, 1], [], [2, 1]⟩ :=
    ((((Run.single ⟨step_one, hspared _ _⟩).tail ⟨step_two, hspared _ _⟩).tail ⟨hgive, by decide, by decide⟩).tail
      ⟨hget, hspared _ _⟩).tail ⟨hwrite, List.not_mem_nil⟩
  exact ⟨_, hrun, sound_of_run create_three (fun _ h => nomatch h) (by decide) hrun⟩

/-- **The link of a freed node is written over the next one**, which is live. -/
theorem link_overwrites_live : create word (fun _ => 0) 0 36 none = (memThree, some three) ∧
    ∃ calls s t, Run (three.Step word) ⟨memThree, [], []⟩ calls s ∧ three.Step word s (.deallocate 1) t ∧ 2 ∈ s.live ∧
      2 ∈ t.live ∧ t.mem.read (three.nodeAddr word 2) 4 ≠ s.mem.read (three.nodeAddr word 2) 4 := by
  refine ⟨create_three, [.allocate (some 1), .allocate (some 2), .write 2 [1, 1, 1, 1]],
    ⟨memTwo.write 28 [1, 1, 1, 1], [], [2, 1]⟩, ?_⟩
  have hwrite : three.Step word ⟨memTwo, [], [2, 1]⟩ (.write 2 [1, 1, 1, 1])
      ⟨memTwo.write 28 [1, 1, 1, 1], [], [2, 1]⟩ := ⟨by decide, rfl, 28, rfl, rfl⟩
  have hrun : Run (three.Step word) ⟨memThree, [], []⟩ [.allocate (some 1), .allocate (some 2), .write 2 [1, 1, 1, 1]]
      ⟨memTwo.write 28 [1, 1, 1, 1], [], [2, 1]⟩ :=
    Run.trans (Run.single step_one) (Run.trans (Run.single step_two) (Run.single hwrite))
  have hread : (three.deallocate word (memTwo.write 28 [1, 1, 1, 1]) 1).map (fun m => m.read 28 4) =
      some [0, 0, 0, 0] := by decide +kernel
  obtain ⟨m, hm, hzero⟩ := Option.map_eq_some_iff.mp hread
  refine ⟨⟨m, [1], [2]⟩, hrun, ⟨by decide, m, hm, rfl⟩, by decide, List.mem_cons_self, ?_⟩
  have hone : (memTwo.write 28 [1, 1, 1, 1]).read 28 4 = [1, 1, 1, 1] := by decide +kernel
  show m.read 28 4 ≠ (memTwo.write 28 [1, 1, 1, 1]).read 28 4
  rw [hzero, hone]
  decide

end RegionAllocator
end Snippets
