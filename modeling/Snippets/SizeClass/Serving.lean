import Snippets.SizeClass.Lists
import Snippets.Lib.Thread

/-!
# `SizeClass.Serving` — what a client of the allocator may rely on

Every class has at most one page (`Serving`), whose blocks have been handed out one after another from the second one on, and
whose descriptor counts those that are live (`Home`). The pages are a `Pool` of the ids from 22 to 32: there are eleven
classes, and two sentinels for each. A page that is given back is chained at the bytes with the number of its id, which are
unused members of the first two sentinels.

So the promises (`Sound`) hold as long as no block is taken from a page with free blocks or with one block left, and no page
is given back while the link of one that is less than four ids away is stored (`Spared`).
-/

namespace Snippets

open Lib

namespace SizeClass

/-! ## Clients -/

/-- A block, with the size that was asked for and its class. -/
structure Block where
  offset : Int
  size : Nat
  cls : Nat
deriving DecidableEq

/-- How large the blocks of its class are. -/
def Block.bytes (b : Block) : Nat := 2 ^ (b.cls + 2)

structure Client where
  alloc : Allocator
  mem : Mem
  live : List Block

/-- A call with what it returned, or the block it is about. -/
inductive Call
  | allocate (sz : Nat) (res : Option Int)
  | deallocate (b : Block)

/-- The class of a request. -/
def classOf (sz : Nat) : Nat := (sizeClass (roundUpToPowerOfTwo sz)).getD 0

/-- The live blocks after a call of `Allocate`. -/
def grown (live : List Block) (sz : Nat) : Option Int → List Block
  | none => live
  | some offset => if offset = kInvalidOffset then live else ⟨offset, sz, classOf sz⟩ :: live

/-- The step relation: a client deallocates only blocks that are live. -/
def Step (s : Client) : Call → Client → Prop
  | .allocate sz res, t => sz ≤ kPageSize ∧ ∃ a m, s.alloc.allocate s.mem sz = some (a, m, res) ∧ t = ⟨a, m, grown s.live sz res⟩
  | .deallocate b, t => b ∈ s.live ∧ ∃ a m, s.alloc.deallocate s.mem b.offset = some (a, m) ∧ t = ⟨a, m, s.live.erase b⟩

/-- The links of the pages that were given back. -/
def pageLinks (a : PageAllocator) (m : Mem) (id : Int) : Int := m.readInt32 (a.start + id)

/-- The descriptor of the first page of a list. -/
def firstPage (a : PageAllocator) (m : Mem) (list : FreeList) : Page :=
  page m (a.address (page m (a.address list.nonempty)).next)

/-- The list is empty, or its first page has no free block and its next block is not the last one. -/
def HasRoom (a : PageAllocator) (m : Mem) (list : FreeList) : Prop :=
  dllEmpty m (a.address list.nonempty) = true ∨
    (firstPage a m list).freeList = kInvalidOffset ∧
      (firstPage a m list).free + 2 * (2 ^ list.powOfTwoSize : Nat) ≤ kPageSize

/-- When a call does what it should. The link of a block goes as far behind the start of its page as the block is behind the
    start of the heap. -/
def Spared (s : Client) : Call → Prop
  | .allocate sz _ => sz ≤ 4096 ∧ ∀ list, s.alloc.list[classOf sz]? = some list → HasRoom s.alloc.pages s.mem list
  | .deallocate b => b.offset / kPageSize * kPageSize + b.offset + 4 ≤ s.alloc.heap.size ∧
      ((page s.mem (s.alloc.pages.address (b.offset / kPageSize))).ref = 1 →
        ∀ ids, Thread (pageLinks s.alloc.pages s.mem) kInvalidPageID s.alloc.pages.freeList ids →
          ∀ id ∈ ids, id + 4 ≤ b.offset / kPageSize ∨ b.offset / kPageSize + 4 ≤ id)

instance (a : PageAllocator) (m : Mem) (list : FreeList) : Decidable (HasRoom a m list) := by
  unfold HasRoom
  infer_instance

instance (s : Client) (sz : Nat) (res : Option Int) : Decidable (Spared s (.allocate sz res)) :=
  inferInstanceAs (Decidable (sz ≤ 4096 ∧ ∀ list ∈ s.alloc.list[classOf sz]?, HasRoom s.alloc.pages s.mem list))

/-- As long as no page was given back, there is no link to overwrite. -/
theorem spared_deallocate {s : Client} {b : Block}
    (hin : b.offset / kPageSize * kPageSize + b.offset + 4 ≤ s.alloc.heap.size)
    (hnone : s.alloc.pages.freeList = kInvalidPageID) : Spared s (.deallocate b) := by
  refine ⟨hin, fun _ ids hids id hid => ?_⟩
  rw [hnone] at hids
  cases ids with
  | nil => cases hid
  | cons i rest => exact absurd hids.1.symm hids.2.1

/-- What a client relies on in a state. -/
structure Sound (s : Client) : Prop where
  inside : ∀ b ∈ s.live, 0 ≤ b.offset ∧ b.size ≤ b.bytes ∧ b.offset % kPageSize + b.bytes ≤ kPageSize ∧
    b.offset / kPageSize < s.alloc.heap.max
  apart : s.live.Pairwise fun b c : Block => b.offset + b.bytes ≤ c.offset ∨ c.offset + c.bytes ≤ b.offset
  page : ∀ b ∈ s.live, ∃ p, s.alloc.pages.findPage (b.offset / kPageSize) = some p ∧ (page s.mem p).status = inUse ∧
    (page s.mem p).powOfTwoSize = b.cls + 2
  allocate : ∀ sz, Spared s (.allocate sz none) → ∃ res t, Step s (.allocate sz res) t
  deallocate : ∀ b ∈ s.live, Spared s (.deallocate b) → ∃ t, Step s (.deallocate b) t

/-! ## The invariant -/

/-- What stays as it is in a run. -/
structure Region (a : Allocator) : Prop where
  lists : a.list = (List.range 11).map listOf
  size : 924 ≤ a.pages.size
  heap : a.pages.start + 924 ≤ a.heap.start
  max : 33 ≤ a.pages.max
  range : InRange a.pages.max
  pages : 33 ≤ a.heap.max

/-- Whether a block is in a page. -/
def inPage (P : Nat) (b : Block) : Bool := b.offset / kPageSize = P

/-- The page of a class, after `k` blocks have been taken from it. -/
structure Home (m : Mem) (p : Int) (live : List Block) (c P k : Nat) : Prop where
  status : (page m p).status = inUse
  powOfTwoSize : (page m p).powOfTwoSize = c + 2
  id : (page m p).id = P
  next : (page m p).next = (2 * c + 1 : Nat)
  prev : (page m p).prev = (2 * c + 1 : Nat)
  free : (page m p).free = (k * 2 ^ (c + 2) : Nat)
  ref : (page m p).ref = live.countP (inPage P)
  ref_le : (page m p).ref ≤ k
  room : (k + 1) * 2 ^ (c + 2) ≤ kPageSize
  offsets : ∀ b ∈ live, b.offset / kPageSize = P → ∃ i, 1 ≤ i ∧ i ≤ k ∧ b.offset = (P * kPageSize + i * 2 ^ (c + 2) : Nat)

/-- **The allocator's invariant**: the pages of the classes, and the ids of the pages that were given back. -/
structure Serving (s : Client) (pairs : List (Nat × Nat)) (spare : List Nat) : Prop where
  region : Region s.alloc
  next : 0 ≤ s.alloc.pages.next
  pool : Pool.Within ⟨s.alloc.pages.next.toNat, spare, pairs.map Prod.snd⟩ 22 33
  thread : Thread (pageLinks s.alloc.pages s.mem) kInvalidPageID s.alloc.pages.freeList (spare.map (fun i : Nat => (i : Int)))
  spread : spare.Pairwise fun i j => i + 4 ≤ j ∨ j + 4 ≤ i
  keys : (pairs.map Prod.fst).Nodup
  class_lt : ∀ c ∈ pairs.map Prod.fst, c < 11
  idle : ∀ c < 11, c ∉ pairs.map Prod.fst → Sentinel s.alloc.pages s.mem c (2 * c + 1 : Nat)
  linked : ∀ c P, (c, P) ∈ pairs → Sentinel s.alloc.pages s.mem c P
  home : ∀ c P, (c, P) ∈ pairs → ∃ k, Home s.mem (s.alloc.pages.address P) s.live c P k
  blocks : ∀ b ∈ s.live, b.size ≤ b.bytes ∧ ∃ P, (b.cls, P) ∈ pairs ∧ b.offset / kPageSize = P
  distinct : (s.live.map Block.offset).Nodup

variable {s t : Client} {call : Call} {pairs : List (Nat × Nat)} {spare : List Nat} {m m' : Mem} {lo hi p : Int}
  {live : List Block} {c P k i : Nat} {a : PageAllocator}

theorem Serving.page_range (h : Serving s pairs spare) (hP : (c, P) ∈ pairs) : 22 ≤ P ∧ P < 33 :=
  h.pool.mem_live (List.mem_map_of_mem hP)

theorem Serving.page_lt_next (h : Serving s pairs spare) (hP : (c, P) ∈ pairs) : (P : Int) < s.alloc.pages.next := by
  have hmem := h.pool.mem_iff.mp (Or.inr (List.mem_map_of_mem hP))
  have hlt : P < s.alloc.pages.next.toNat := hmem.2
  omega

theorem Serving.next_ge (h : Serving s pairs spare) : 22 ≤ s.alloc.pages.next := by
  have hlo : 22 ≤ s.alloc.pages.next.toNat := h.pool.lo_le
  omega

theorem Serving.class_range (h : Serving s pairs spare) (hP : (c, P) ∈ pairs) : c < 11 :=
  h.class_lt c (List.mem_map_of_mem hP)

/-- A page belongs to one class. -/
theorem Serving.class_eq (h : Serving s pairs spare) {d : Nat} (hc : (c, P) ∈ pairs) (hd : (d, P) ∈ pairs) : c = d := by
  have hnd : (pairs.map Prod.snd).Nodup := h.pool.nodup_live
  exact congrArg Prod.fst (List.inj_on_of_nodup_map hnd hc hd rfl)

/-- A live block is one of its page's. -/
theorem Serving.block_eq (h : Serving s pairs spare) {b : Block} (hb : b ∈ s.live) :
    ∃ P k i, (b.cls, P) ∈ pairs ∧ b.offset / kPageSize = P ∧ Home s.mem (s.alloc.pages.address P) s.live b.cls P k ∧
      1 ≤ i ∧ i ≤ k ∧ b.offset = (P * kPageSize + i * 2 ^ (b.cls + 2) : Nat) := by
  obtain ⟨-, P, hP, hpage⟩ := h.blocks b hb
  obtain ⟨k, hk⟩ := h.home _ _ hP
  obtain ⟨i, h₁, h₂, h₃⟩ := hk.offsets b hb hpage
  exact ⟨P, k, i, hP, hpage, hk, h₁, h₂, h₃⟩

/-! ## What the invariant promises -/

/-- Multiples of a block are a block apart. -/
theorem multiples_apart (n : Nat) {i j : Nat} (hij : i ≠ j) : i * n + n ≤ j * n ∨ j * n + n ≤ i * n := by
  rcases Nat.lt_or_gt_of_ne hij with h | h
  · left
    have hle := Nat.mul_le_mul_right n h
    rw [Nat.succ_mul] at hle
    exact hle
  · right
    have hle := Nat.mul_le_mul_right n h
    rw [Nat.succ_mul] at hle
    exact hle

/-- A block ends in its page. -/
theorem Home.block_end (h : Home m p live c P k) (hik : i ≤ k) : i * 2 ^ (c + 2) + 2 ^ (c + 2) ≤ kPageSize := by
  have hle := Nat.mul_le_mul_right (2 ^ (c + 2)) (Nat.succ_le_succ hik)
  rw [Nat.succ_mul] at hle
  exact hle.trans h.room

theorem Serving.apart_of_ne (h : Serving s pairs spare) {b d : Block} (hb : b ∈ s.live) (hd : d ∈ s.live)
    (hne : b.offset ≠ d.offset) : b.offset + b.bytes ≤ d.offset ∨ d.offset + d.bytes ≤ b.offset := by
  obtain ⟨P, k, i, hP, hbp, hk, hi₁, hi₂, hbo⟩ := h.block_eq hb
  obtain ⟨Q, l, j, hQ, hdq, hl, hj₁, hj₂, hdo⟩ := h.block_eq hd
  have hbe := hk.block_end hi₂
  have hde := hl.block_end hj₂
  unfold Block.bytes
  by_cases hPQ : P = Q
  · subst hPQ
    have hcls : b.cls = d.cls := h.class_eq hP hQ
    rw [hcls] at hbo hbe ⊢
    have hij : i ≠ j := by
      rintro rfl
      exact hne (hbo.trans hdo.symm)
    have hap := multiples_apart (2 ^ (d.cls + 2)) hij
    rw [hbo, hdo]
    omega
  · -- blocks of different pages
    unfold kPageSize at hbo hdo hbe hde
    rw [hbo, hdo]
    rcases Nat.lt_or_gt_of_ne hPQ with hlt | hlt
    · left
      omega
    · right
      omega

/-- Two live blocks do not overlap. -/
theorem Serving.pairwise_apart (h : Serving s pairs spare) :
    s.live.Pairwise fun b c : Block => b.offset + b.bytes ≤ c.offset ∨ c.offset + c.bytes ≤ b.offset := by
  have hne : s.live.Pairwise fun b c : Block => b.offset ≠ c.offset := List.pairwise_map.mp h.distinct
  exact hne.imp_of_mem fun hb hc hbc => h.apart_of_ne hb hc hbc

theorem Serving.block_inside (h : Serving s pairs spare) {b : Block} (hb : b ∈ s.live) :
    0 ≤ b.offset ∧ b.size ≤ b.bytes ∧ b.offset % kPageSize + b.bytes ≤ kPageSize ∧
      b.offset / kPageSize < s.alloc.heap.max := by
  obtain ⟨P, k, i, hP, hbp, hk, hi₁, hi₂, hbo⟩ := h.block_eq hb
  have hbe := hk.block_end hi₂
  have hrange := h.page_range hP
  have hheap := h.region.pages
  have hpos : 0 < 2 ^ (b.cls + 2) := Nat.pow_pos (by decide)
  refine ⟨by omega, (h.blocks b hb).1, ?_, by omega⟩
  unfold Block.bytes
  unfold kPageSize at hbo hbe ⊢
  omega

theorem Serving.block_page (h : Serving s pairs spare) {b : Block} (hb : b ∈ s.live) :
    ∃ p, s.alloc.pages.findPage (b.offset / kPageSize) = some p ∧ (page s.mem p).status = inUse ∧
      (page s.mem p).powOfTwoSize = b.cls + 2 := by
  obtain ⟨P, k, i, hP, hbp, hk, -⟩ := h.block_eq hb
  rw [hbp]
  exact ⟨_, findPage_eq (h.page_lt_next hP), hk.status, hk.powOfTwoSize⟩

end SizeClass
end Snippets
