import Snippets.MemoryList.Restore

/-!
# `MemoryList.SameLength` — a buffer restored at its own length

Slices are named by ids and never by addresses, so the allocator over a copy of the buffer is a twin of the one it was copied
from: the same header, links that are alike, the same payloads. `Twin` is that relation. It is kept by every call, also by a
`FreeSlice` that no client should make, and twins return the same (`Twin.exec`).
-/

namespace Snippets

open Lib Links

namespace MemoryList

variable {ml ml' ml₁ ml₁' : MemoryList} {s : Client} {start len sliceSize : Nat} {i id : SliceId}

/-! ## The same results

What a copy has to show: after the same calls the same results, and the same bytes of the client in the slices. -/

/-- A call of the allocator. -/
inductive Op
  | getSlice
  | freeSlice (id : SliceId)
  | clear

/-- Calls in order, with the ids that `GetSlice` returned; no result where an assert fails. -/
def exec : MemoryList → List Op → Option (MemoryList × List SliceId)
  | ml, [] => some (ml, [])
  | ml, .getSlice :: ops => ml.getSlice.bind fun r => (exec r.1 ops).map fun t => (t.1, r.2 :: t.2)
  | ml, .freeSlice id :: ops => (ml.freeSlice id).bind fun ml => exec ml ops
  | ml, .clear :: ops => ml.clear.bind fun ml => exec ml ops

/-- `capacity()`, `size()`, `full()` and the payloads are the same. -/
structure SameSlices (ml ml' : MemoryList) : Prop where
  capacity : ml'.capacity = ml.capacity
  size : ml'.size = ml.size
  full : ml'.full = ml.full
  payload : ∀ i : SliceId, 0 ≤ i → i < ml.capacity → ∀ off < ml.header.sliceSize,
    ml'.mem (ml'.payload i off) = ml.mem (ml.payload i off)

/-- **`RestoreFrom` gives the state back**: it succeeds, and the restored allocator shows the same and returns the same, now
    and after any further calls. -/
def RestoresAs (ml : MemoryList) (start len sliceSize : Nat) (mem : Mem) : Prop :=
  ∃ ml', restoreFrom start len sliceSize ml.header mem = some ml' ∧
    ∀ ops, Option.Rel (fun r r' => r'.2 = r.2 ∧ SameSlices r.1 r'.1) (exec ml ops) (exec ml' ops)

/-! ## Twins

Two states with the same header, links that are alike and the same payloads, wherever their buffers are. Each
step of a call is taken in both at once. -/

/-- The ids of slices. -/
def IsId (ml : MemoryList) (i : SliceId) : Prop := 0 ≤ i ∧ i < ml.capacity

/-- Two allocators with the same slices in the same lists, at addresses of their own. -/
structure Twin (ml ml' : MemoryList) : Prop where
  fits : Fits ml
  fits' : Fits ml'
  real : ml.sliceRealSize = kSliceHeadSize + ml.header.sliceSize
  sliceRealSize : ml'.sliceRealSize = ml.sliceRealSize
  sliceSize : ml'.header.sliceSize = ml.header.sliceSize
  capacity : ml'.capacity = ml.capacity
  size : ml'.header.size = ml.header.size
  free : ml'.header.free = ml.header.free
  used : ml'.header.used = ml.header.used
  free_valid : ValidId ml ml.header.free
  used_valid : ValidId ml ml.header.used
  links : Alike kInvalidSliceId (IsId ml) ml.heads ml'.heads
  payload : ∀ i : SliceId, 0 ≤ i → i < ml.capacity → ∀ off < ml.header.sliceSize,
    ml'.mem (ml'.payload i off) = ml.mem (ml.payload i off)

namespace Twin

/-- Twins show the same slices, -/
theorem same (h : Twin ml ml') : SameSlices ml ml' := by
  refine ⟨h.capacity, h.size, ?_, h.payload⟩
  unfold full
  rw [h.size, h.capacity]

/-- and the same ids are valid. -/
theorem valid (h : Twin ml ml') : ValidId ml' id ↔ ValidId ml id := by
  unfold ValidId
  rw [h.capacity]

/-- What both do to their heads and lists alike leaves them twins. -/
theorem framed (h : Twin ml ml') (hf : Frame ml ml₁) (hf' : Frame ml' ml₁') (hsize : ml₁'.header.size = ml₁.header.size)
    (hfree : ml₁'.header.free = ml₁.header.free) (hused : ml₁'.header.used = ml₁.header.used)
    (hvalidFree : ValidId ml ml₁.header.free) (hvalidUsed : ValidId ml ml₁.header.used)
    (hlinks : Alike kInvalidSliceId (IsId ml) ml₁.heads ml₁'.heads) : Twin ml₁ ml₁' := by
  have hreal' : ml'.sliceRealSize = kSliceHeadSize + ml'.header.sliceSize := by rw [h.sliceRealSize, h.real, h.sliceSize]
  have hid : IsId ml₁ = IsId ml := by
    unfold IsId
    rw [hf.capacity]
  refine ⟨hf.fits h.fits, hf'.fits h.fits', ?_, ?_, ?_, ?_, hsize, hfree, hused, hf.validId.mpr hvalidFree,
    hf.validId.mpr hvalidUsed, ?_, ?_⟩
  · rw [hf.sliceRealSize, hf.sliceSize, h.real]
  · rw [hf'.sliceRealSize, hf.sliceRealSize, h.sliceRealSize]
  · rw [hf'.sliceSize, hf.sliceSize, h.sliceSize]
  · rw [hf'.capacity, hf.capacity, h.capacity]
  · rw [hid]
    exact hlinks
  · intro i h₀ h₁ off hoff
    rw [hf.capacity] at h₁
    rw [hf.sliceSize] at hoff
    have haddr : ml₁.payload i off = ml.payload i off := by
      unfold MemoryList.payload
      rw [hf.buf, hf.sliceRealSize]
    have haddr' : ml₁'.payload i off = ml'.payload i off := by
      unfold MemoryList.payload
      rw [hf'.buf, hf'.sliceRealSize]
    rw [haddr, haddr', hf.outside _ (payload_not_inHead h.real hoff),
      hf'.outside _ (payload_not_inHead hreal' (by rw [h.sliceSize]; exact hoff))]
    exact h.payload i h₀ h₁ off hoff

section Slice

variable {a a' : Nat} (h : Twin ml ml') (hi : IsId ml i) (ha : (a : Int) = ml.buf + ml.sliceRealSize * i)
  (ha' : (a' : Int) = ml'.buf + ml'.sliceRealSize * i)
include h hi ha ha'

/-- Taking the head of the free list, -/
theorem takeFree : ∃ ml₁ ml₁', ml.takeFree a = some ml₁ ∧ ml'.takeFree a' = some ml₁' ∧ Frame ml ml₁ ∧ Frame ml' ml₁' ∧
    Twin ml₁ ml₁' := by
  have hnext := h.links.next i hi
  have hvalid : ValidId ml (ml.heads.next i) := h.links.next_mem i hi
  obtain ⟨ml₁, htake, hf, hheader, hheads⟩ := takeFree_eq h.fits ha rfl hvalid
  obtain ⟨ml₁', htake', hf', hheader', hheads'⟩ := takeFree_eq h.fits' ha' hnext (h.valid.mpr hvalid)
  refine ⟨ml₁, ml₁', htake, htake', hf, hf', h.framed hf hf' ?_ ?_ ?_ ?_ ?_ ?_⟩
  · rw [hheader, hheader']
    exact h.size
  · rw [hheader, hheader']
  · rw [hheader, hheader']
    exact h.used
  · rw [hheader]
    exact hvalid
  · rw [hheader]
    exact h.used_valid
  · rw [hheads, hheads']
    exact h.links.popFront hi

/-- putting a slice into the used list, -/
theorem putUsed : ∃ ml₁ ml₁', ml.putUsed a i = some ml₁ ∧ ml'.putUsed a' i = some ml₁' ∧ Twin ml₁ ml₁' := by
  have hi' : i < ml'.capacity := by
    rw [h.capacity]
    exact hi.2
  have hvalid' : ValidId ml' ml'.header.used := by
    rw [h.used]
    exact h.valid.mpr h.used_valid
  obtain ⟨ml₁, hput, hf, hheader, hheads⟩ := putUsed_eq h.fits hi.1 hi.2 ha h.used_valid
  obtain ⟨ml₁', hput', hf', hheader', hheads'⟩ := putUsed_eq h.fits' hi.1 hi' ha' hvalid'
  refine ⟨ml₁, ml₁', hput, hput', h.framed hf hf' ?_ ?_ ?_ ?_ ?_ ?_⟩
  · rw [hheader, hheader']
    exact h.size
  · rw [hheader, hheader']
    exact h.free
  · rw [hheader, hheader']
  · rw [hheader]
    exact h.free_valid
  · rw [hheader]
    exact Or.inr hi
  · rw [hheads, hheads', h.used]
    exact h.links.pushFront hi h.used_valid

/-- and into the free list. -/
theorem putFree : ∃ ml₁ ml₁', ml.putFree a i = some ml₁ ∧ ml'.putFree a' i = some ml₁' ∧ Twin ml₁ ml₁' := by
  have hi' : i < ml'.capacity := by
    rw [h.capacity]
    exact hi.2
  have hvalid' : ValidId ml' ml'.header.free := by
    rw [h.free]
    exact h.valid.mpr h.free_valid
  obtain ⟨ml₁, hput, hf, hheader, hheads⟩ := putFree_eq h.fits hi.1 hi.2 ha h.free_valid
  obtain ⟨ml₁', hput', hf', hheader', hheads'⟩ := putFree_eq h.fits' hi.1 hi' ha' hvalid'
  refine ⟨ml₁, ml₁', hput, hput', h.framed hf hf' ?_ ?_ ?_ ?_ ?_ ?_⟩
  · rw [hheader, hheader']
    exact h.size
  · rw [hheader, hheader']
  · rw [hheader, hheader']
    exact h.used
  · rw [hheader]
    exact Or.inr hi
  · rw [hheader]
    exact h.used_valid
  · rw [hheads, hheads', h.free]
    exact h.links.pushFront hi h.free_valid

/-- Both unlink, and both or none pass the assert on the head of the used list. -/
theorem dropUsed : Option.Rel (fun t t' => Frame ml t ∧ Frame ml' t' ∧ Twin t t') (ml.dropUsed a i) (ml'.dropUsed a' i) := by
  have hprev := h.links.prev i hi
  have hnext := h.links.next i hi
  have hvalidPrev : ValidId ml (ml.heads.prev i) := h.links.prev_mem i hi
  have hvalidNext : ValidId ml (ml.heads.next i) := h.links.next_mem i hi
  obtain ⟨q, hq, hqn⟩ := getSliceById_valid h.fits hvalidPrev
  obtain ⟨o, ho, -⟩ := getSliceById_valid h.fits hvalidNext
  obtain ⟨q', hq', hqn'⟩ := getSliceById_valid h.fits' (h.valid.mpr hvalidPrev)
  obtain ⟨o', ho', -⟩ := getSliceById_valid h.fits' (h.valid.mpr hvalidNext)
  -- the links after the removal, in the one state and in the other
  have e := unlinkSlice_edit h.fits ha rfl rfl hvalidPrev hvalidNext hq ho
  have e' := unlinkSlice_edit h.fits' ha' hprev hnext (h.valid.mpr hvalidPrev) (h.valid.mpr hvalidNext) hq' ho'
  have hdrop : ml.dropUsed a i = (ml.unlinkSlice a q o).advanceUsed a q i := by
    unfold MemoryList.dropUsed
    rw [slicePrev_eq ha, sliceNext_eq ha, hq, ho]
  have hdrop' : ml'.dropUsed a' i = (ml'.unlinkSlice a' q' o').advanceUsed a' q' i := by
    unfold MemoryList.dropUsed
    rw [slicePrev_eq ha', sliceNext_eq ha', hprev, hnext, hq', ho']
  rw [hdrop, hdrop']
  generalize ml.unlinkSlice a q o = ml₁ at e
  generalize ml'.unlinkSlice a' q' o' = ml₁' at e'
  have hlinks : Alike kInvalidSliceId (IsId ml) ml₁.heads ml₁'.heads := by
    rw [e.heads, e'.heads]
    exact h.links.unlink hi
  -- so the two are twins once more
  have htwin : Twin ml₁ ml₁' := by
    refine h.framed e.frame e'.frame ?_ ?_ ?_ ?_ ?_ hlinks
    · rw [e.header, e'.header]
      exact h.size
    · rw [e.header, e'.header]
      exact h.free
    · rw [e.header, e'.header]
      exact h.used
    · rw [e.header]
      exact h.free_valid
    · rw [e.header]
      exact h.used_valid
  have hna : ml₁.sliceNext a = ml₁.heads.next i := sliceNext_eq (by rw [e.frame.buf, e.frame.sliceRealSize]; exact ha)
  have hna' : ml₁'.sliceNext a' = ml₁.heads.next i := by
    rw [sliceNext_eq (by rw [e'.frame.buf, e'.frame.sliceRealSize]; exact ha')]
    exact hlinks.next i hi
  unfold advanceUsed
  rw [htwin.used, hna, hna']
  -- the head of the used list moves on when it was the slice
  by_cases hu : ml₁.header.used = i
  · rw [if_pos hu, if_pos hu]
    by_cases hp : ml.heads.prev i = kInvalidSliceId
    · rw [if_pos (hqn.mpr hp), if_pos (hqn'.mpr hp)]
      have hvalid : ValidId ml (ml₁.heads.next i) := hlinks.next_mem i hi
      refine .some ⟨e.frame.trans (Frame.setUsed _), e'.frame.trans (Frame.setUsed _), ?_⟩
      exact htwin.framed (Frame.setUsed _) (Frame.setUsed _) htwin.size htwin.free rfl htwin.free_valid
        (e.frame.validId.mpr hvalid) htwin.links
    · rw [if_neg (mt hqn.mp hp), if_neg (mt hqn'.mp hp)]
      exact .none
  · rw [if_neg hu, if_neg hu]
    exact .some ⟨e.frame, e'.frame, htwin⟩

end Slice

/-! ## Calls

A call makes the same tests on both and takes the same steps. -/

/-- The count is set in both. -/
theorem setSize (h : Twin ml ml') (n : Int) : Twin (ml.setSize n) (ml'.setSize n) :=
  h.framed (Frame.setSize n) (Frame.setSize n) rfl h.free h.used h.free_valid h.used_valid h.links

/-- `GetSlice` returns the same id. -/
theorem getSlice (h : Twin ml ml') :
    ∃ ml₁ ml₁' r, ml.getSlice = some (ml₁, r) ∧ ml'.getSlice = some (ml₁', r) ∧ Twin ml₁ ml₁' := by
  unfold MemoryList.getSlice
  rw [h.free]
  by_cases hnone : ml.header.free = kInvalidSliceId
  · rw [if_pos hnone, if_pos hnone]
    exact ⟨ml, ml', kInvalidSliceId, rfl, rfl, h⟩
  · have hi : IsId ml ml.header.free := h.free_valid.resolve_left hnone
    have hi' : ml.header.free < ml'.capacity := by
      rw [h.capacity]
      exact hi.2
    obtain ⟨a, hget, ha⟩ := getSliceById_eq h.fits hi.1 hi.2
    obtain ⟨a', hget', ha'⟩ := getSliceById_eq h.fits' hi.1 hi'
    obtain ⟨ml₁, ml₁', htake, htake', hf, hf', h₁⟩ := h.takeFree hi ha ha'
    have hi₁ : IsId ml₁ ml.header.free := ⟨hi.1, by rw [hf.capacity]; exact hi.2⟩
    obtain ⟨ml₂, ml₂', hput, hput', h₂⟩ := h₁.putUsed hi₁ (by rw [hf.buf, hf.sliceRealSize]; exact ha)
      (by rw [hf'.buf, hf'.sliceRealSize]; exact ha')
    refine ⟨ml₂.setSize (ml₂.header.size + 1), ml₂'.setSize (ml₂'.header.size + 1), ml.header.free, ?_, ?_, ?_⟩
    · simp only [hnone, if_false, hget, htake, hput, Option.bind_some, Option.map_some]
    · simp only [hnone, if_false, hget', htake', hput', Option.bind_some, Option.map_some]
    · rw [h₂.size]
      exact h₂.setSize _

/-- `FreeSlice` of any id. -/
theorem freeSlice (h : Twin ml ml') (id : SliceId) : Option.Rel Twin (ml.freeSlice id) (ml'.freeSlice id) := by
  have hsmall := h.fits.small
  have hcap : toInt32 (ml.capacity : Int) = ml.capacity := toInt32_of_range (by omega) (by omega)
  unfold MemoryList.freeSlice
  rw [h.capacity, hcap]
  by_cases hnone : id = kInvalidSliceId
  · rw [if_pos hnone, if_pos hnone]
    exact .some h
  · rw [if_neg hnone, if_neg hnone]
    by_cases hid : id ≥ 0 ∧ id < (ml.capacity : Int)
    · rw [if_pos hid, if_pos hid]
      have hi : IsId ml id := hid
      obtain ⟨a, hget, ha⟩ := getSliceById_eq h.fits hi.1 hi.2
      obtain ⟨a', hget', ha'⟩ := getSliceById_eq h.fits' hi.1 (by rw [h.capacity]; exact hi.2)
      simp only [hget, hget']
      have hdrop := h.dropUsed hi ha ha'
      revert hdrop
      generalize ml.dropUsed a id = x
      generalize ml'.dropUsed a' id = y
      intro hdrop
      cases hdrop with
      | none => exact .none
      | @some ml₁ ml₁' hdrop =>
          obtain ⟨hf, hf', h₁⟩ := hdrop
          have hi₁ : IsId ml₁ id := ⟨hi.1, by rw [hf.capacity]; exact hi.2⟩
          obtain ⟨ml₂, ml₂', hput, hput', h₂⟩ := h₁.putFree hi₁ (by rw [hf.buf, hf.sliceRealSize]; exact ha)
            (by rw [hf'.buf, hf'.sliceRealSize]; exact ha')
          simp only [Option.bind_some, hput, hput', Option.map_some]
          rw [h₂.size]
          exact .some (h₂.setSize _)
    · rw [if_neg hid, if_neg hid]
      exact .none

/-- `clear` makes the same lists of both. -/
theorem clear (h : Twin ml ml') : ∃ ml₁ ml₁', ml.clear = some ml₁ ∧ ml'.clear = some ml₁' ∧ Twin ml₁ ml₁' := by
  obtain ⟨ml₁, hclear, hf, hp⟩ := clear_eq h.fits
  obtain ⟨ml₁', hclear', hf', hp'⟩ := clear_eq h.fits'
  rw [h.capacity] at hp'
  have hhead : ml₁'.header.free = ml₁.header.free := hp'.free.head_eq.trans hp.free.head_eq.symm
  have hchain := hp'.free
  rw [hhead] at hchain
  have hid : ∀ i, IsId ml i → i ∈ ids ml.capacity := fun i hi => mem_ids.mpr hi
  have hval : ∀ {i}, i ∈ ids ml.capacity → IsId ml i := fun hi => mem_ids.mp hi
  refine ⟨ml₁, ml₁', hclear, hclear', h.framed hf hf' ?_ hhead ?_ ?_ ?_ ?_⟩
  · exact hp'.size.trans hp.size.symm
  · exact hp'.used.head_eq.trans hp.used.head_eq.symm
  · rcases Partition.head_valid hp.free with hnone | hmem
    · exact Or.inl hnone
    · exact Or.inr (hval hmem)
  · exact Or.inl hp.used
  · refine ⟨fun i hi => (hp.free.links_eq hchain i (hid i hi)).1, fun i hi => (hp.free.links_eq hchain i (hid i hi)).2,
      fun i hi => ?_, fun i hi => ?_⟩
    · exact (hp.free.next_mem (hid i hi)).imp_right hval
    · rcases hp.free.prev_mem (hid i hi) with ⟨-, hnone⟩ | hmem
      · exact Or.inl hnone
      · exact Or.inr (hval hmem)

/-- **Twins return the same**, and stay twins. -/
theorem exec (h : Twin ml ml') (ops : List Op) :
    Option.Rel (fun r r' => r'.2 = r.2 ∧ Twin r.1 r'.1) (ml.exec ops) (ml'.exec ops) := by
  induction ops generalizing ml ml' with
  | nil => exact .some ⟨rfl, h⟩
  | cons op ops ih =>
      cases op with
      | getSlice =>
          obtain ⟨ml₁, ml₁', r, hget, hget', h₁⟩ := h.getSlice
          have hrest := ih h₁
          simp only [MemoryList.exec, hget, hget', Option.bind_some]
          revert hrest
          generalize ml₁.exec ops = x
          generalize ml₁'.exec ops = y
          intro hrest
          cases hrest with
          | none => exact .none
          | some hr => exact .some ⟨congrArg (r :: ·) hr.1, hr.2⟩
      | freeSlice id =>
          have hfree := h.freeSlice id
          unfold MemoryList.exec
          revert hfree
          generalize ml.freeSlice id = x
          generalize ml'.freeSlice id = y
          intro hfree
          cases hfree with
          | none => exact .none
          | some h₁ => exact ih h₁
      | clear =>
          obtain ⟨ml₁, ml₁', hclear, hclear', h₁⟩ := h.clear
          unfold MemoryList.exec
          rw [hclear, hclear']
          exact ih h₁

end Twin

/-! ## A copy at another address

The copied bytes are read at the same offsets, so they hold the same header and the same links. -/

section Copy

variable {start' : Nat} {mem mem' : Mem} {calls : List Call}

/-- The allocator over a copy is a twin of the one it was copied from. -/
theorem twin_copy (hinv : Inv s) (hs : Stamped start len sliceSize s.ml) (hlen : kHeaderSize ≤ len)
    (hfit' : SumsFit start' len sliceSize) (hcopy : ∀ j : Nat, j < len → mem' (start' + j) = s.ml.mem (start + j))
    (hbuf : ml'.buf = start' + kHeaderSize) (hend : ml'.endAddr = start' + len)
    (hreal : ml'.sliceRealSize = s.ml.sliceRealSize) (hcap : ml'.capacity = s.ml.capacity)
    (hheader : ml'.header = s.ml.header) (hmem : ml'.mem = mem') : Twin s.ml ml' := by
  obtain ⟨F, U, hp, -⟩ := hinv.lists
  have hr : s.ml.sliceRealSize = kSliceHeadSize + sliceSize := by rw [hinv.real, hs.sliceSize]
  have hspan : s.ml.endAddr - s.ml.buf = ml'.endAddr - ml'.buf := by
    rw [hs.endAddr, hs.buf, hend, hbuf]
    omega
  have hval : ∀ {i}, i ∈ F ∨ i ∈ U → IsId s.ml i := fun hi => hp.mem_iff.mp hi
  have hmemF : ∀ {j}, j = kInvalidSliceId ∨ j ∈ F → ValidId s.ml j := fun hj => hj.imp_right fun h => hval (Or.inl h)
  have hmemU : ∀ {j}, j = kInvalidSliceId ∨ j ∈ U → ValidId s.ml j := fun hj => hj.imp_right fun h => hval (Or.inr h)
  have hprev : ∀ {j hd : SliceId} {is : List SliceId}, (j = hd ∧ s.ml.heads.prev j = kInvalidSliceId) ∨ s.ml.heads.prev j ∈ is →
      s.ml.heads.prev j = kInvalidSliceId ∨ s.ml.heads.prev j ∈ is := fun h => h.imp_left And.right
  -- the links of a slice are eight bytes at its head
  have hbyte : ∀ i : SliceId, IsId s.ml i → ml'.heads.next i = s.ml.heads.next i ∧ ml'.heads.prev i = s.ml.heads.prev i :=
    fun i hi => heads_copy hinv hs hbuf hreal hmem hcopy hi.1 hi.2
  refine ⟨hinv.fits, ⟨?_, ?_, ?_, ?_, ?_⟩, hinv.real, hreal, by rw [hheader], hcap, by rw [hheader], by rw [hheader],
    by rw [hheader], hmemF (Partition.head_valid hp.free), hmemU (Partition.head_valid hp.used),
    ⟨fun i hi => (hbyte i hi).1, fun i hi => (hbyte i hi).2, fun i hi => ?_, fun i hi => ?_⟩, ?_⟩
  · rw [hbuf, hend]
    omega
  · rw [hreal]
    exact hinv.fits.real
  · rw [hcap, hreal, ← hspan]
    exact hinv.fits.cap
  · rw [hcap]
    exact hinv.fits.small
  · have hfit := hfit'
    unfold SumsFit at hfit
    rw [hcap, hreal, hbuf, hr, hinv.fits.cap, hs.endAddr, hs.buf, hr, Nat.add_sub_add_left]
    exact hfit
  · rcases hp.mem_iff.mpr hi with hF | hU
    · exact hmemF (hp.free.next_mem hF)
    · exact hmemU (hp.used.next_mem hU)
  · rcases hp.mem_iff.mpr hi with hF | hU
    · exact hmemF (hprev (hp.free.prev_mem hF))
    · exact hmemU (hprev (hp.used.prev_mem hU))
  -- and the client's bytes are behind them
  · intro i h₀ h₁ off hoff
    have hk : 8 + off < s.ml.sliceRealSize := by
      rw [hinv.real]
      unfold kSliceHeadSize
      omega
    have hbyte := byte_copy hinv hs hbuf hreal hmem hcopy h₀ h₁ hk
    push_cast at hbyte
    rw [← add_assoc, ← add_assoc] at hbyte
    exact hbyte

variable (hlen : kHeaderSize < len) (hfit : SumsFit start len sliceSize)
  (hc : createFrom start len sliceSize mem = some (some ml)) (hrun : Run Step ⟨ml, []⟩ calls s)
include hlen hfit hc hrun

/-- A buffer that was copied and restored at its own length goes on as the old one. -/
theorem restoresAs_copy (hfit' : SumsFit start' len sliceSize)
    (hcopy : ∀ j : Nat, j < len → mem' (start' + j) = s.ml.mem (start + j)) : RestoresAs s.ml start' len sliceSize mem' := by
  obtain ⟨hinv, hs⟩ := inv_of_run hfit hc hrun
  have hr : s.ml.sliceRealSize = kSliceHeadSize + sliceSize := by rw [hinv.real, hs.sliceSize]
  have hrestore := restoreFrom_eq mem' hinv hs (by omega) hlen (le_refl len) hfit'
  generalize hml' : MemoryList.mk _ _ _ _ _ _ _ = ml' at hrestore
  have htwin : Twin s.ml ml' := by
    refine twin_copy hinv hs (by omega) hfit' hcopy ?_ ?_ ?_ ?_ ?_ ?_
    · rw [← hml']
    · rw [← hml']
    · rw [← hml', hr]
    · rw [← hml', Nat.sub_self, Nat.zero_div, Nat.add_zero]
    · rw [← hml']
    · rw [← hml']
  refine ⟨ml', hrestore, fun ops => ?_⟩
  have hexec := htwin.exec ops
  revert hexec
  generalize s.ml.exec ops = x
  generalize ml'.exec ops = y
  intro hexec
  cases hexec with
  | none => exact .none
  | some hr => exact .some ⟨hr.1, hr.2.same⟩

omit hlen in
/-- Another slice size, or less than the recorded length. -/
theorem restoreFrom_refused {len' sliceSize' : Nat} (hother : sliceSize' ≠ sliceSize ∨ len' < len) :
    restoreFrom start' len' sliceSize' s.ml.header mem' = none := by
  obtain ⟨-, hs⟩ := inv_of_run hfit hc hrun
  unfold restoreFrom
  rw [hs.bufferLength, hs.sliceSize]
  dsimp only
  split_ifs with _ hsame
  · rfl
  · rfl
  · rcases hother with hne | hlt
    · exact absurd (Or.inr (Or.inr (Ne.symm hne))) hsame
    · exact absurd (Or.inl hlt) hsame

/-- **A buffer restored at its own length** is what it was, at any address, and nothing else is accepted. -/
theorem restoresAs_of_fits :
    (∀ (start' : Nat) (mem' : Mem), SumsFit start' len sliceSize →
      (∀ j : Nat, j < len → mem' (start' + j) = s.ml.mem (start + j)) → RestoresAs s.ml start' len sliceSize mem') ∧
    ∀ (start' len' sliceSize' : Nat) (mem' : Mem), sliceSize' ≠ sliceSize ∨ len' < len →
      restoreFrom start' len' sliceSize' s.ml.header mem' = none :=
  ⟨fun _ _ hfit' hcopy => restoresAs_copy hlen hfit hc hrun hfit' hcopy,
    fun _ _ _ _ hother => restoreFrom_refused hfit hc hrun hother⟩

end Copy

/-- Three slices, one of them in use and one freed, copied from address 4096 to 8192. -/
theorem restoresAs_three : ∃ ml s, createFrom 4096 120 16 (fun _ => 0) = some (some ml) ∧
    Run Step ⟨ml, []⟩ [.getSlice 0, .getSlice 1, .freeSlice 0, .store 1 3 7] s ∧
    RestoresAs s.ml 8192 120 16 (fun a => s.ml.mem (a - 4096)) := by
  obtain ⟨ml, s, hml, hrun⟩ := createFrom_three_used
  refine ⟨ml, s, hml, hrun, (restoresAs_of_fits (by decide) (by decide) hml hrun).1 8192 _ (by decide) fun j _ => ?_⟩
  show s.ml.mem _ = s.ml.mem _
  congr 1
  push_cast
  omega

/-- **A slice size that makes `cur + kSliceRealSize` wrap**: the second slice is laid out before the buffer, and `RestoreFrom`
    computes a capacity of none. -/
theorem not_restoresAs_wrap : ∃ ml, createFrom 4096 100 (2 ^ 64 - 2008) (fun _ => 0) = some (some ml) ∧ ml.capacity = 2 ∧
    ((restoreFrom 4096 100 (2 ^ 64 - 2008) ml.header ml.mem).map capacity) = some 0 ∧
    ¬ RestoresAs ml 4096 100 (2 ^ 64 - 2008) ml.mem := by
  have hc : (createFrom 4096 100 (2 ^ 64 - 2008) (fun _ => 0)).join.map
      (fun ml => (ml.capacity, (restoreFrom 4096 100 (2 ^ 64 - 2008) ml.header ml.mem).map capacity)) = some (2, some 0) := by
    decide +kernel
  obtain ⟨ml, hj, hval⟩ := Option.map_eq_some_iff.mp hc
  obtain ⟨hcap, hrestored⟩ := Prod.mk.inj hval
  refine ⟨ml, Option.join_eq_some_iff.mp hj, hcap, hrestored, ?_⟩
  rintro ⟨ml', hrestore, hops⟩
  rw [hrestore] at hrestored
  obtain hcap' : ml'.capacity = 0 := Option.some.inj hrestored
  -- the capacity is shown before any call
  have hnow := hops []
  cases hnow with
  | some hr =>
      have hsame := hr.2.capacity
      have heq : ml'.capacity = ml.capacity := hsame
      omega

end MemoryList
end Snippets
