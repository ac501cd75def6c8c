import Snippets.MemoryList.Runs

/-!
# `MemoryList.Restore` — a buffer that was saved and grew

`RestoreFrom` takes the header and the lists from the bytes of an earlier state and recomputes only the capacity,
from the new length. The free list still covers the old slices. As long as the buffer grew by less than a slice the
two agree and the allocator goes on as before (`restoreSpec_iff`). After that `full()` stays false when the last free
slice is gone, and `GetSlice` returns `kInvalidSliceId`.
-/

namespace Snippets

open Lib Links

namespace MemoryList

/-- `RestoreFrom` on a buffer whose first bytes are `header`; `none` is `NULL`. -/
def restoreFrom (start len sliceSize : Nat) (header : Header) (mem : Mem) : Option MemoryList :=
  let e := toSize (start + len)
  if toSize (start + kHeaderSize) ≥ e then none
  else if header.bufferLength > len ∨ header.magicNumber ≠ kMagicNumber ∨ header.sliceSize ≠ sliceSize then none
  else some
    { start := start
      endAddr := e
      buf := toSize (start + kHeaderSize)
      header := header
      capacity := toSize (len - header.padding - kHeaderSize) / toSize (kSliceHeadSize + sliceSize)
      sliceRealSize := toSize (kSliceHeadSize + sliceSize)
      mem := mem }

variable {ml ml' : MemoryList} {s t : Client} {start len sliceSize : Nat}

/-! ## What the calls keep of the header

The magic number, the sizes and the bounds, which only `CreateFrom` and `RestoreFrom` set. -/

/-- The fields of the header that `RestoreFrom` reads, and where the buffer lies. -/
structure Stamped (start len sz : Nat) (ml : MemoryList) : Prop where
  magic : ml.header.magicNumber = kMagicNumber
  bufferLength : ml.header.bufferLength = len
  sliceSize : ml.header.sliceSize = sz
  padding : ml.header.padding = (len - kHeaderSize) % (kSliceHeadSize + sz)
  buf : ml.buf = start + kHeaderSize
  endAddr : ml.endAddr = start + len

/-- The fields no call but `clear` writes. -/
structure Kept (ml ml' : MemoryList) : Prop where
  magic : ml'.header.magicNumber = ml.header.magicNumber
  bufferLength : ml'.header.bufferLength = ml.header.bufferLength
  sliceSize : ml'.header.sliceSize = ml.header.sliceSize
  padding : ml'.header.padding = ml.header.padding
  buf : ml'.buf = ml.buf
  endAddr : ml'.endAddr = ml.endAddr
  capacity : ml'.capacity = ml.capacity
  sliceRealSize : ml'.sliceRealSize = ml.sliceRealSize

/-- Nothing changed, -/
theorem Kept.refl (ml : MemoryList) : Kept ml ml := ⟨rfl, rfl, rfl, rfl, rfl, rfl, rfl, rfl⟩

/-- and one change after another. -/
theorem Kept.trans {ml'' : MemoryList} (h₁ : Kept ml ml') (h₂ : Kept ml' ml'') : Kept ml ml'' :=
  ⟨h₂.magic.trans h₁.magic, h₂.bufferLength.trans h₁.bufferLength, h₂.sliceSize.trans h₁.sliceSize,
    h₂.padding.trans h₁.padding, h₂.buf.trans h₁.buf, h₂.endAddr.trans h₁.endAddr, h₂.capacity.trans h₁.capacity,
    h₂.sliceRealSize.trans h₁.sliceRealSize⟩

/-- A stamped state stays so. -/
theorem Kept.stamped (h : Kept ml ml') (hs : Stamped start len sliceSize ml) : Stamped start len sliceSize ml' :=
  ⟨h.magic.trans hs.magic, h.bufferLength.trans hs.bufferLength, h.sliceSize.trans hs.sliceSize,
    h.padding.trans hs.padding, h.buf.trans hs.buf, h.endAddr.trans hs.endAddr⟩

/-- A store into a slice changes no header, -/
theorem kept_setSlicePrev? (p : Option Nat) (v : SliceId) : Kept ml (ml.setSlicePrev? p v) := by
  cases p <;> exact ⟨rfl, rfl, rfl, rfl, rfl, rfl, rfl, rfl⟩

/-- forwards or backwards. -/
theorem kept_setSliceNext? (p : Option Nat) (v : SliceId) : Kept ml (ml.setSliceNext? p v) := by
  cases p <;> exact ⟨rfl, rfl, rfl, rfl, rfl, rfl, rfl, rfl⟩

/-- The four steps of the calls, -/
theorem kept_takeFree {slice : Nat} (h : ml.takeFree slice = some ml') : Kept ml ml' := by
  obtain ⟨next, -, rfl⟩ := Option.map_eq_some_iff.mp h
  cases next <;> exact ⟨rfl, rfl, rfl, rfl, rfl, rfl, rfl, rfl⟩

/-- each by itself. -/
theorem kept_putUsed {slice : Nat} {id : SliceId} (h : ml.putUsed slice id = some ml') : Kept ml ml' := by
  obtain ⟨old, -, rfl⟩ := Option.map_eq_some_iff.mp h
  cases old <;> exact ⟨rfl, rfl, rfl, rfl, rfl, rfl, rfl, rfl⟩

/-- So `GetSlice` keeps the header. -/
theorem kept_getSlice {r : SliceId} (h : ml.getSlice = some (ml', r)) : Kept ml ml' := by
  unfold getSlice at h
  split at h
  · obtain ⟨rfl, -⟩ := Prod.mk.inj (Option.some.inj h)
    exact Kept.refl _
  · split at h
    · obtain ⟨ml₁, h₁, h⟩ := Option.bind_eq_some_iff.mp h
      obtain ⟨ml₂, h₂, h⟩ := Option.map_eq_some_iff.mp h
      obtain ⟨rfl, -⟩ := Prod.mk.inj h
      exact ((kept_takeFree h₁).trans (kept_putUsed h₂)).trans ⟨rfl, rfl, rfl, rfl, rfl, rfl, rfl, rfl⟩
    · cases h

/-- The used list loses a slice, -/
theorem kept_dropUsed {slice : Nat} {id : SliceId} (h : ml.dropUsed slice id = some ml') : Kept ml ml' := by
  unfold dropUsed at h
  split at h
  · next prev next _ _ =>
      have h₁ : Kept ml (ml.unlinkSlice slice prev next) := (kept_setSliceNext? prev _).trans (kept_setSlicePrev? next _)
      refine h₁.trans ?_
      unfold advanceUsed at h
      split at h
      · split at h
        · obtain rfl := Option.some.inj h
          exact ⟨rfl, rfl, rfl, rfl, rfl, rfl, rfl, rfl⟩
        · cases h
      · obtain rfl := Option.some.inj h
        exact Kept.refl _
  · cases h

/-- the free one gets it, -/
theorem kept_putFree {slice : Nat} {id : SliceId} (h : ml.putFree slice id = some ml') : Kept ml ml' := by
  obtain ⟨old, -, rfl⟩ := Option.map_eq_some_iff.mp h
  cases old <;> exact ⟨rfl, rfl, rfl, rfl, rfl, rfl, rfl, rfl⟩

/-- and so `FreeSlice` keeps the header. -/
theorem kept_freeSlice {id : SliceId} (h : ml.freeSlice id = some ml') : Kept ml ml' := by
  unfold freeSlice at h
  split at h
  · obtain rfl := Option.some.inj h
    exact Kept.refl _
  · split at h
    · split at h
      · obtain ⟨ml₁, h₁, h⟩ := Option.bind_eq_some_iff.mp h
        obtain ⟨ml₂, h₂, rfl⟩ := Option.map_eq_some_iff.mp h
        exact ((kept_dropUsed h₁).trans (kept_putFree h₂)).trans ⟨rfl, rfl, rfl, rfl, rfl, rfl, rfl, rfl⟩
      · cases h
    · cases h

/-- `MakeSliceList` records what is left over. -/
theorem stamped_makeSliceList {cap : Nat} (hf : Fits { ml with capacity := cap }) (hmagic : ml.header.magicNumber = kMagicNumber)
    (hlen : ml.header.bufferLength = len) (hslice : ml.header.sliceSize = sliceSize) (hbuf : ml.buf = start + kHeaderSize)
    (hend : ml.endAddr = start + len) (hreal : ml.sliceRealSize = kSliceHeadSize + sliceSize)
    (hmake : ml.makeSliceList = some ml') : Stamped start len sliceSize ml' := by
  have hsmall : cap < 2 ^ 31 := hf.small
  obtain ⟨m', hloop, -, -⟩ := makeSliceLoop_eq hf.real hf.room hf.cap hf.exact hsmall cap ml.mem 0
    (2 ^ 31 - 1) (Nat.zero_add _) (by omega)
  have hloop' : makeSliceLoop ml.sliceRealSize ml.endAddr (2 ^ 31 - 1) ml.mem ml.buf kInvalidSliceId =
      some (m', ml.buf + ml.sliceRealSize * cap, (cap : Int) - 1) := hloop
  -- the padding is what the slices do not use of the length
  have hpad : toSize ((ml.endAddr : Int) - (ml.buf + ml.sliceRealSize * cap : Nat)) =
      (len - kHeaderSize) % (kSliceHeadSize + sliceSize) := by
    have hcap : cap = (ml.endAddr - ml.buf) / ml.sliceRealSize := hf.cap
    have hroom : ml.buf ≤ ml.endAddr := hf.room
    have hx : ml.buf + (cap + 1) * ml.sliceRealSize < 2 ^ 64 := hf.exact
    have hmod := Nat.div_add_mod (ml.endAddr - ml.buf) ml.sliceRealSize
    have hlt := Nat.mod_lt (ml.endAddr - ml.buf) (show ml.sliceRealSize > 0 by have : 8 ≤ ml.sliceRealSize := hf.real; omega)
    have hdiff : ml.endAddr - ml.buf = len - kHeaderSize := by omega
    rw [← hcap] at hmod
    rw [add_mul, one_mul, mul_comm] at hx
    rw [← hreal, ← hdiff]
    push_cast
    rw [toSize_of_range (by omega) (by omega)]
    omega
  unfold makeSliceList at hmake
  rw [hloop'] at hmake
  simp only at hmake
  split at hmake
  · obtain rfl := Option.some.inj hmake
    exact ⟨hmagic, hlen, hslice, hpad, hbuf, hend⟩
  · obtain rfl := Option.some.inj hmake
    exact ⟨hmagic, hlen, hslice, hpad, hbuf, hend⟩

/-- A created buffer is stamped, -/
theorem stamped_createFrom {mem : Mem} (hfit : SumsFit start len sliceSize)
    (hc : createFrom start len sliceSize mem = some (some ml)) : Stamped start len sliceSize ml := by
  obtain ⟨-, ml₀, cap, hmake, hf₀, hheader, -, hbuf, hend, hreal, -⟩ := createFrom_make hfit hc
  exact stamped_makeSliceList hf₀ (by rw [hheader]) (by rw [hheader]) (by rw [hheader]) hbuf hend hreal hmake

/-- and every call keeps it so. -/
theorem stamped_step (h : Inv s) (hs : Stamped start len sliceSize s.ml) {call : Call} (hst : Step s call t) :
    Stamped start len sliceSize t.ml := by
  cases call with
  | getSlice r => exact (kept_getSlice hst.1).stamped hs
  | freeSlice id => exact (kept_freeSlice hst.2.1).stamped hs
  | clear =>
      have hfits : Fits (s.ml.setSize 0) := (Frame.setSize 0).fits h.fits
      have hf : Fits { s.ml.setSize 0 with capacity := s.ml.capacity } := hfits
      have hreal : s.ml.sliceRealSize = kSliceHeadSize + sliceSize := by rw [h.real, hs.sliceSize]
      exact stamped_makeSliceList hf hs.magic hs.bufferLength hs.sliceSize hs.buf hs.endAddr hreal hst.1
  | store id off byte =>
      obtain ⟨-, -, p, -, rfl⟩ := hst
      exact ⟨hs.magic, hs.bufferLength, hs.sliceSize, hs.padding, hs.buf, hs.endAddr⟩

/-! ## The end of the buffer and the capacity, as the calls see them

`resize` puts another end and another capacity into the state. All calls but `clear` and `full` are the same on
it, so a restored state runs as the old one did. -/

/-- The same state with another end and capacity. -/
def resize (e c : Nat) (ml : MemoryList) : MemoryList := { ml with endAddr := e, capacity := c }

section Resize

variable (e c : Nat)

/-- A store commutes with it, -/
theorem setSlicePrev?_resize (p : Option Nat) (v : SliceId) :
    (ml.resize e c).setSlicePrev? p v = (ml.setSlicePrev? p v).resize e c := by cases p <;> rfl

/-- in both directions, -/
theorem setSliceNext?_resize (p : Option Nat) (v : SliceId) :
    (ml.resize e c).setSliceNext? p v = (ml.setSliceNext? p v).resize e c := by cases p <;> rfl

/-- and so do the four steps -/
theorem takeFree_resize (slice : Nat) : (ml.resize e c).takeFree slice = (ml.takeFree slice).map (resize e c) := by
  unfold takeFree
  rw [Option.map_map]
  show Option.map _ (ml.getSliceById (ml.sliceNext slice)) = Option.map _ (ml.getSliceById (ml.sliceNext slice))
  apply congrArg (fun f => Option.map f (ml.getSliceById (ml.sliceNext slice)))
  funext next
  cases next <;> rfl

/-- of the calls, -/
theorem putUsed_resize (slice : Nat) (id : SliceId) :
    (ml.resize e c).putUsed slice id = (ml.putUsed slice id).map (resize e c) := by
  unfold putUsed
  rw [Option.map_map]
  show Option.map _ (ml.getSliceById ml.header.used) = Option.map _ (ml.getSliceById ml.header.used)
  apply congrArg (fun f => Option.map f (ml.getSliceById ml.header.used))
  funext old
  cases old <;> rfl

/-- `GetSlice` looks at neither. -/
theorem getSlice_resize : (ml.resize e c).getSlice = ml.getSlice.map fun r => (r.1.resize e c, r.2) := by
  have hfree : (ml.resize e c).header.free = ml.header.free := rfl
  have hslice : (ml.resize e c).getSliceById = ml.getSliceById := rfl
  unfold getSlice
  rw [hfree, hslice]
  split
  · rfl
  · split
    · next slice _ =>
        rw [takeFree_resize]
        cases ml.takeFree slice with
        | none => rfl
        | some ml₁ =>
            simp only [Option.map_some, Option.bind_some]
            show Option.map _ ((ml₁.resize e c).putUsed slice ml.header.free) = _
            rw [putUsed_resize, Option.map_map, Option.map_map]
            rfl
    · rfl

/-- with the walk along the used list, -/
theorem advanceUsed_resize (slice : Nat) (prev : Option Nat) (id : SliceId) :
    (ml.resize e c).advanceUsed slice prev id = (ml.advanceUsed slice prev id).map (resize e c) := by
  unfold advanceUsed
  show (if ml.header.used = id then _ else _) = _
  split
  · split
    · rfl
    · rfl
  · rfl

/-- the removal from it, -/
theorem dropUsed_resize (slice : Nat) (id : SliceId) :
    (ml.resize e c).dropUsed slice id = (ml.dropUsed slice id).map (resize e c) := by
  have hslice : (ml.resize e c).getSliceById = ml.getSliceById := rfl
  have hprev : (ml.resize e c).slicePrev = ml.slicePrev := rfl
  have hnext : (ml.resize e c).sliceNext = ml.sliceNext := rfl
  have hunlink : ∀ prev next, (ml.resize e c).unlinkSlice slice prev next = (ml.unlinkSlice slice prev next).resize e c := by
    intro prev next
    unfold unlinkSlice
    rw [setSliceNext?_resize]
    exact setSlicePrev?_resize e c next _
  unfold dropUsed
  rw [hslice, hprev, hnext]
  split
  · rw [hunlink, advanceUsed_resize]
  · rfl

/-- and the return to the free list. -/
theorem putFree_resize (slice : Nat) (id : SliceId) :
    (ml.resize e c).putFree slice id = (ml.putFree slice id).map (resize e c) := by
  unfold putFree
  rw [Option.map_map]
  show Option.map _ (ml.getSliceById ml.header.free) = Option.map _ (ml.getSliceById ml.header.free)
  apply congrArg (fun f => Option.map f (ml.getSliceById ml.header.free))
  funext old
  cases old <;> rfl

/-- `FreeSlice` looks at the capacity, but not at the end. -/
theorem freeSlice_resize (id : SliceId) :
    (ml.resize e ml.capacity).freeSlice id = (ml.freeSlice id).map (resize e ml.capacity) := by
  have hslice : (ml.resize e ml.capacity).getSliceById = ml.getSliceById := rfl
  have hcapacity : (ml.resize e ml.capacity).capacity = ml.capacity := rfl
  unfold freeSlice
  rw [hslice, hcapacity]
  split
  · rfl
  · split
    · split
      · next slice _ =>
          rw [dropUsed_resize]
          cases ml.dropUsed slice id with
          | none => rfl
          | some ml₁ =>
              simp only [Option.map_some, Option.bind_some]
              rw [putFree_resize, Option.map_map, Option.map_map]
              rfl
      · rfl
    · rfl

end Resize

/-! ## After a restore

The lists cover the slices up to the capacity that the state names, and the buffer may end behind them. Every call
keeps that; `clear` makes the lists again, up to the end. -/

/-- The invariant of the calls after a restore: the lists partition the slices up to the capacity, wherever the buffer
    ends. -/
structure Restored (s : Client) : Prop where
  room : s.ml.buf ≤ s.ml.endAddr
  exact : s.ml.buf + ((s.ml.endAddr - s.ml.buf) / s.ml.sliceRealSize + 1) * s.ml.sliceRealSize < 2 ^ 64
  inv : ∃ e, Inv ⟨s.ml.resize e s.ml.capacity, s.held⟩

/-- A call that keeps the header and the partition of the slices keeps a state restored. -/
theorem Kept.restored (hk : Kept s.ml t.ml) (hr : Restored s) (hinv : ∃ e, Inv ⟨t.ml.resize e s.ml.capacity, t.held⟩) :
    Restored t := by
  refine ⟨?_, ?_, ?_⟩
  · rw [hk.buf, hk.endAddr]
    exact hr.room
  · rw [hk.buf, hk.endAddr, hk.sliceRealSize]
    exact hr.exact
  · rw [hk.capacity]
    exact hinv

/-- **Every call keeps it.** -/
theorem restored_step (hr : Restored s) {call : Call} (hst : Step s call t) : Restored t := by
  obtain ⟨e, hinv⟩ := hr.inv
  cases call with
  | getSlice r =>
      obtain ⟨hget, hheld⟩ := hst
      have hget' : (s.ml.resize e s.ml.capacity).getSlice = some (t.ml.resize e s.ml.capacity, r) := by
        rw [getSlice_resize, hget]
        rfl
      have hstep : Step ⟨s.ml.resize e s.ml.capacity, s.held⟩ (.getSlice r) ⟨t.ml.resize e s.ml.capacity, t.held⟩ :=
        ⟨hget', hheld⟩
      exact (kept_getSlice hget).restored hr ⟨e, inv_step hinv hstep⟩
  -- the call on the resized state is the call on this one
  | freeSlice id =>
      obtain ⟨hid, hfree, hheld⟩ := hst
      have hfree' : (s.ml.resize e s.ml.capacity).freeSlice id = some (t.ml.resize e s.ml.capacity) := by
        rw [freeSlice_resize, hfree]
        rfl
      have hstep : Step ⟨s.ml.resize e s.ml.capacity, s.held⟩ (.freeSlice id) ⟨t.ml.resize e s.ml.capacity, t.held⟩ :=
        ⟨hid, hfree', hheld⟩
      exact (kept_freeSlice hfree).restored hr ⟨e, inv_step hinv hstep⟩
  | clear =>
      -- the lists are made again, up to the end of the buffer
      obtain ⟨hclear, hheld⟩ := hst
      have hreal : 8 ≤ s.ml.sliceRealSize := hinv.fits.real
      by_cases hsmall : (s.ml.endAddr - s.ml.buf) / s.ml.sliceRealSize < 2 ^ 31
      · have hf : Fits { s.ml.setSize 0 with capacity := (s.ml.endAddr - s.ml.buf) / s.ml.sliceRealSize } :=
          ⟨hr.room, hreal, rfl, hsmall, hr.exact⟩
        have hzero : (s.ml.setSize 0).header.size = 0 := toSize_of_range (le_refl 0) (by decide)
        obtain ⟨ml', hmake, hfr, hp⟩ := makeSliceList_eq _ hf hzero
        obtain rfl : ml' = t.ml := by
          unfold clear at hclear
          rw [hmake] at hclear
          exact Option.some.inj hclear
        have hslice : t.ml.sliceRealSize = kSliceHeadSize + t.ml.header.sliceSize := by
          rw [hfr.sliceRealSize, hfr.sliceSize]
          exact hinv.real
        refine ⟨?_, ?_, t.ml.endAddr, hfr.fits hf, hslice, _, [], hp, ?_⟩
        · rw [hfr.buf, hfr.endAddr]
          exact hr.room
        · rw [hfr.buf, hfr.endAddr, hfr.sliceRealSize]
          exact hr.exact
        · rw [hheld]
      · have hbig : 2 ^ 31 ≤ (s.ml.endAddr - s.ml.buf) / s.ml.sliceRealSize := by omega
        have hnone : (s.ml.setSize 0).makeSliceList = none := makeSliceList_overflow hreal hr.room rfl hr.exact hbig
        unfold clear at hclear
        rw [hnone] at hclear
        cases hclear
  -- a store of the client is inside a slice
  | store id off byte =>
      obtain ⟨hid, hoff, p, hp, rfl⟩ := hst
      have hstep : Step ⟨s.ml.resize e s.ml.capacity, s.held⟩ (.store id off byte)
          ⟨{ s.ml.resize e s.ml.capacity with mem := s.ml.mem.write (p + off) [byte] }, s.held⟩ := ⟨hid, hoff, p, hp, rfl⟩
      exact ⟨hr.room, hr.exact, e, inv_step hinv hstep⟩

/-- As long as it is not full, `GetSlice` hands out a slice that is not held. -/
theorem Restored.getSlice (hr : Restored s) (hfull : s.ml.full = false) :
    ∃ ml' r, s.ml.getSlice = some (ml', r) ∧ 0 ≤ r ∧ r < s.ml.capacity ∧ r ∉ s.held := by
  obtain ⟨e, hinv⟩ := hr.inv
  obtain ⟨F, U, hp, hheld⟩ := hinv.lists
  cases F with
  | nil =>
      have hsize : s.ml.header.size = s.ml.capacity := hp.full_iff.mpr rfl
      unfold full at hfull
      rw [hsize, beq_self_eq_true] at hfull
      cases hfull
  | cons i F =>
      obtain ⟨ml', hget, -, -⟩ := hp.getSlice hinv.fits
      have hmem : i ∈ i :: F := List.mem_cons_self
      obtain ⟨h₀, h₁⟩ := hp.mem_iff.mp (Or.inl hmem)
      rw [getSlice_resize] at hget
      obtain ⟨⟨ml₁, r⟩, hget₁, heq⟩ := Option.map_eq_some_iff.mp hget
      obtain ⟨-, rfl⟩ := Prod.mk.inj heq
      exact ⟨ml₁, r, hget₁, h₀, h₁, fun hin => hp.not_mem_both hmem (hheld.mem_iff.mpr hin)⟩

/-- **A capacity above the number of slices**: when all slices are taken, `full()` is false and there is none left. -/
theorem drained {e cap : Nat} (hinv : Inv ⟨s.ml.resize e cap, s.held⟩) (hcap : cap < s.ml.capacity) :
    ∃ calls t, Run Step s calls t ∧ t.ml.full = false ∧ t.ml.getSlice = some (t.ml, kInvalidSliceId) := by
  obtain ⟨F, U, hp, hheld⟩ := hinv.lists
  -- by induction on the free list: `GetSlice` takes its head until none is left, and the state does not call
  -- itself full
  induction hn : F.length generalizing s F U with
  | zero =>
      obtain rfl := List.length_eq_zero_iff.mp hn
      refine ⟨[], s, Run.refl, ?_, ?_⟩
      · have hsize : s.ml.header.size = cap := hp.full_iff.mpr rfl
        unfold full
        rw [hsize]
        exact beq_false_of_ne (by omega)
      · have hfree : s.ml.header.free = kInvalidSliceId := hp.free
        unfold getSlice
        rw [if_pos hfree]
  | succ n ih =>
      cases F with
      | nil => cases hn
      | cons i F =>
          obtain ⟨ml', hget, hfr, hp'⟩ := hp.getSlice hinv.fits
          rw [getSlice_resize] at hget
          obtain ⟨⟨ml₁, r⟩, hget₁, heq⟩ := Option.map_eq_some_iff.mp hget
          obtain ⟨rfl, rfl⟩ := Prod.mk.inj heq
          have hr : r ≠ kInvalidSliceId := ne_invalid (hp.mem_iff.mp (Or.inl List.mem_cons_self)).1
          have hstep : Step s (.getSlice r) ⟨ml₁, r :: s.held⟩ := ⟨hget₁, by rw [if_neg hr]⟩
          have hinv' : Inv ⟨ml₁.resize e cap, r :: s.held⟩ := by
            have hget' : (s.ml.resize e cap).getSlice = some (ml₁.resize e cap, r) := by
              rw [getSlice_resize, hget₁]
              rfl
            have hstep' : Step ⟨s.ml.resize e cap, s.held⟩ (.getSlice r) ⟨ml₁.resize e cap, r :: s.held⟩ :=
              ⟨hget', by rw [if_neg hr]⟩
            exact inv_step hinv hstep'
          have hcap' : cap < ml₁.capacity := by
            rw [(kept_getSlice hget₁).capacity]
            exact hcap
          obtain ⟨calls, t, hrun, hfull, hnone⟩ := ih (s := ⟨ml₁, r :: s.held⟩) hinv' hcap' F (r :: U) hp' (hheld.cons r)
            (by simpa using hn)
          exact ⟨_, t, (Run.single hstep).trans hrun, hfull, hnone⟩

/-! ## The restored buffer

What `RestoreFrom` computes from the bytes and the new length. -/

/-- `RestoreFrom` of the saved state succeeds, keeps the slices in use and their payloads, and from then on `GetSlice`
    hands out an unused slice whenever `full()` is false. -/
def RestoreSpec (s : Client) (start len : Nat) (mem : Mem) : Prop :=
  ∃ ml', restoreFrom start len s.ml.header.sliceSize s.ml.header mem = some ml' ∧
    (∃ U, Chain ml'.heads kInvalidSliceId kInvalidSliceId ml'.header.used U ∧ U.Perm s.held) ∧
    (∀ i ∈ s.held, ∀ off < s.ml.header.sliceSize, ml'.mem (ml'.payload i off) = s.ml.mem (s.ml.payload i off)) ∧
    ∀ calls t, Run Step ⟨ml', s.held⟩ calls t → t.ml.full = false →
      ∃ ml'' r, t.ml.getSlice = some (ml'', r) ∧ 0 ≤ r ∧ r < t.ml.capacity ∧ r ∉ t.held

section Copy

variable {start' : Nat} {mem' : Mem} (hinv : Inv s) (hs : Stamped start len sliceSize s.ml)
  (hbuf : ml'.buf = start' + kHeaderSize) (hreal : ml'.sliceRealSize = s.ml.sliceRealSize) (hmem : ml'.mem = mem')
  (hcopy : ∀ j : Nat, j < len → mem' (start' + j) = s.ml.mem (start + j)) {i : Int} (h₀ : 0 ≤ i) (h₁ : i < s.ml.capacity)
include hinv hs hbuf hreal hmem hcopy h₀ h₁

/-- A byte of a slice, read at the new place. -/
theorem byte_copy {k : Nat} (hk : k < s.ml.sliceRealSize) :
    ml'.mem (ml'.buf + ml'.sliceRealSize * i + k) = s.ml.mem (s.ml.buf + s.ml.sliceRealSize * i + k) := by
  obtain ⟨n, rfl⟩ := Int.eq_ofNat_of_zero_le h₀
  have hn : n < s.ml.capacity := by exact_mod_cast h₁
  have hcap := hinv.fits.cap
  have hroom := hinv.fits.room
  have hend : s.ml.sliceRealSize * n + s.ml.sliceRealSize ≤ s.ml.endAddr - s.ml.buf := by
    have hle : (n + 1) * s.ml.sliceRealSize ≤ s.ml.endAddr - s.ml.buf := by
      rw [hcap] at hn
      exact (Nat.le_div_iff_mul_le (by have := hinv.fits.real; omega)).mp hn
    rw [add_mul, one_mul, mul_comm] at hle
    exact hle
  rw [hs.endAddr, hs.buf] at hend
  have hlt : kHeaderSize + s.ml.sliceRealSize * n + k < len := by
    rw [hs.endAddr, hs.buf] at hroom
    omega
  have hbyte := hcopy _ hlt
  rw [hmem, hbuf, hreal, hs.buf]
  push_cast at hbyte ⊢
  rw [← add_assoc, ← add_assoc, ← add_assoc, ← add_assoc] at hbyte
  exact hbyte

/-- The head of a slice, read at the new place. -/
theorem heads_copy : ml'.heads.next i = s.ml.heads.next i ∧ ml'.heads.prev i = s.ml.heads.prev i := by
  have hr := hinv.fits.real
  constructor
  · apply congrArg int32OfBytes
    apply Mem.read_shift
    intro j hj
    exact byte_copy hinv hs hbuf hreal hmem hcopy h₀ h₁ (by omega)
  · apply congrArg int32OfBytes
    apply Mem.read_shift
    intro j hj
    have hbyte := byte_copy hinv hs hbuf hreal hmem hcopy h₀ h₁ (k := 4 + j) (by omega)
    push_cast at hbyte
    rw [← add_assoc, ← add_assoc] at hbyte
    exact hbyte

end Copy

/-- The lists of the saved state, at the new place. -/
theorem inv_copy {start' : Nat} {mem' : Mem} (hinv : Inv s) (hs : Stamped start len sliceSize s.ml)
    (hbuf : ml'.buf = start' + kHeaderSize) (hreal : ml'.sliceRealSize = s.ml.sliceRealSize) (hmem : ml'.mem = mem')
    (hheader : ml'.header = s.ml.header)
    (hcopy : ∀ j : Nat, j < len → mem' (start' + j) = s.ml.mem (start + j))
    (hexact : ml'.buf + (s.ml.capacity + 1) * ml'.sliceRealSize < 2 ^ 64) :
    Inv ⟨ml'.resize (ml'.buf + s.ml.capacity * ml'.sliceRealSize) s.ml.capacity, s.held⟩ := by
  -- the links are read at the same offsets as before
  obtain ⟨F, U, hp, hheld⟩ := hinv.lists
  have hr := hinv.fits.real
  have hlinks : ∀ i, i ∈ F ∨ i ∈ U → ml'.heads.next i = s.ml.heads.next i ∧ ml'.heads.prev i = s.ml.heads.prev i := by
    intro i hi
    obtain ⟨h₀, h₁⟩ := hp.mem_iff.mp hi
    exact heads_copy hinv hs hbuf hreal hmem hcopy h₀ h₁
  refine ⟨⟨Nat.le_add_right _ _, ?_, ?_, hinv.fits.small, hexact⟩, ?_, F, U, ⟨?_, ?_, hp.perm, ?_⟩, hheld⟩
  · show 8 ≤ ml'.sliceRealSize
    rw [hreal]
    exact hr
  · show s.ml.capacity = (ml'.buf + s.ml.capacity * ml'.sliceRealSize - ml'.buf) / ml'.sliceRealSize
    rw [Nat.add_sub_cancel_left, Nat.mul_div_cancel _ (by rw [hreal]; omega)]
  · show ml'.sliceRealSize = kSliceHeadSize + ml'.header.sliceSize
    rw [hreal, hheader]
    exact hinv.real
  · show Chain ml'.heads kInvalidSliceId kInvalidSliceId ml'.header.free F
    rw [hheader]
    exact hp.free.congr fun i hi => hlinks i (Or.inl hi)
  · show Chain ml'.heads kInvalidSliceId kInvalidSliceId ml'.header.used U
    rw [hheader]
    exact hp.used.congr fun i hi => hlinks i (Or.inr hi)
  · show ml'.header.size = U.length
    rw [hheader]
    exact hp.size

/-- What `RestoreFrom` makes of a saved state: the same lists, and the capacity of the new length. -/
theorem restoreFrom_eq {start' len' : Nat} (mem' : Mem) (hinv : Inv s) (hs : Stamped start len sliceSize s.ml)
    (hlen : kHeaderSize ≤ len) (hlen' : kHeaderSize < len') (hgrow : len ≤ len') (hfit' : SumsFit start' len' sliceSize) :
    restoreFrom start' len' sliceSize s.ml.header mem' = some
      { start := start'
        endAddr := start' + len'
        buf := start' + kHeaderSize
        header := s.ml.header
        capacity := s.ml.capacity + (len' - len) / (kSliceHeadSize + sliceSize)
        sliceRealSize := kSliceHeadSize + sliceSize
        mem := mem' } := by
  unfold SumsFit kHeaderSize kSliceHeadSize at hfit'
  have hdiv : len' - 48 < ((len' - 48) / (8 + sliceSize) + 1) * (8 + sliceSize) :=
    Nat.lt_mul_of_div_lt (Nat.lt_add_one _) (by omega)
  have hone : 8 + sliceSize ≤ ((len' - 48) / (8 + sliceSize) + 1) * (8 + sliceSize) :=
    Nat.le_mul_of_pos_left _ (Nat.succ_pos _)
  unfold kHeaderSize at hlen hlen'
  have hend : toSize (start' + len') = start' + len' := by
    rw [toSize_of_range (by omega) (by omega)]; omega
  have hbuf : toSize (start' + kHeaderSize) = start' + kHeaderSize := by
    unfold kHeaderSize
    rw [toSize_of_range (by omega) (by omega)]; omega
  have hr : toSize (kSliceHeadSize + sliceSize) = kSliceHeadSize + sliceSize := by
    unfold kSliceHeadSize
    rw [toSize_of_range (by omega) (by omega)]; omega
  -- the padding of the old length is not counted, so the growth is
  have hpad : toSize ((len' : Int) - s.ml.header.padding - kHeaderSize) / (kSliceHeadSize + sliceSize) =
      s.ml.capacity + (len' - len) / (kSliceHeadSize + sliceSize) := by
    have hreal : s.ml.sliceRealSize = kSliceHeadSize + sliceSize := by rw [hinv.real, hs.sliceSize]
    have hcap : s.ml.capacity = (len - 48) / (kSliceHeadSize + sliceSize) := by
      rw [hinv.fits.cap, hs.endAddr, hs.buf, hreal, Nat.add_sub_add_left]
      rfl
    have hmod := Nat.div_add_mod (len - 48) (kSliceHeadSize + sliceSize)
    rw [← hcap] at hmod
    have hpadding : s.ml.header.padding = (len - 48) % (kSliceHeadSize + sliceSize) := hs.padding
    have hval : toSize ((len' : Int) - s.ml.header.padding - kHeaderSize) =
        (len' - len) + s.ml.capacity * (kSliceHeadSize + sliceSize) := by
      unfold kHeaderSize
      rw [mul_comm] at hmod
      rw [toSize_of_range (by omega) (by omega)]
      omega
    rw [hval, Nat.add_mul_div_right _ _ (by unfold kSliceHeadSize; omega), add_comm]
  unfold restoreFrom
  simp only [hend, hbuf, hr, hpad]
  rw [if_neg (by unfold kHeaderSize; omega), if_neg]
  rw [hs.bufferLength, hs.magic, hs.sliceSize]
  push Not
  exact ⟨by omega, rfl, rfl⟩

/-- Every state that is reached keeps its lists and what `CreateFrom` has recorded. -/
theorem inv_of_run {mem : Mem} {calls : List Call} (hfit : SumsFit start len sliceSize)
    (hc : createFrom start len sliceSize mem = some (some ml)) (hrun : Run Step ⟨ml, []⟩ calls s) :
    Inv s ∧ Stamped start len sliceSize s.ml :=
  Run.invariant (I := fun s => Inv s ∧ Stamped start len sliceSize s.ml)
    (fun _ _ _ h hst => ⟨inv_step h.1 hst, stamped_step h.1 h.2 hst⟩) hrun
    ⟨(inv_createFrom hfit hc).1, stamped_createFrom hfit hc⟩

/-- A saved state that has been restored: its lists at the new place, and what `RestoreFrom` returned. -/
structure Reopened (s : Client) (start len start' len' sliceSize : Nat) (mem' : Mem) (ml' : MemoryList) : Prop where
  inv : Inv s
  stamped : Stamped start len sliceSize s.ml
  restore : restoreFrom start' len' s.ml.header.sliceSize s.ml.header mem' = some ml'
  buf : ml'.buf = start' + kHeaderSize
  endAddr : ml'.endAddr = start' + len'
  sliceRealSize : ml'.sliceRealSize = s.ml.sliceRealSize
  mem : ml'.mem = mem'
  capacity : ml'.capacity = s.ml.capacity + (len' - len) / (kSliceHeadSize + sliceSize)
  room : ml'.buf + ((ml'.endAddr - ml'.buf) / ml'.sliceRealSize + 1) * ml'.sliceRealSize < 2 ^ 64
  lists : Inv ⟨ml'.resize (ml'.buf + s.ml.capacity * ml'.sliceRealSize) s.ml.capacity, s.held⟩

section Grown

variable {mem mem' : Mem} {calls : List Call} {start' len' : Nat} (hfit : SumsFit start len sliceSize)
  (hc : createFrom start len sliceSize mem = some (some ml)) (hrun : Run Step ⟨ml, []⟩ calls s) (hgrow : len < len')
  (hfit' : SumsFit start' len' sliceSize) (hcopy : ∀ j : Nat, j < len → mem' (start' + j) = s.ml.mem (start + j))
include hfit hc hrun hgrow hfit' hcopy

/-- `RestoreFrom` always succeeds on a buffer that grew. -/
theorem reopened : ∃ ml', Reopened s start len start' len' sliceSize mem' ml' := by
  obtain ⟨hinv, hs⟩ := inv_of_run hfit hc hrun
  obtain ⟨hlen, -⟩ := createFrom_make hfit hc
  have hreal : s.ml.sliceRealSize = kSliceHeadSize + sliceSize := by rw [hinv.real, hs.sliceSize]
  have hrestore := restoreFrom_eq mem' hinv hs hlen (by omega) (by omega) hfit'
  generalize hml' : MemoryList.mk _ _ _ _ _ _ _ = ml' at hrestore
  have hbuf : ml'.buf = start' + kHeaderSize := by rw [← hml']
  have hreal' : ml'.sliceRealSize = s.ml.sliceRealSize := by rw [← hml', hreal]
  have hmem : ml'.mem = mem' := by rw [← hml']
  have hheader : ml'.header = s.ml.header := by rw [← hml']
  have hcap : ml'.capacity = s.ml.capacity + (len' - len) / (kSliceHeadSize + sliceSize) := by rw [← hml']
  have hend : ml'.endAddr = start' + len' := by rw [← hml']
  have hroom : ml'.buf + ((ml'.endAddr - ml'.buf) / ml'.sliceRealSize + 1) * ml'.sliceRealSize < 2 ^ 64 := by
    rw [hbuf, hend, hreal', hreal, Nat.add_sub_add_left]
    exact hfit'
  have hle : s.ml.capacity ≤ (ml'.endAddr - ml'.buf) / ml'.sliceRealSize := by
    rw [hinv.fits.cap, hs.endAddr, hs.buf, hend, hbuf, hreal', Nat.add_sub_add_left, Nat.add_sub_add_left]
    exact Nat.div_le_div_right (by omega)
  have hexact : ml'.buf + (s.ml.capacity + 1) * ml'.sliceRealSize < 2 ^ 64 := by
    refine lt_of_le_of_lt ?_ hroom
    exact Nat.add_le_add_left (Nat.mul_le_mul_right _ (by omega)) _
  have hlists := inv_copy hinv hs hbuf hreal' hmem hheader hcopy hexact
  exact ⟨ml', hinv, hs, by rw [hs.sliceSize, hrestore], hbuf, hend, hreal', hmem, hcap, hroom, hlists⟩

/-- A buffer that grew by a slice or more breaks the contract. -/
theorem growth_lt (hspec : RestoreSpec s start' len' mem') : len' - len < kSliceHeadSize + sliceSize := by
  obtain ⟨ml', hre⟩ := reopened hfit hc hrun hgrow hfit' hcopy
  obtain ⟨ml₁, hres, -, -, hgoes⟩ := hspec
  by_contra hbig
  rw [hre.restore] at hres
  obtain rfl := Option.some.inj hres
  have hmore : s.ml.capacity < ml'.capacity := by
    have hpos : 0 < (len' - len) / (kSliceHeadSize + sliceSize) := Nat.div_pos (by omega) (by unfold kSliceHeadSize; omega)
    have hcap := hre.capacity
    omega
  obtain ⟨calls', t, hrun', hfull, hnone⟩ := drained (s := ⟨ml', s.held⟩) hre.lists hmore
  obtain ⟨ml'', r, hget, hr₀, -⟩ := hgoes calls' t hrun' hfull
  rw [hnone] at hget
  obtain ⟨-, rfl⟩ := Prod.mk.inj (Option.some.inj hget)
  exact ne_invalid hr₀ rfl

/-- A buffer that grew by less goes on as before. -/
theorem restoreSpec_of_growth_lt (hsmall : len' - len < kSliceHeadSize + sliceSize) : RestoreSpec s start' len' mem' := by
  obtain ⟨ml', hre⟩ := reopened hfit hc hrun hgrow hfit' hcopy
  have hsame : ml'.capacity = s.ml.capacity := by
    rw [hre.capacity, Nat.div_eq_of_lt hsmall, Nat.add_zero]
  have hlists := hre.lists
  have hrestored : Restored ⟨ml', s.held⟩ := by
    refine ⟨?_, hre.room, ml'.buf + s.ml.capacity * ml'.sliceRealSize, ?_⟩
    · obtain ⟨hlen, -⟩ := createFrom_make hfit hc
      show ml'.buf ≤ ml'.endAddr
      rw [hre.buf, hre.endAddr]
      omega
    · show Inv ⟨ml'.resize _ ml'.capacity, s.held⟩
      rw [hsame]
      exact hlists
  obtain ⟨F, U, hp, hheld⟩ := hlists.lists
  refine ⟨ml', hre.restore, ⟨U, hp.used, hheld⟩, ?_, ?_⟩
  · intro i hi off hoff
    obtain ⟨h₀, h₁⟩ := hp.mem_iff.mp (Or.inr (hheld.mem_iff.mpr hi))
    have hk : 8 + off < s.ml.sliceRealSize := by
      rw [hre.inv.real]
      unfold kSliceHeadSize
      omega
    have hbyte := byte_copy hre.inv hre.stamped hre.buf hre.sliceRealSize hre.mem hcopy h₀ h₁ hk
    push_cast at hbyte
    rw [← add_assoc, ← add_assoc] at hbyte
    exact hbyte
  · intro calls' t hrun' hfull
    exact (Run.invariant (I := Restored) (fun _ _ _ h hst => restored_step h hst) hrun' hrestored).getSlice hfull

/-- **A saved state is restored as it was exactly when the buffer grew by less than a slice.** -/
theorem restoreSpec_iff : RestoreSpec s start' len' mem' ↔ len' - len < kSliceHeadSize + sliceSize :=
  ⟨growth_lt hfit hc hrun hgrow hfit' hcopy, restoreSpec_of_growth_lt hfit hc hrun hgrow hfit' hcopy⟩

end Grown

/-- Three slices of sixteen bytes, saved at once. -/
theorem createFrom_three : ∃ ml, createFrom 4096 120 16 (fun _ => 0) = some (some ml) := by
  have hc : (createFrom 4096 120 16 (fun _ => 0)).join.isSome = true := by decide +kernel
  obtain ⟨ml, hj⟩ := Option.isSome_iff_exists.mp hc
  exact ⟨ml, Option.join_eq_some_iff.mp hj⟩

/-- Two of the three slices are got, the first is freed again, and a byte is stored in the second. -/
theorem createFrom_three_used : ∃ ml s, createFrom 4096 120 16 (fun _ => 0) = some (some ml) ∧
    Run Step ⟨ml, []⟩ [.getSlice 0, .getSlice 1, .freeSlice 0, .store 1 3 7] s := by
  have hc : ((createFrom 4096 120 16 (fun _ => 0)).join.bind fun ml =>
      ml.getSlice.bind fun p => p.1.getSlice.bind fun q => (q.1.freeSlice p.2).bind fun ml' =>
        (ml'.getBuffer q.2).map fun addr => (p.2, q.2, addr, ml'.header.sliceSize)) = some (0, 1, 4176, 16) := by
    decide +kernel
  simp only [Option.bind_eq_some_iff, Option.map_eq_some_iff, Prod.mk.injEq] at hc
  obtain ⟨ml, hml, ⟨ml₁, i⟩, h₁, ⟨ml₂, j⟩, h₂, ml₃, h₃, addr, haddr, rfl, rfl, rfl, hsize⟩ := hc
  have hone : Step ⟨ml, []⟩ (.getSlice 0) ⟨ml₁, [0]⟩ := ⟨h₁, rfl⟩
  have htwo : Step ⟨ml₁, [0]⟩ (.getSlice 1) ⟨ml₂, [1, 0]⟩ := ⟨h₂, rfl⟩
  have hfree : Step ⟨ml₂, [1, 0]⟩ (.freeSlice 0) ⟨ml₃, [1]⟩ := ⟨by simp, h₃, rfl⟩
  have hstore : Step ⟨ml₃, [1]⟩ (.store 1 3 7) _ := ⟨by simp, by rw [hsize]; decide, _, haddr, rfl⟩
  exact ⟨ml, _, Option.join_eq_some_iff.mp hml, (((Run.single hone).tail htwo).tail hfree).tail hstore⟩

/-- Ten bytes more do no harm to a buffer with one slice in use, one freed and one never got. -/
theorem restoreSpec_ten : ∃ ml s, createFrom 4096 120 16 (fun _ => 0) = some (some ml) ∧
    Run Step ⟨ml, []⟩ [.getSlice 0, .getSlice 1, .freeSlice 0, .store 1 3 7] s ∧
    RestoreSpec s 4096 130 s.ml.mem := by
  obtain ⟨ml, s, hml, hrun⟩ := createFrom_three_used
  exact ⟨ml, s, hml, hrun,
    (restoreSpec_iff (by decide) hml hrun (by decide) (by decide) fun _ _ => rfl).mpr (by decide)⟩

/-- **A fourth slice is counted but never free.** -/
theorem not_restoreSpec_slice : ∃ ml, createFrom 4096 120 16 (fun _ => 0) = some (some ml) ∧
    ¬ RestoreSpec ⟨ml, []⟩ 4096 144 ml.mem := by
  obtain ⟨ml, hml⟩ := createFrom_three
  refine ⟨ml, hml, fun hspec => ?_⟩
  exact absurd (growth_lt (by decide) hml Run.refl (by decide) (by decide) (fun _ _ => rfl) hspec) (by decide)

end MemoryList
end Snippets
