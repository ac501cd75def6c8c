import Mathlib.Tactic.Linarith
import Snippets.Lib.Links
import Snippets.MemoryList.Model

/-!
# `MemoryList.Lists` — the two lists threaded through the slice heads

Read as a table of links, the slice heads of a buffer are edited by `GetSlice` and `FreeSlice` exactly as
`Lib.Links` says: `GetSlice` pops the front of the free list and pushes it on the used list, `FreeSlice`
unlinks a used slice and pushes it on the free list. `Partition ml F U` is the invariant: the free list is
`F`, the used list is `U`, and together they are the ids `0 .. capacity - 1`.

All of this needs the addresses the source computes to be exact, which is the condition `Fits`.
-/

namespace Snippets

open Lib

namespace MemoryList

/-! ## The heads as a link table -/

/-- The slice heads of a buffer at `buf` with slices of `r` bytes. -/
def headsAt (buf r : Nat) (m : Mem) : Links SliceId :=
  { next := fun i => m.readInt32 (buf + r * i)
    prev := fun i => m.readInt32 (buf + r * i + 4) }

def heads (ml : MemoryList) : Links SliceId := headsAt ml.buf ml.sliceRealSize ml.mem

/-- Distinct slices are at least a slice apart. -/
theorem slice_apart {r : Nat} {i j : Int} (hij : i ≠ j) :
    (r : Int) * i + r ≤ r * j ∨ (r : Int) * j + r ≤ r * i := by
  have hr : (0 : Int) ≤ r := Int.natCast_nonneg r
  rcases lt_or_gt_of_ne hij with h | h
  · left; nlinarith
  · right; nlinarith

variable {buf r : Nat} {m : Mem} {i v : Int}

theorem headsAt_writeNext (hr : 8 ≤ r) (h₁ : -(2 ^ 31) ≤ v) (h₂ : v < 2 ^ 31) :
    headsAt buf r (m.writeInt32 (buf + r * i) v) = (headsAt buf r m).setNext i v := by
  unfold headsAt Links.setNext
  refine congrArg₂ Links.mk (funext fun j => ?_) (funext fun j => ?_)
  · by_cases hj : j = i
    · rw [if_pos hj, hj, Mem.readInt32_writeInt32_self h₁ h₂]
    · have hap := slice_apart (r := r) hj
      rw [if_neg hj, Mem.readInt32_writeInt32_disjoint (by omega)]
  · by_cases hj : j = i
    · rw [hj, Mem.readInt32_writeInt32_disjoint (by omega)]
    · have hap := slice_apart (r := r) hj
      rw [Mem.readInt32_writeInt32_disjoint (by omega)]

theorem headsAt_writePrev (hr : 8 ≤ r) (h₁ : -(2 ^ 31) ≤ v) (h₂ : v < 2 ^ 31) :
    headsAt buf r (m.writeInt32 (buf + r * i + 4) v) = (headsAt buf r m).setPrev i v := by
  unfold headsAt Links.setPrev
  refine congrArg₂ Links.mk (funext fun j => ?_) (funext fun j => ?_)
  · by_cases hj : j = i
    · rw [hj, Mem.readInt32_writeInt32_disjoint (by omega)]
    · have hap := slice_apart (r := r) hj
      rw [Mem.readInt32_writeInt32_disjoint (by omega)]
  · by_cases hj : j = i
    · rw [if_pos hj, hj, Mem.readInt32_writeInt32_self h₁ h₂]
    · have hap := slice_apart (r := r) hj
      rw [if_neg hj, Mem.readInt32_writeInt32_disjoint (by omega)]

/-! ## Exact geometry -/

/-- No address or id computation over the buffer wraps: the sums `MakeSliceList` compares with `end_` are
    exact, up to and including the one that ends its loop. -/
structure Fits (ml : MemoryList) : Prop where
  room : ml.buf ≤ ml.endAddr
  real : 8 ≤ ml.sliceRealSize
  cap : ml.capacity = (ml.endAddr - ml.buf) / ml.sliceRealSize
  small : ml.capacity < 2 ^ 31
  exact : ml.buf + (ml.capacity + 1) * ml.sliceRealSize < 2 ^ 64

/-- An id of the buffer, or the invalid one. -/
def ValidId (ml : MemoryList) (id : Int) : Prop := id = kInvalidSliceId ∨ (0 ≤ id ∧ id < ml.capacity)

theorem ValidId.range {ml : MemoryList} (hf : Fits ml) {id : Int} (h : ValidId ml id) :
    -(2 ^ 31) ≤ id ∧ id < 2 ^ 31 := by
  have hs := hf.small
  rcases h with rfl | h
  · decide
  · omega

theorem ne_invalid {id : Int} (h : 0 ≤ id) : id ≠ kInvalidSliceId := by
  show id ≠ -1
  omega

/-- The end of a slice is no further than the end of the last one. -/
theorem slice_end_le {r c : Nat} {i : Int} (h : i < c) : (r : Int) * i + r ≤ c * r := by
  have hr : (0 : Int) ≤ r := Int.natCast_nonneg r
  nlinarith

/-- The address of a slice is computed exactly. -/
theorem getSliceById_eq {ml : MemoryList} (hf : Fits ml) {id : Int} (h₀ : 0 ≤ id) (h₁ : id < ml.capacity) :
    ∃ p : Nat, ml.getSliceById id = some (some p) ∧ (p : Int) = ml.buf + ml.sliceRealSize * id := by
  have hx := hf.exact
  have hle := slice_end_le (r := ml.sliceRealSize) h₁
  have hpos : (0 : Int) ≤ ml.sliceRealSize * id := Int.mul_nonneg (Int.natCast_nonneg _) h₀
  have hx' : (ml.buf : Int) + (ml.capacity * ml.sliceRealSize + ml.sliceRealSize) < 2 ^ 64 := by
    rw [Nat.add_one_mul] at hx
    exact_mod_cast hx
  refine ⟨(ml.buf + ml.sliceRealSize * id : Int).toNat, ?_, by omega⟩
  unfold getSliceById
  rw [if_neg (ne_invalid h₀), if_pos h₀, toSize_of_range (by omega) (by omega)]

theorem getSliceById_invalid (ml : MemoryList) : ml.getSliceById kInvalidSliceId = some none := if_pos rfl

/-- `GetSliceById` of a valid id passes its assert, and is `NULL` only for the invalid one. -/
theorem getSliceById_valid {ml : MemoryList} (hf : Fits ml) {id : Int} (h : ValidId ml id) :
    ∃ p, ml.getSliceById id = some p ∧ (p = none ↔ id = kInvalidSliceId) := by
  rcases h with rfl | ⟨h₀, h₁⟩
  · exact ⟨none, getSliceById_invalid ml, by simp⟩
  · obtain ⟨p, hp, -⟩ := getSliceById_eq hf h₀ h₁
    exact ⟨some p, hp, by simp [ne_invalid h₀]⟩

/-! ## What an edit of a head leaves alone -/

/-- The address lies in the head of one of the slices. -/
def InHead (ml : MemoryList) (x : Int) : Prop :=
  ∃ id : Int, 0 ≤ id ∧ id < ml.capacity ∧ ml.buf + ml.sliceRealSize * id ≤ x ∧
    x < ml.buf + ml.sliceRealSize * id + 8

/-- `ml'` is `ml` up to slice heads and the list fields of the header. -/
structure Frame (ml ml' : MemoryList) : Prop where
  endAddr : ml'.endAddr = ml.endAddr
  buf : ml'.buf = ml.buf
  capacity : ml'.capacity = ml.capacity
  sliceRealSize : ml'.sliceRealSize = ml.sliceRealSize
  sliceSize : ml'.header.sliceSize = ml.header.sliceSize
  outside : ∀ x, ¬ InHead ml x → ml'.mem x = ml.mem x

variable {ml ml₁ ml₂ ml₃ : MemoryList} {id v : Int} {p : Option Nat}

theorem Frame.refl (ml : MemoryList) : Frame ml ml := ⟨rfl, rfl, rfl, rfl, rfl, fun _ _ => rfl⟩

theorem Frame.inHead (h : Frame ml₁ ml₂) (x : Int) : InHead ml₂ x ↔ InHead ml₁ x := by
  unfold InHead
  rw [h.buf, h.capacity, h.sliceRealSize]

theorem Frame.trans (h₁ : Frame ml₁ ml₂) (h₂ : Frame ml₂ ml₃) : Frame ml₁ ml₃ where
  endAddr := h₂.endAddr.trans h₁.endAddr
  buf := h₂.buf.trans h₁.buf
  capacity := h₂.capacity.trans h₁.capacity
  sliceRealSize := h₂.sliceRealSize.trans h₁.sliceRealSize
  sliceSize := h₂.sliceSize.trans h₁.sliceSize
  outside x hx := (h₂.outside x (mt (h₁.inHead x).mp hx)).trans (h₁.outside x hx)

theorem Frame.fits (h : Frame ml₁ ml₂) (hf : Fits ml₁) : Fits ml₂ := by
  refine ⟨?_, ?_, ?_, ?_, ?_⟩
  · rw [h.buf, h.endAddr]; exact hf.room
  · rw [h.sliceRealSize]; exact hf.real
  · rw [h.capacity, h.endAddr, h.buf, h.sliceRealSize]; exact hf.cap
  · rw [h.capacity]; exact hf.small
  · rw [h.capacity, h.buf, h.sliceRealSize]; exact hf.exact

theorem Frame.validId (h : Frame ml₁ ml₂) : ValidId ml₂ id ↔ ValidId ml₁ id := by
  unfold ValidId
  rw [h.capacity]

theorem Frame.getSliceById (h : Frame ml₁ ml₂) : ml₂.getSliceById id = ml₁.getSliceById id := by
  unfold MemoryList.getSliceById
  rw [h.buf, h.sliceRealSize]

/-! ### One lemma per store -/

theorem Frame.setFree (v : Int) : Frame ml (ml.setFree v) := ⟨rfl, rfl, rfl, rfl, rfl, fun _ _ => rfl⟩

theorem Frame.setUsed (v : Int) : Frame ml (ml.setUsed v) := ⟨rfl, rfl, rfl, rfl, rfl, fun _ _ => rfl⟩

theorem Frame.setSize (v : Int) : Frame ml (ml.setSize v) := ⟨rfl, rfl, rfl, rfl, rfl, fun _ _ => rfl⟩

/-- `ml'` differs from `ml` only in slice heads, which now read `l`. -/
structure Edit (ml : MemoryList) (l : Links SliceId) (ml' : MemoryList) : Prop where
  frame : Frame ml ml'
  heads : ml'.heads = l
  header : ml'.header = ml.header

/-- A stored head cell: either field of a valid slice. -/
theorem Edit.setSliceNext (hf : Fits ml) (h₀ : 0 ≤ id) (h₁ : id < ml.capacity) {a : Nat}
    (ha : (a : Int) = ml.buf + ml.sliceRealSize * id) (hv : ValidId ml v) :
    Edit ml (ml.heads.setNext id v) (ml.setSliceNext a v) := by
  refine ⟨⟨rfl, rfl, rfl, rfl, rfl, fun x hx => ?_⟩, ?_, rfl⟩
  · refine Mem.writeInt32_outside ?_
    by_contra hcon
    exact hx ⟨id, h₀, h₁, by omega, by omega⟩
  · show headsAt ml.buf ml.sliceRealSize (ml.mem.writeInt32 a v) = _
    rw [ha, headsAt_writeNext hf.real (hv.range hf).1 (hv.range hf).2]
    rfl

theorem Edit.setSlicePrev (hf : Fits ml) (h₀ : 0 ≤ id) (h₁ : id < ml.capacity) {a : Nat}
    (ha : (a : Int) = ml.buf + ml.sliceRealSize * id) (hv : ValidId ml v) :
    Edit ml (ml.heads.setPrev id v) (ml.setSlicePrev a v) := by
  refine ⟨⟨rfl, rfl, rfl, rfl, rfl, fun x hx => ?_⟩, ?_, rfl⟩
  · refine Mem.writeInt32_outside ?_
    by_contra hcon
    exact hx ⟨id, h₀, h₁, by omega, by omega⟩
  · show headsAt ml.buf ml.sliceRealSize (ml.mem.writeInt32 (a + 4) v) = _
    rw [ha, headsAt_writePrev hf.real (hv.range hf).1 (hv.range hf).2]
    rfl

theorem Edit.setSliceNext? (hf : Fits ml) (hid : ValidId ml id) (hp : ml.getSliceById id = some p)
    (hv : ValidId ml v) :
    Edit ml (ml.heads.setNext? kInvalidSliceId id v) (ml.setSliceNext? p v) := by
  rcases hid with rfl | ⟨h₀, h₁⟩
  · obtain rfl : none = p := Option.some.inj ((getSliceById_invalid ml).symm.trans hp)
    exact ⟨Frame.refl ml, (if_pos rfl).symm, rfl⟩
  · obtain ⟨a, ha, hadr⟩ := getSliceById_eq hf h₀ h₁
    obtain rfl : some a = p := Option.some.inj (ha.symm.trans hp)
    unfold Links.setNext?
    rw [if_neg (ne_invalid h₀)]
    exact Edit.setSliceNext hf h₀ h₁ hadr hv

theorem Edit.setSlicePrev? (hf : Fits ml) (hid : ValidId ml id) (hp : ml.getSliceById id = some p)
    (hv : ValidId ml v) :
    Edit ml (ml.heads.setPrev? kInvalidSliceId id v) (ml.setSlicePrev? p v) := by
  rcases hid with rfl | ⟨h₀, h₁⟩
  · obtain rfl : none = p := Option.some.inj ((getSliceById_invalid ml).symm.trans hp)
    exact ⟨Frame.refl ml, (if_pos rfl).symm, rfl⟩
  · obtain ⟨a, ha, hadr⟩ := getSliceById_eq hf h₀ h₁
    obtain rfl : some a = p := Option.some.inj (ha.symm.trans hp)
    unfold Links.setPrev?
    rw [if_neg (ne_invalid h₀)]
    exact Edit.setSlicePrev hf h₀ h₁ hadr hv

/-- The stores that put a slice in front of a list are `Links.pushFront`. -/
theorem Edit.pushFront (hf : Fits ml) (h₀ : 0 ≤ id) (h₁ : id < ml.capacity) {a : Nat}
    (ha : (a : Int) = ml.buf + ml.sliceRealSize * id) {h : Int} (hh : ValidId ml h)
    (hp : ml.getSliceById h = some p) :
    Edit ml (Links.pushFront kInvalidSliceId ml.heads h id)
      (((ml.setSlicePrev a kInvalidSliceId).setSliceNext a h).setSlicePrev? p id) := by
  have e₁ : Edit ml _ (ml.setSlicePrev a kInvalidSliceId) := Edit.setSlicePrev hf h₀ h₁ ha (Or.inl rfl)
  have e₂ := Edit.setSliceNext (e₁.frame.fits hf) h₀ h₁ ha (v := h) hh
  have f₂ := e₁.frame.trans e₂.frame
  have e₃ := Edit.setSlicePrev? (f₂.fits hf) (f₂.validId.mpr hh) (f₂.getSliceById.trans hp)
    (f₂.validId.mpr (Or.inr ⟨h₀, h₁⟩) : ValidId _ id)
  refine ⟨f₂.trans e₃.frame, ?_, ?_⟩
  · rw [e₃.heads, e₂.heads, e₁.heads]
    rfl
  · rw [e₃.header, e₂.header, e₁.header]

@[simp] theorem getSliceById_setFree (i : Int) : (ml.setFree v).getSliceById i = ml.getSliceById i := rfl

@[simp] theorem getSliceById_setUsed (i : Int) : (ml.setUsed v).getSliceById i = ml.getSliceById i := rfl

@[simp] theorem getSliceById_setSliceNext (a : Nat) (i : Int) :
    (ml.setSliceNext a v).getSliceById i = ml.getSliceById i := rfl

@[simp] theorem getSliceById_setSlicePrev (a : Nat) (i : Int) :
    (ml.setSlicePrev a v).getSliceById i = ml.getSliceById i := rfl

@[simp] theorem setSlicePrev?_setFree {w : Int} :
    (ml.setFree w).setSlicePrev? p v = (ml.setSlicePrev? p v).setFree w := by cases p <;> rfl

@[simp] theorem header_setSlicePrev? : (ml.setSlicePrev? p v).header = ml.header := by cases p <;> rfl

@[simp] theorem header_setSliceNext? : (ml.setSliceNext? p v).header = ml.header := by cases p <;> rfl

@[simp] theorem header_setSlicePrev (a : Nat) : (ml.setSlicePrev a v).header = ml.header := rfl

@[simp] theorem header_setSliceNext (a : Nat) : (ml.setSliceNext a v).header = ml.header := rfl

@[simp] theorem header_setFree : (ml.setFree v).header = { ml.header with free := v } := rfl

@[simp] theorem header_setUsed : (ml.setUsed v).header = { ml.header with used := v } := rfl

@[simp] theorem header_setSize : (ml.setSize v).header = { ml.header with size := toSize v } := rfl

@[simp] theorem heads_setFree : (ml.setFree v).heads = ml.heads := rfl

@[simp] theorem heads_setUsed : (ml.setUsed v).heads = ml.heads := rfl

@[simp] theorem heads_setSize : (ml.setSize v).heads = ml.heads := rfl

/-- Reading the head of a slice through its address. -/
theorem sliceNext_eq {a : Nat} (ha : (a : Int) = ml.buf + ml.sliceRealSize * id) :
    ml.sliceNext a = ml.heads.next id := by
  unfold sliceNext heads headsAt
  rw [ha]

theorem slicePrev_eq {a : Nat} (ha : (a : Int) = ml.buf + ml.sliceRealSize * id) :
    ml.slicePrev a = ml.heads.prev id := by
  unfold slicePrev heads headsAt
  rw [ha]

/-! ## `GetSlice` and `FreeSlice` as edits of the link table -/

theorem takeFree_eq (hf : Fits ml) {a : Nat} {i n : Int} (ha : (a : Int) = ml.buf + ml.sliceRealSize * i)
    (hin : ml.heads.next i = n) (hn : ValidId ml n) :
    ∃ ml', ml.takeFree a = some ml' ∧ Frame ml ml' ∧ ml'.header = { ml.header with free := n } ∧
      ml'.heads = Links.popFront kInvalidSliceId ml.heads i := by
  obtain ⟨q, hq, -⟩ := getSliceById_valid hf hn
  have e := Edit.setSlicePrev? hf hn hq (Or.inl rfl : ValidId ml kInvalidSliceId)
  have hna : ml.sliceNext a = n := (sliceNext_eq ha).trans hin
  have hna' : (ml.setFree n).sliceNext a = n := hna
  refine ⟨(ml.setSlicePrev? q kInvalidSliceId).setFree n, ?_, e.frame.trans (Frame.setFree n), ?_, ?_⟩
  · unfold takeFree
    simp only [hna, hna', getSliceById_setFree, hq, Option.map_some, setSlicePrev?_setFree]
  · rw [header_setFree, header_setSlicePrev?]
  · rw [heads_setFree, e.heads]
    unfold Links.popFront
    rw [hin]

theorem putUsed_eq (hf : Fits ml) {a : Nat} {i : Int} (h₀ : 0 ≤ i) (h₁ : i < ml.capacity)
    (ha : (a : Int) = ml.buf + ml.sliceRealSize * i) (hu : ValidId ml ml.header.used) :
    ∃ ml', ml.putUsed a i = some ml' ∧ Frame ml ml' ∧ ml'.header = { ml.header with used := i } ∧
      ml'.heads = Links.pushFront kInvalidSliceId ml.heads ml.header.used i := by
  obtain ⟨o, ho, -⟩ := getSliceById_valid hf hu
  have e := Edit.pushFront ((Frame.setUsed i).fits hf) h₀ h₁ ha ((Frame.setUsed i).validId.mpr hu) ho
  refine ⟨_, ?_, (Frame.setUsed i).trans e.frame, e.header, e.heads⟩
  unfold putUsed
  simp only [getSliceById_setSliceNext, getSliceById_setSlicePrev, getSliceById_setUsed, ho, Option.map_some]

theorem putFree_eq (hf : Fits ml) {a : Nat} {i : Int} (h₀ : 0 ≤ i) (h₁ : i < ml.capacity)
    (ha : (a : Int) = ml.buf + ml.sliceRealSize * i) (hv : ValidId ml ml.header.free) :
    ∃ ml', ml.putFree a i = some ml' ∧ Frame ml ml' ∧ ml'.header = { ml.header with free := i } ∧
      ml'.heads = Links.pushFront kInvalidSliceId ml.heads ml.header.free i := by
  obtain ⟨o, ho, -⟩ := getSliceById_valid hf hv
  have e := Edit.pushFront hf h₀ h₁ ha hv ho
  refine ⟨_, ?_, e.frame.trans (Frame.setFree i), ?_, e.heads⟩
  · unfold putFree
    simp only [getSliceById_setFree, getSliceById_setSliceNext, getSliceById_setSlicePrev, ho, Option.map_some,
      setSlicePrev?_setFree]
  · rw [header_setFree, e.header]

/-- The stores of `unlinkSlice` are `Links.unlink`. -/
theorem unlinkSlice_edit (hf : Fits ml) {a : Nat} {i pr n : Int} (ha : (a : Int) = ml.buf + ml.sliceRealSize * i)
    (hip : ml.heads.prev i = pr) (hin : ml.heads.next i = n) (hpr : ValidId ml pr) (hn : ValidId ml n)
    {q o : Option Nat} (hq : ml.getSliceById pr = some q) (ho : ml.getSliceById n = some o) :
    Edit ml (Links.unlink kInvalidSliceId ml.heads i) (ml.unlinkSlice a q o) := by
  have e₁ := Edit.setSliceNext? hf hpr hq hn
  have f₁ := e₁.frame
  have e₂ := Edit.setSlicePrev? (f₁.fits hf) (f₁.validId.mpr hn) (f₁.getSliceById.trans ho) (f₁.validId.mpr hpr)
  have hpa : (ml.setSliceNext? q n).slicePrev a = pr := by
    rw [slicePrev_eq (by rw [f₁.buf, f₁.sliceRealSize]; exact ha), e₁.heads]
    unfold Links.setNext?
    split <;> exact hip
  unfold unlinkSlice
  simp only [sliceNext_eq ha, hin, hpa]
  refine ⟨f₁.trans e₂.frame, ?_, e₂.header.trans e₁.header⟩
  rw [e₂.heads, e₁.heads]
  unfold Links.unlink
  rw [hin, hip]

/-- Unlinking a used slice: the head of the used list moves on only when the head itself goes, and then its
    `prev` must be invalid. -/
theorem dropUsed_eq (hf : Fits ml) {a : Nat} {i pr n : Int} (ha : (a : Int) = ml.buf + ml.sliceRealSize * i)
    (hip : ml.heads.prev i = pr) (hin : ml.heads.next i = n) (hpr : ValidId ml pr) (hn : ValidId ml n)
    (hself : pr ≠ i) (hhead : ml.header.used = i → pr = kInvalidSliceId) :
    ∃ ml', ml.dropUsed a i = some ml' ∧ Frame ml ml' ∧
      ml'.header = { ml.header with used := if ml.header.used = i then n else ml.header.used } ∧
      ml'.heads = Links.unlink kInvalidSliceId ml.heads i := by
  obtain ⟨q, hq, hqn⟩ := getSliceById_valid hf hpr
  obtain ⟨o, ho, -⟩ := getSliceById_valid hf hn
  have e := unlinkSlice_edit hf ha hip hin hpr hn hq ho
  have hdrop : ml.dropUsed a i = (ml.unlinkSlice a q o).advanceUsed a q i := by
    unfold dropUsed
    rw [slicePrev_eq ha, sliceNext_eq ha, hip, hin, hq, ho]
  rw [hdrop]
  generalize ml.unlinkSlice a q o = ml₁ at e
  have hna : ml₁.sliceNext a = n := by
    rw [sliceNext_eq (by rw [e.frame.buf, e.frame.sliceRealSize]; exact ha), e.heads,
      Links.unlink_next_ne (by rw [hip]; exact Ne.symm hself), hin]
  unfold advanceUsed
  rw [e.header]
  by_cases hu : ml.header.used = i
  · refine ⟨ml₁.setUsed n, ?_, e.frame.trans (Frame.setUsed n), ?_, e.heads⟩
    · rw [if_pos hu, if_pos (hqn.mpr (hhead hu)), hna]
    · rw [header_setUsed, e.header, if_pos hu]
  · refine ⟨ml₁, ?_, e.frame, ?_, e.heads⟩
    · rw [if_neg hu]
    · rw [e.header, if_neg hu]

end MemoryList
end Snippets
