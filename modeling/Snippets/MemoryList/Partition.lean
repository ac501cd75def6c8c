import Mathlib.Data.List.Perm.Basic
import Mathlib.Data.List.Nodup
import Snippets.MemoryList.Lists

/-!
# `MemoryList.Partition` — free and used slices always partition the buffer

`Partition ml F U` says that the free list of `ml` is `F`, its used list is `U`, and that the two together hold
every id of the buffer once. `GetSlice`, `FreeSlice` of a used id, `clear` and the client's own stores keep it
(`Partition.getSlice`, `Partition.freeSlice`), and `CreateFrom` establishes it.
-/

namespace Snippets

open Lib Links

namespace MemoryList

/-- The ids of a buffer of `n` slices. -/
def ids (n : Nat) : List SliceId := (List.range n).map fun k : Nat => (k : Int)

/-- The ids below `n`, -/
theorem mem_ids {n : Nat} {i : Int} : i ∈ ids n ↔ 0 ≤ i ∧ i < n := by
  unfold ids
  rw [List.mem_map]
  constructor
  · rintro ⟨k, hk, rfl⟩
    have := List.mem_range.mp hk
    omega
  · rintro ⟨h₀, h₁⟩
    exact ⟨i.toNat, List.mem_range.mpr (by omega), by omega⟩

/-- each of them once. -/
theorem nodup_ids (n : Nat) : (ids n).Nodup :=
  (List.nodup_range (n := n)).map fun a b h => by simpa using h

/-- The free list is `F`, the used list is `U`; each id of the buffer is in exactly one of them, once. -/
structure Partition (ml : MemoryList) (F U : List SliceId) : Prop where
  free : Chain ml.heads kInvalidSliceId kInvalidSliceId ml.header.free F
  used : Chain ml.heads kInvalidSliceId kInvalidSliceId ml.header.used U
  perm : (F ++ U).Perm (ids ml.capacity)
  size : ml.size = U.length

namespace Partition

variable {ml ml' : MemoryList} {F U : List SliceId} {i : Int}

/-- No slice is in a list twice or in both lists, -/
theorem nodup (h : Partition ml F U) : (F ++ U).Nodup := h.perm.nodup_iff.mpr (nodup_ids _)

/-- each is in one of them, -/
theorem mem_iff (h : Partition ml F U) : i ∈ F ∨ i ∈ U ↔ 0 ≤ i ∧ i < ml.capacity := by
  rw [← List.mem_append, h.perm.mem_iff, mem_ids]

/-- a free one is not used, -/
theorem not_mem_both (h : Partition ml F U) (hF : i ∈ F) : i ∉ U := fun hU =>
  (List.disjoint_of_nodup_append h.nodup) hF hU

/-- there are as many as the capacity, -/
theorem length (h : Partition ml F U) : F.length + U.length = ml.capacity := by
  have := h.perm.length_eq
  rw [List.length_append] at this
  rw [this]
  simp [ids]

/-- and what the links of the lists hold is valid. -/
theorem valid (h : Partition ml F U) (hi : i = kInvalidSliceId ∨ i ∈ F ∨ i ∈ U) : ValidId ml i :=
  hi.imp_right h.mem_iff.mp

/-- The head of a list is one of its members or invalid. -/
theorem head_valid {l : Links SliceId} {p hd : Int} {is : List SliceId} (hc : Chain l kInvalidSliceId p hd is) :
    hd = kInvalidSliceId ∨ hd ∈ is := by
  cases is with
  | nil => exact Or.inl hc
  | cons j is => exact Or.inr (by rw [hc.1]; exact List.mem_cons_self)

/-- `size() == capacity()` exactly when nothing is free. -/
theorem full_iff (h : Partition ml F U) : ml.size = ml.capacity ↔ F = [] := by
  have hl := h.length
  rw [h.size, ← List.length_eq_zero_iff]
  omega

/-- Nothing free, nothing taken. -/
theorem getSlice_empty (h : Partition ml [] U) : ml.getSlice = some (ml, kInvalidSliceId) := by
  unfold MemoryList.getSlice
  exact if_pos h.free

/-- `GetSlice` moves the first free slice to the front of the used list. -/
theorem getSlice (hf : Fits ml) (h : Partition ml (i :: F) U) :
    ∃ ml', ml.getSlice = some (ml', i) ∧ Frame ml ml' ∧ Partition ml' F (i :: U) := by
  have hnd := h.nodup
  rw [List.cons_append] at hnd
  obtain ⟨hiFU, hndFU⟩ := List.nodup_cons.mp hnd
  have hiU : i ∉ U := fun hm => hiFU (List.mem_append_right _ hm)
  have hiF : i ∉ F := fun hm => hiFU (List.mem_append_left _ hm)
  obtain ⟨hndF, hndU, hdisj⟩ := List.nodup_append.mp hndFU
  obtain ⟨h₀, h₁⟩ := h.mem_iff.mp (Or.inl (List.mem_cons_self (a := i)))
  have hfree : ml.header.free = i := h.free.1
  have hnext : ml.heads.next i = kInvalidSliceId ∨ ml.heads.next i ∈ F := head_valid h.free.2.2.2
  obtain ⟨a, ha, hadr⟩ := getSliceById_eq hf h₀ h₁
  -- the two halves of `GetSlice`
  obtain ⟨ml₁, hr₁, f₁, hh₁, hl₁⟩ := takeFree_eq hf hadr rfl
    (h.valid (hnext.imp_right fun hm => Or.inl (List.mem_cons_of_mem _ hm)))
  have hused : ml₁.header.used = ml.header.used := by rw [hh₁]
  obtain ⟨ml₂, hr₂, f₂, hh₂, hl₂⟩ := putUsed_eq (f₁.fits hf) h₀ (by rw [f₁.capacity]; exact h₁)
    (by rw [f₁.buf, f₁.sliceRealSize]; exact hadr)
    (f₁.validId.mpr (by rw [hused]; exact h.valid ((head_valid h.used).imp_right Or.inr)))
  rw [hl₁, hused] at hl₂
  have hsize : ml₂.header.size = ml.header.size := by rw [hh₂, hh₁]
  refine ⟨ml₂.setSize (ml₂.header.size + 1), ?_, (f₁.trans f₂).trans (Frame.setSize _), ?_, ?_, ?_, ?_⟩
  · unfold MemoryList.getSlice
    rw [if_neg (by rw [hfree]; exact ne_invalid h₀), hfree, ha]
    simp only [hr₁, hr₂, Option.bind_some, Option.map_some]
  · -- the rest of the free list: the used list's head is no free cell
    rw [heads_setSize, hl₂, header_setSize]
    show Chain _ _ _ ml₂.header.free _
    rw [hh₂, hh₁]
    refine (Chain.popFront h.free hndF).congr fun j hj => ?_
    have hji : j ≠ i := fun e => hiF (e ▸ hj)
    have hju : j ≠ ml.header.used := by
      rcases head_valid h.used with e | hm
      · rw [e]; exact h.free.ne_nil j (List.mem_cons_of_mem _ hj)
      · exact fun e => hdisj j hj _ hm e
    exact ⟨pushFront_next_ne hji, pushFront_prev_ne hji hju⟩
  · -- the used list: popping the free list leaves its cells alone
    rw [heads_setSize, hl₂, header_setSize]
    show Chain _ _ _ ml₂.header.used _
    rw [hh₂]
    refine Chain.pushFront (h.used.congr fun j hj => ⟨popFront_next j, popFront_prev_ne ?_⟩) hndU
      (ne_invalid h₀) hiU
    rcases hnext with e | hm
    · rw [e]; exact h.used.ne_nil j hj
    · exact fun e => hdisj _ hm j hj e.symm
  · show (F ++ i :: U).Perm (ids ml₂.capacity)
    rw [(f₁.trans f₂).capacity]
    exact List.perm_middle.trans h.perm
  · have hs := h.size
    have hl := h.length
    have hc := hf.small
    rw [MemoryList.size, header_setSize, hsize]
    show toSize _ = _
    rw [MemoryList.size] at hs
    rw [List.length_cons] at hl
    rw [toSize_of_range (by omega) (by omega), List.length_cons]
    omega

/-- `FreeSlice` of a used id moves it to the front of the free list; none of its asserts fails. -/
theorem freeSlice (hf : Fits ml) (h : Partition ml F U) (hi : i ∈ U) :
    ∃ ml', ml.freeSlice i = some ml' ∧ Frame ml ml' ∧ Partition ml' (i :: F) (U.erase i) := by
  obtain ⟨hndF, hndU, hdisj⟩ := List.nodup_append.mp h.nodup
  have hiF : i ∉ F := fun hm => h.not_mem_both hm hi
  obtain ⟨h₀, h₁⟩ := h.mem_iff.mp (Or.inr hi)
  have hnilU : kInvalidSliceId ∉ U := fun hm => h.used.ne_nil _ hm rfl
  have hnext : ml.heads.next i = kInvalidSliceId ∨ ml.heads.next i ∈ U := h.used.next_mem hi
  have hprev : ml.heads.prev i = kInvalidSliceId ∨ ml.heads.prev i ∈ U :=
    (h.used.prev_mem hi).imp_left And.right
  obtain ⟨a, ha, hadr⟩ := getSliceById_eq hf h₀ h₁
  have hcap : i < toInt32 ml.capacity := by
    have := hf.small
    rw [toInt32_of_range (by omega) (by omega)]
    exact h₁
  -- the two halves of `FreeSlice`
  obtain ⟨ml₁, hr₁, f₁, hh₁, hl₁⟩ := dropUsed_eq hf hadr rfl rfl (h.valid (hprev.imp_right Or.inr))
    (h.valid (hnext.imp_right Or.inr)) (h.used.prev_ne_self hndU hnilU hi) (fun e => h.used.prev_head e hi)
  have hfree : ml₁.header.free = ml.header.free := by rw [hh₁]
  obtain ⟨ml₂, hr₂, f₂, hh₂, hl₂⟩ := putFree_eq (f₁.fits hf) h₀ (by rw [f₁.capacity]; exact h₁)
    (by rw [f₁.buf, f₁.sliceRealSize]; exact hadr)
    (f₁.validId.mpr (by rw [hfree]; exact h.valid ((head_valid h.free).imp_right Or.inl)))
  rw [hl₁, hfree] at hl₂
  have hsize : ml₂.header.size = ml.header.size := by rw [hh₂, hh₁]
  refine ⟨ml₂.setSize (ml₂.header.size - 1), ?_, (f₁.trans f₂).trans (Frame.setSize _), ?_, ?_, ?_, ?_⟩
  · unfold MemoryList.freeSlice
    rw [if_neg (ne_invalid h₀), if_pos ⟨h₀, hcap⟩, ha]
    simp only [hr₁, hr₂, Option.bind_some, Option.map_some]
  · -- the free list: unlinking a used cell leaves its cells alone
    rw [heads_setSize, hl₂, header_setSize]
    show Chain _ _ _ ml₂.header.free _
    rw [hh₂]
    refine Chain.pushFront (h.free.congr fun j hj => ⟨unlink_next_ne ?_, unlink_prev_ne ?_⟩) hndF
      (ne_invalid h₀) hiF
    · rcases hprev with e | hm
      · rw [e]; exact h.free.ne_nil j hj
      · exact fun e => hdisj j hj _ hm e
    · rcases hnext with e | hm
      · rw [e]; exact h.free.ne_nil j hj
      · exact fun e => hdisj j hj _ hm e
  · -- the used list without `i`: pushing on the free list leaves its cells alone
    rw [heads_setSize, hl₂, header_setSize]
    show Chain _ _ _ ml₂.header.used _
    rw [hh₂, hh₁]
    refine (Chain.unlink h.used hndU hnilU hi).congr fun j hj => ?_
    have hjU : j ∈ U := List.mem_of_mem_erase hj
    have hji : j ≠ i := (hndU.mem_erase_iff.mp hj).1
    have hjf : j ≠ ml.header.free := by
      rcases head_valid h.free with e | hm
      · rw [e]; exact h.used.ne_nil j hjU
      · exact fun e => hdisj _ hm j hjU e.symm
    exact ⟨pushFront_next_ne hji, pushFront_prev_ne hji hjf⟩
  · show (i :: F ++ U.erase i).Perm (ids ml₂.capacity)
    rw [(f₁.trans f₂).capacity]
    exact ((List.perm_middle.symm.trans ((List.perm_cons_erase hi).symm.append_left F))).trans h.perm
  · have hs := h.size
    have hl := h.length
    have hc := hf.small
    have hpos := List.length_pos_of_mem hi
    rw [MemoryList.size, header_setSize, hsize]
    show toSize _ = _
    rw [MemoryList.size] at hs
    rw [toSize_of_range (by omega) (by omega), List.length_erase_of_mem hi]
    omega

end Partition

/-! ## `MakeSliceList`

The loop threads the slices together in order. It stops where no slice fits any more, which is at the capacity. -/

/-- The ids from `k` on. -/
def idsFrom (k n : Nat) : List SliceId := (List.range' k n).map fun j : Nat => (j : Int)

/-- The ids from zero on, -/
theorem ids_eq (n : Nat) : ids n = idsFrom 0 n := by
  unfold ids idsFrom
  rw [List.range_eq_range']

/-- one after the other. -/
theorem idsFrom_succ (k n : Nat) : idsFrom k (n + 1) = (k : Int) :: idsFrom (k + 1) n := by
  unfold idsFrom
  rw [List.range'_succ, List.map_cons]

section Loop

variable {buf e r cap : Nat}

/-- While the sums are exact, the loop test counts slices. -/
theorem loop_test (hr : 8 ≤ r) (hroom : buf ≤ e) (hcap : cap = (e - buf) / r) (hx : buf + (cap + 1) * r < 2 ^ 64)
    {k : Nat} (hk : k ≤ cap) :
    toSize ((buf + r * k : Nat) + r) = buf + r * (k + 1) ∧
      (toSize ((buf + r * k : Nat) + r) ≤ e ↔ k < cap) := by
  have hle : r * (k + 1) ≤ (cap + 1) * r := by
    rw [Nat.mul_comm r]
    exact Nat.mul_le_mul_right r (by omega)
  have hsum : buf + r * k + r = buf + r * (k + 1) := by rw [Nat.mul_add_one, Nat.add_assoc]
  have heq : toSize ((buf + r * k : Nat) + r) = buf + r * (k + 1) := by
    rw [toSize_of_range (by omega) (by omega)]
    omega
  refine ⟨heq, ?_⟩
  rw [heq, hcap, Nat.lt_iff_add_one_le, Nat.le_div_iff_mul_le (by omega), Nat.mul_comm r]
  omega

/-- The loop asks for an id that does not exist when more slices fit than ids are left. -/
theorem makeSliceLoop_overflow (hr : 8 ≤ r) (hroom : buf ≤ e) (hcap : cap = (e - buf) / r)
    (hx : buf + (cap + 1) * r < 2 ^ 64) (fuel : Nat) (m : Mem) (k : Nat) (hk : k + fuel < cap) (prev : Int) :
    makeSliceLoop r e fuel m (buf + r * k : Nat) prev = none := by
  induction fuel generalizing m k prev with
  | zero =>
      unfold makeSliceLoop
      rw [if_pos ((loop_test hr hroom hcap hx (by omega)).2.mpr (by omega))]
  | succ fuel ih =>
      obtain ⟨h₁, h₂⟩ := loop_test hr hroom hcap hx (k := k) (by omega)
      unfold makeSliceLoop
      rw [if_pos (h₂.mpr (by omega))]
      simp only [h₁]
      exact ih _ (k + 1) (by omega) _

/-- The head one iteration writes: `prev`, then `next`, which is overwritten in the last slice. -/
theorem link_head (m : Mem) (c pv v w : Int) (last : Prop) [Decidable last] (hpv : -(2 ^ 31) ≤ pv ∧ pv < 2 ^ 31)
    (hv : -(2 ^ 31) ≤ v ∧ v < 2 ^ 31) (hw : -(2 ^ 31) ≤ w ∧ w < 2 ^ 31) :
    ∃ m₁ : Mem, (if last then ((m.writeInt32 (c + 4) pv).writeInt32 c v).writeInt32 c w
        else (m.writeInt32 (c + 4) pv).writeInt32 c v) = m₁ ∧
      m₁.readInt32 c = (if last then w else v) ∧ m₁.readInt32 (c + 4) = pv ∧
      ∀ x : Int, x < c ∨ c + 8 ≤ x → m₁ x = m x := by
  by_cases hl : last
  · simp only [if_pos hl]
    refine ⟨_, rfl, Mem.readInt32_writeInt32_self hw.1 hw.2, ?_, fun x hx => ?_⟩
    · rw [Mem.readInt32_writeInt32_disjoint (by omega), Mem.readInt32_writeInt32_disjoint (by omega),
        Mem.readInt32_writeInt32_self hpv.1 hpv.2]
    · rw [Mem.writeInt32_outside (by omega), Mem.writeInt32_outside (by omega), Mem.writeInt32_outside (by omega)]
  · simp only [if_neg hl]
    refine ⟨_, rfl, Mem.readInt32_writeInt32_self hv.1 hv.2, ?_, fun x hx => ?_⟩
    · rw [Mem.readInt32_writeInt32_disjoint (by omega), Mem.readInt32_writeInt32_self hpv.1 hpv.2]
    · rw [Mem.writeInt32_outside (by omega), Mem.writeInt32_outside (by omega)]

/-- **The loop links the remaining slices** into one list from `k` on and touches nothing but their heads. -/
theorem makeSliceLoop_eq (hr : 8 ≤ r) (hroom : buf ≤ e) (hcap : cap = (e - buf) / r)
    (hx : buf + (cap + 1) * r < 2 ^ 64) (hsmall : cap < 2 ^ 31) (n : Nat) (m : Mem) (k fuel : Nat)
    (hk : k + n = cap) (hfuel : n ≤ fuel) :
    ∃ m', makeSliceLoop r e fuel m (buf + r * k : Nat) (k - 1) = some (m', buf + r * cap, (cap : Int) - 1) ∧
      Chain (headsAt buf r m') kInvalidSliceId (k - 1) (if n = 0 then kInvalidSliceId else k) (idsFrom k n) ∧
      ∀ x, (¬ ∃ j : Int, k ≤ j ∧ j < cap ∧ buf + r * j ≤ x ∧ x < buf + r * j + 8) → m' x = m x := by
  induction n generalizing m k fuel with
  | zero =>
      obtain rfl : k = cap := by omega
      refine ⟨m, ?_, rfl, fun _ _ => rfl⟩
      unfold makeSliceLoop
      rw [if_neg]
      rw [(loop_test hr hroom hcap hx (le_refl k)).2]
      omega
  | succ n ih =>
      obtain ⟨fuel, rfl⟩ : ∃ f, fuel = f + 1 := ⟨fuel - 1, by omega⟩
      obtain ⟨h₁, h₂⟩ := loop_test hr hroom hcap hx (k := k) (by omega)
      obtain ⟨-, h₃⟩ := loop_test hr hroom hcap hx (k := k + 1) (by omega)
      have hlast : toSize ((buf + r * (k + 1) : Nat) + r) > e ↔ n = 0 := by
        have : ¬ (toSize ((buf + r * (k + 1) : Nat) + r) ≤ e) ↔ ¬ (k + 1 < cap) := not_congr h₃
        omega
      obtain ⟨m₁, hm₁, hnext, hprev, hout⟩ := link_head m (buf + r * k : Nat) (k - 1) (k - 1 + 2)
        kInvalidSliceId (toSize ((buf + r * (k + 1) : Nat) + r) > e) (by omega) (by omega) (by decide)
      obtain ⟨m', hloop, hchain, hframe⟩ := ih m₁ (k + 1) fuel (by omega) (by omega)
      -- the later iterations leave the head of slice `k` alone
      have hkeep : ∀ x : Int, buf + r * k ≤ x → x < buf + r * k + 8 → m' x = m₁ x := by
        intro x hx₁ hx₂
        refine hframe x ?_
        rintro ⟨j, hj₁, -, hj₂, hj₃⟩
        have hap := slice_apart (r := r) (i := (k : Int)) (j := j) (by omega)
        have hmono : (r : Int) * k + r ≤ r * j := by
          rcases hap with h | h
          · exact h
          · have : (r : Int) * k ≤ r * j := Int.mul_le_mul_of_nonneg_left (by omega) (Int.natCast_nonneg r)
            omega
        omega
      refine ⟨m', ?_, ?_, ?_⟩
      · unfold makeSliceLoop
        rw [if_pos (h₂.mpr (by omega))]
        simp only [h₁]
        rw [hm₁, ← hloop]
        push_cast
        ring_nf
      · rw [idsFrom_succ, if_neg (by omega)]
        refine ⟨rfl, ne_invalid (Int.natCast_nonneg k), ?_, ?_⟩
        · show m'.readInt32 (buf + r * (k : Int) + 4) = _
          have hrd : m'.readInt32 (buf + r * (k : Int) + 4) = m₁.readInt32 (buf + r * (k : Int) + 4) :=
            congrArg int32OfBytes (Mem.read_congr fun i hi => hkeep _ (by omega) (by omega))
          rw [hrd, ← hprev]
          push_cast
          rfl
        · have hrd : m'.readInt32 (buf + r * (k : Int)) = m₁.readInt32 (buf + r * (k : Int)) :=
            congrArg int32OfBytes (Mem.read_congr fun i hi => hkeep _ (by omega) (by omega))
          have hnx : (headsAt buf r m').next k = if n = 0 then kInvalidSliceId else (k + 1 : Nat) := by
            show m'.readInt32 (buf + r * (k : Int)) = _
            have hadr : ((buf + r * k : Nat) : Int) = buf + r * k := by push_cast; rfl
            rw [hadr] at hnext
            rw [hrd, hnext]
            by_cases hn : n = 0
            · rw [if_pos (hlast.mpr hn), if_pos hn]
            · rw [if_neg (mt hlast.mp hn), if_neg hn]
              push_cast
              ring
          rw [hnx]
          have hpk : ((k + 1 : Nat) : Int) - 1 = k := by omega
          rw [hpk] at hchain
          exact hchain
      · intro x hx
        rw [hframe x fun ⟨j, hj₁, hj₂, hj₃⟩ => hx ⟨j, by omega, hj₂, hj₃⟩]
        refine hout x ?_
        by_contra hcon
        push_cast at hcon
        exact hx ⟨k, le_refl _, by omega, by omega, by omega⟩

end Loop

/-- `MakeSliceList` on a buffer that fits: every slice is free, in the order of the ids. -/
theorem makeSliceList_eq (ml : MemoryList) {cap : Nat} (hf : Fits { ml with capacity := cap })
    (hsize : ml.header.size = 0) :
    ∃ ml', ml.makeSliceList = some ml' ∧ Frame { ml with capacity := cap } ml' ∧ Partition ml' (ids cap) [] := by
  have hsmall : cap < 2 ^ 31 := hf.small
  obtain ⟨m', hloop, hchain, hout⟩ := makeSliceLoop_eq hf.real hf.room hf.cap hf.exact hsmall cap ml.mem 0
    (2 ^ 31 - 1) (Nat.zero_add _) (by omega)
  have hloop' : makeSliceLoop ml.sliceRealSize ml.endAddr (2 ^ 31 - 1) ml.mem ml.buf kInvalidSliceId =
      some (m', ml.buf + ml.sliceRealSize * cap, (cap : Int) - 1) := hloop
  have hframe : ∀ x, ¬ InHead { ml with capacity := cap } x → m' x = ml.mem x := by
    intro x hx
    refine hout x ?_
    rintro ⟨j, hj₀, hj₁, hj₂, hj₃⟩
    exact hx ⟨j, hj₀, hj₁, hj₂, hj₃⟩
  unfold makeSliceList
  rw [hloop']
  by_cases hc : cap = 0
  · subst hc
    refine ⟨_, if_pos rfl, ⟨rfl, rfl, rfl, rfl, rfl, hframe⟩, rfl, rfl, List.Perm.refl _, hsize⟩
  · have hne : ¬ ((cap : Int) - 1 = kInvalidSliceId) := by
      show ¬ ((cap : Int) - 1 = -1)
      omega
    have hcap : toSize ((cap : Int) - 1 + 1) = cap := by
      rw [toSize_of_range (by omega) (by omega)]
      omega
    refine ⟨_, if_neg hne, ⟨rfl, rfl, hcap, rfl, rfl, hframe⟩, ?_, rfl, ?_, hsize⟩
    · rw [if_neg hc, ← ids_eq] at hchain
      exact hchain
    · rw [List.append_nil]
      show (ids cap).Perm (ids (toSize ((cap : Int) - 1 + 1)))
      rw [hcap]

/-- With `2^31` slices or more `MakeSliceList` runs out of ids. -/
theorem makeSliceList_overflow {ml : MemoryList} {cap : Nat} (hr : 8 ≤ ml.sliceRealSize) (hroom : ml.buf ≤ ml.endAddr)
    (hcap : cap = (ml.endAddr - ml.buf) / ml.sliceRealSize) (hx : ml.buf + (cap + 1) * ml.sliceRealSize < 2 ^ 64)
    (hbig : 2 ^ 31 ≤ cap) : ml.makeSliceList = none := by
  have h := makeSliceLoop_overflow hr hroom hcap hx (2 ^ 31 - 1) ml.mem 0 (by omega) kInvalidSliceId
  have h' : makeSliceLoop ml.sliceRealSize ml.endAddr (2 ^ 31 - 1) ml.mem ml.buf kInvalidSliceId = none := h
  unfold makeSliceList
  rw [h']

end MemoryList
end Snippets
