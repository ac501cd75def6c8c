import Snippets.MemoryList.Partition

/-!
# `MemoryList.Runs` — what holds of the allocator after any sequence of calls

`AllocSpec` is what a client may rely on in a state: the two lists partition the buffer, the used ids are those
the client holds, `GetSlice` fails only when the buffer is full and never hands out a used id, no call hits an
assert, and no call changes a payload byte. It holds after every run from a buffer whose addresses fit
(`allocSpec_of_fits`). A slice size that makes `kSliceHeadSize + slice_size` wrap breaks it at once.
-/

namespace Snippets

open Lib Links

namespace MemoryList

/-! ## Payload bytes -/

/-- The address of byte `off` of the payload of slice `i`. -/
def payload (ml : MemoryList) (i : SliceId) (off : Nat) : Int := ml.buf + ml.sliceRealSize * i + kSliceHeadSize + off

/-- What a client of the allocator relies on. -/
structure AllocSpec (s : Client) (F U : List SliceId) : Prop where
  partition : Partition s.ml F U
  held : U.Perm s.held
  get : ∃ ml' r, s.ml.getSlice = some (ml', r) ∧ (r = kInvalidSliceId ↔ s.ml.size = s.ml.capacity) ∧
    (r ≠ kInvalidSliceId → r ∉ U)
  release : ∀ id ∈ s.held, (s.ml.freeSlice id).isSome
  reset : s.ml.clear.isSome
  payload : ∀ call t, Step s call t → (∀ id off byte, call ≠ .store id off byte) →
    ∀ i : Int, 0 ≤ i → i < s.ml.capacity → ∀ off < s.ml.header.sliceSize,
      t.ml.mem (s.ml.payload i off) = s.ml.mem (s.ml.payload i off)

/-- The state invariant behind `AllocSpec`. -/
structure Inv (s : Client) : Prop where
  fits : Fits s.ml
  real : s.ml.sliceRealSize = kSliceHeadSize + s.ml.header.sliceSize
  lists : ∃ F U, Partition s.ml F U ∧ U.Perm s.held

variable {s t : Client} {ml : MemoryList}

/-- Payload bytes and heads are disjoint. -/
theorem payload_not_inHead (hreal : ml.sliceRealSize = kSliceHeadSize + ml.header.sliceSize)
    {i : Int} {off : Nat} (hoff : off < ml.header.sliceSize) : ¬ InHead ml (ml.payload i off) := by
  rintro ⟨j, -, -, h₁, h₂⟩
  unfold MemoryList.payload kSliceHeadSize at h₁ h₂
  unfold kSliceHeadSize at hreal
  by_cases hij : i = j
  · subst hij
    push_cast at h₂
    omega
  · have hap := slice_apart (r := ml.sliceRealSize) hij
    push_cast at h₁ h₂
    omega

/-- `clear` on a buffer that fits. -/
theorem clear_eq (hf : Fits ml) :
    ∃ ml', ml.clear = some ml' ∧ Frame ml ml' ∧ Partition ml' (ids ml.capacity) [] := by
  have hzero : (ml.setSize 0).header.size = 0 := toSize_of_range (le_refl 0) (by decide)
  have hf' : Fits (ml.setSize 0) := (Frame.setSize 0).fits hf
  obtain ⟨ml', h₁, h₂, h₃⟩ := @makeSliceList_eq (ml.setSize 0) ml.capacity hf' hzero
  exact ⟨ml', h₁, (Frame.setSize 0).trans h₂, h₃⟩

/-- The lists after a call of the allocator, and the frame it keeps. -/
theorem step_frame (h : Inv s) {call : Call} (hst : Step s call t) (hcall : ∀ id off byte, call ≠ .store id off byte) :
    Frame s.ml t.ml ∧ ∃ F U, Partition t.ml F U ∧ U.Perm t.held := by
  obtain ⟨F, U, hp, hheld⟩ := h.lists
  cases call with
  | getSlice r =>
      obtain ⟨hget, hh⟩ := hst
      cases F with
      | nil =>
          rw [hp.getSlice_empty] at hget
          obtain ⟨hml, rfl⟩ := Prod.mk.inj (Option.some.inj hget)
          rw [if_pos rfl] at hh
          rw [← hml, hh]
          exact ⟨Frame.refl _, [], U, hp, hheld⟩
      | cons i F =>
          obtain ⟨ml', hget', hfr, hp'⟩ := hp.getSlice h.fits
          rw [hget'] at hget
          obtain ⟨rfl, rfl⟩ := Prod.mk.inj (Option.some.inj hget)
          have hi := (hp.mem_iff.mp (Or.inl (List.mem_cons_self (a := i)))).1
          rw [if_neg (ne_invalid hi)] at hh
          rw [hh]
          exact ⟨hfr, F, i :: U, hp', hheld.cons i⟩
  | freeSlice id =>
      obtain ⟨hid, hfree, hh⟩ := hst
      obtain ⟨ml', hfree', hfr, hp'⟩ := hp.freeSlice h.fits (hheld.mem_iff.mpr hid)
      rw [hfree'] at hfree
      obtain rfl := Option.some.inj hfree
      rw [hh]
      exact ⟨hfr, id :: F, U.erase id, hp', hheld.erase id⟩
  | clear =>
      obtain ⟨hclear, hh⟩ := hst
      obtain ⟨ml', hclear', hfr, hp'⟩ := clear_eq h.fits
      rw [hclear'] at hclear
      obtain rfl := Option.some.inj hclear
      rw [hh]
      exact ⟨hfr, _, [], hp', List.Perm.refl _⟩
  | store id off byte => exact absurd rfl (hcall id off byte)

/-- A client's store leaves every head alone. -/
theorem store_heads (h : Inv s) {id : Int} {off p : Nat} (hid : id ∈ s.held) (hoff : off < s.ml.header.sliceSize)
    (hp : s.ml.getBuffer id = some p) (byte : UInt8) :
    heads { s.ml with mem := s.ml.mem.write (p + off) [byte] } = heads s.ml := by
  obtain ⟨F, U, hpart, hheld⟩ := h.lists
  obtain ⟨h₀, h₁⟩ := hpart.mem_iff.mp (Or.inr (hheld.mem_iff.mpr hid))
  obtain ⟨a, ha, hadr⟩ := getSliceById_eq h.fits h₀ h₁
  have hle := slice_end_le (r := s.ml.sliceRealSize) h₁
  have hx := h.fits.exact
  have hr := h.fits.real
  have hpa : (p : Int) = s.ml.buf + s.ml.sliceRealSize * id + 8 := by
    unfold getBuffer at hp
    rw [ha] at hp
    obtain rfl : toSize (a + kSliceHeadSize) = p := Option.some.inj hp
    rw [Nat.add_one_mul] at hx
    have hx' : (s.ml.buf : Int) + (s.ml.capacity * s.ml.sliceRealSize + s.ml.sliceRealSize) < 2 ^ 64 := by
      exact_mod_cast hx
    unfold kSliceHeadSize
    push_cast
    rw [toSize_of_range (by omega) (by omega)]
    omega
  have hreal := h.real
  unfold kSliceHeadSize at hreal
  -- the byte lies between the head of its slice and the next slice
  have hmiss : ∀ j k : Int, 0 ≤ k → k ≤ 4 →
      (s.ml.mem.write (p + off) [byte]).readInt32 (s.ml.buf + s.ml.sliceRealSize * j + k) =
        s.ml.mem.readInt32 (s.ml.buf + s.ml.sliceRealSize * j + k) := by
    intro j k hk₀ hk₁
    refine congrArg int32OfBytes (Mem.read_write_disjoint ?_)
    rw [List.length_singleton]
    by_cases hj : j = id
    · subst hj
      omega
    · have hap := slice_apart (r := s.ml.sliceRealSize) hj
      omega
  refine congrArg₂ Links.mk (funext fun j => ?_) (funext fun j => ?_)
  · have := hmiss j 0 (le_refl 0) (by omega)
    rw [add_zero] at this
    exact this
  · exact hmiss j 4 (by omega) (le_refl 4)

/-- **Every step keeps the invariant.** -/
theorem inv_step (h : Inv s) {call : Call} (hst : Step s call t) : Inv t := by
  by_cases hcall : ∀ id off byte, call ≠ .store id off byte
  · obtain ⟨hfr, hlists⟩ := step_frame h hst hcall
    exact ⟨hfr.fits h.fits, by rw [hfr.sliceRealSize, hfr.sliceSize]; exact h.real, hlists⟩
  · push Not at hcall
    obtain ⟨id, off, byte, rfl⟩ := hcall
    obtain ⟨hid, hoff, p, hp, rfl⟩ := hst
    obtain ⟨F, U, hpart, hheld⟩ := h.lists
    have hheads := store_heads h hid hoff hp byte
    refine ⟨⟨h.fits.room, h.fits.real, h.fits.cap, h.fits.small, h.fits.exact⟩, h.real, F, U, ?_, hheld⟩
    refine ⟨?_, ?_, hpart.perm, hpart.size⟩
    · rw [hheads]; exact hpart.free
    · rw [hheads]; exact hpart.used

theorem Inv.allocSpec (h : Inv s) : ∃ F U, AllocSpec s F U := by
  obtain ⟨F, U, hp, hheld⟩ := h.lists
  refine ⟨F, U, hp, hheld, ?_, ?_, ?_, ?_⟩
  · cases F with
    | nil => exact ⟨_, _, hp.getSlice_empty, iff_of_true rfl (hp.full_iff.mpr rfl), fun hne => absurd rfl hne⟩
    | cons i F =>
        obtain ⟨ml', hget, -, -⟩ := hp.getSlice h.fits
        have hmem : i ∈ i :: F := List.mem_cons_self
        have hi := (hp.mem_iff.mp (Or.inl hmem)).1
        refine ⟨ml', i, hget, iff_of_false (ne_invalid hi) ?_, fun _ => hp.not_mem_both hmem⟩
        exact fun hfull => List.cons_ne_nil i F (hp.full_iff.mp hfull)
  · intro id hid
    obtain ⟨ml', hfree, -⟩ := hp.freeSlice h.fits (hheld.mem_iff.mpr hid)
    rw [hfree]
    rfl
  · obtain ⟨ml', hclear, -⟩ := clear_eq h.fits
    rw [hclear]
    rfl
  · intro call t hst hcall i _ _ off hoff
    exact (step_frame h hst hcall).1.outside _ (payload_not_inHead h.real hoff)

/-! ## The allocator as a container sees it -/

section Holding

variable {U : List SliceId} {i : SliceId}

/-- The client of the allocator holds the slices `U`. -/
abbrev Holding (ml : MemoryList) (U : List SliceId) : Prop := Inv ⟨ml, U⟩

theorem Holding.perm {U' : List SliceId} (h : Holding ml U) (hp : U.Perm U') : Holding ml U' := by
  obtain ⟨F, W, hpart, hW⟩ := h.lists
  exact ⟨h.fits, h.real, F, W, hpart, hW.trans hp⟩

theorem Holding.length_le (h : Holding ml U) : U.length ≤ ml.capacity := by
  obtain ⟨F, W, hpart, hW⟩ := h.lists
  have hlen := hpart.length
  have heq : W.length = U.length := hW.length_eq
  rw [heq] at hlen
  have hcap : ml.capacity = (⟨ml, U⟩ : Client).ml.capacity := rfl
  omega

theorem Holding.size_eq (h : Holding ml U) : ml.size = U.length := by
  obtain ⟨F, W, hpart, hW⟩ := h.lists
  rw [← hW.length_eq]
  exact hpart.size

theorem Holding.nodup (h : Holding ml U) : U.Nodup := by
  obtain ⟨F, W, hpart, hW⟩ := h.lists
  exact hW.nodup_iff.mp (List.nodup_append.mp hpart.nodup).2.1

/-- Ids in use are not negative. -/
theorem Holding.valid (h : Holding ml U) (hi : i ∈ U) : 0 ≤ i := by
  obtain ⟨F, W, hpart, hW⟩ := h.lists
  exact (hpart.mem_iff.mp (Or.inr (hW.mem_iff.mpr hi))).1

/-- `GetSlice` hands out a slice that is not held, as long as there is one. -/
theorem Holding.getSlice (h : Holding ml U) (hlt : U.length < ml.capacity) :
    ∃ ml' new, ml.getSlice = some (ml', new) ∧ 0 ≤ new ∧ new ∉ U ∧ Holding ml' (new :: U) ∧
      ml'.capacity = ml.capacity := by
  obtain ⟨F, W, hpart, hW⟩ := h.lists
  have hlen : F.length + W.length = ml.capacity := hpart.length
  have hWU : W.length = U.length := hW.length_eq
  cases F with
  | nil =>
      rw [List.length_nil] at hlen
      omega
  | cons new F =>
      obtain ⟨ml', hget, hframe, hpart'⟩ := hpart.getSlice h.fits
      have hmem : new ∈ new :: F := List.mem_cons_self
      refine ⟨ml', new, hget, (hpart.mem_iff.mp (Or.inl hmem)).1, ?_, ?_, hframe.capacity⟩
      · exact fun hU => hpart.not_mem_both hmem (hW.mem_iff.mpr hU)
      · refine ⟨hframe.fits h.fits, ?_, F, new :: W, hpart', hW.cons new⟩
        rw [hframe.sliceRealSize, hframe.sliceSize]
        exact h.real

/-- `FreeSlice` of a held slice. -/
theorem Holding.freeSlice (h : Holding ml U) (hi : i ∈ U) :
    ∃ ml', ml.freeSlice i = some ml' ∧ Holding ml' (U.erase i) ∧ ml'.capacity = ml.capacity := by
  obtain ⟨F, W, hpart, hW⟩ := h.lists
  obtain ⟨ml', hfree, hframe, hpart'⟩ := hpart.freeSlice h.fits (hW.mem_iff.mpr hi)
  refine ⟨ml', hfree, ⟨hframe.fits h.fits, ?_, i :: F, W.erase i, hpart', hW.erase i⟩, hframe.capacity⟩
  rw [hframe.sliceRealSize, hframe.sliceSize]
  exact h.real

theorem Holding.clear (h : Holding ml U) : ∃ ml', ml.clear = some ml' ∧ Holding ml' [] ∧ ml'.capacity = ml.capacity := by
  obtain ⟨ml', hclear, hframe, hpart⟩ := clear_eq h.fits
  refine ⟨ml', hclear, ⟨hframe.fits h.fits, ?_, _, [], hpart, List.Perm.refl _⟩, hframe.capacity⟩
  rw [hframe.sliceRealSize, hframe.sliceSize]
  exact h.real

end Holding

/-! ## From `CreateFrom` on -/

/-- The sums `MakeSliceList` computes over a buffer of `len` bytes at `start` stay below `2^64`, up to and
    including the one that ends its loop. -/
def SumsFit (start len sliceSize : Nat) : Prop :=
  start + kHeaderSize + ((len - kHeaderSize) / (kSliceHeadSize + sliceSize) + 1) * (kSliceHeadSize + sliceSize) < 2 ^ 64

instance (start len sliceSize : Nat) : Decidable (SumsFit start len sliceSize) := by
  unfold SumsFit
  infer_instance

/-- What `CreateFrom` hands to `MakeSliceList`, on a buffer whose sums fit. -/
theorem createFrom_make {start len sliceSize : Nat} {mem : Mem} (hfit : SumsFit start len sliceSize)
    (hc : createFrom start len sliceSize mem = some (some ml)) :
    kHeaderSize ≤ len ∧ ∃ (ml₀ : MemoryList) (cap : Nat), ml₀.makeSliceList = some ml ∧ Fits { ml₀ with capacity := cap } ∧
      ml₀.header = ⟨kMagicNumber, 0, 0, len, sliceSize, kInvalidSliceId, kInvalidSliceId⟩ ∧ ml₀.start = start ∧
      ml₀.buf = start + kHeaderSize ∧ ml₀.endAddr = start + len ∧ ml₀.sliceRealSize = kSliceHeadSize + sliceSize ∧
      ml₀.mem = mem := by
  unfold SumsFit kHeaderSize kSliceHeadSize at hfit
  have hdiv : len - 48 < ((len - 48) / (8 + sliceSize) + 1) * (8 + sliceSize) :=
    Nat.lt_mul_of_div_lt (Nat.lt_add_one _) (by omega)
  have hreal : 8 + sliceSize ≤ ((len - 48) / (8 + sliceSize) + 1) * (8 + sliceSize) :=
    Nat.le_mul_of_pos_left _ (Nat.succ_pos _)
  have hend : toSize (start + len) = start + len := by
    rw [toSize_of_range (by omega) (by omega)]; omega
  have hbuf : toSize (start + kHeaderSize) = start + 48 := by
    rw [toSize_of_range (by omega) (by unfold kHeaderSize; omega)]; unfold kHeaderSize; omega
  have hr : toSize (kSliceHeadSize + sliceSize) = 8 + sliceSize := by
    rw [toSize_of_range (by omega) (by unfold kSliceHeadSize; omega)]; unfold kSliceHeadSize; omega
  unfold createFrom at hc
  simp only [hend, hbuf, hr] at hc
  split at hc
  · split at hc
    · cases hc
    · generalize hml₀ : MemoryList.mk _ _ _ _ _ _ _ = ml₀ at hc
      set cap := (len - 48) / (8 + sliceSize) with hcap
      have hcap₀ : cap = (ml₀.endAddr - ml₀.buf) / ml₀.sliceRealSize := by
        rw [← hml₀, hcap]
        show _ = (start + len - (start + 48)) / (8 + sliceSize)
        rw [Nat.add_sub_add_left]
      have hroom : ml₀.buf ≤ ml₀.endAddr := by rw [← hml₀]; show start + 48 ≤ start + len; omega
      have hreal₀ : 8 ≤ ml₀.sliceRealSize := by rw [← hml₀]; exact Nat.le_add_right 8 _
      have hx₀ : ml₀.buf + (cap + 1) * ml₀.sliceRealSize < 2 ^ 64 := by rw [← hml₀]; exact hfit
      have hlen : kHeaderSize ≤ len := by
        rw [← hml₀] at hroom
        have hroom' : start + 48 ≤ start + len := hroom
        unfold kHeaderSize
        omega
      by_cases hsmall : cap < 2 ^ 31
      · -- fewer than `2^31` slices: the loop ends
        obtain ⟨ml', hmake, hml'⟩ := Option.map_eq_some_iff.mp hc
        obtain rfl := Option.some.inj hml'
        refine ⟨hlen, ml₀, cap, hmake, ⟨hroom, hreal₀, hcap₀, hsmall, hx₀⟩, ?_⟩
        rw [← hml₀]
        exact ⟨rfl, rfl, rfl, rfl, rfl, rfl⟩
      · rw [makeSliceList_overflow hreal₀ hroom hcap₀ hx₀ (by omega)] at hc
        cases hc
  · cases hc

/-- `CreateFrom` on a buffer whose sums fit establishes the invariant and writes no payload byte. -/
theorem inv_createFrom {start len sliceSize : Nat} {mem : Mem} (hfit : SumsFit start len sliceSize)
    (hc : createFrom start len sliceSize mem = some (some ml)) :
    Inv ⟨ml, []⟩ ∧ ∀ i : Int, ∀ off < ml.header.sliceSize, ml.mem (ml.payload i off) = mem (ml.payload i off) := by
  obtain ⟨-, ml₀, cap, hmake₀, hf₀, hheader, -, -, -, hreal, hmem⟩ := createFrom_make hfit hc
  have hsize : ml₀.header.size = 0 := by rw [hheader]
  obtain ⟨ml', hmake, hfr, hp⟩ := makeSliceList_eq ml₀ hf₀ hsize
  obtain rfl : ml' = ml := by
    rw [hmake₀] at hmake
    exact (Option.some.inj hmake).symm
  have hinv : Inv ⟨ml', []⟩ := by
    refine ⟨hfr.fits hf₀, ?_, _, [], hp, List.Perm.refl _⟩
    have hslice : ml₀.header.sliceSize = sliceSize := by rw [hheader]
    show ml'.sliceRealSize = kSliceHeadSize + ml'.header.sliceSize
    rw [hfr.sliceRealSize, hfr.sliceSize]
    show ml₀.sliceRealSize = kSliceHeadSize + ml₀.header.sliceSize
    rw [hreal, hslice]
  refine ⟨hinv, fun i off hoff => ?_⟩
  rw [hfr.outside (ml'.payload i off) (mt (hfr.inHead _).mpr (payload_not_inHead hinv.real hoff)), ← hmem]

/-- A container that keeps a header of `head` bytes before its slices starts with none of them. -/
theorem holding_createFrom {start head len sliceSize : Nat} {mem : Mem}
    (hfit : SumsFit (start + head) (len - head) sliceSize)
    (hc : createFrom (toSize (start + head)) (len - head) sliceSize mem = some (some ml)) : Holding ml [] := by
  have hlt : start + head < 2 ^ 64 := by
    unfold SumsFit at hfit
    omega
  have hstart : toSize (start + head) = start + head := by
    rw [toSize_of_range (by omega) (by exact_mod_cast hlt)]
    omega
  rw [hstart] at hc
  exact (inv_createFrom hfit hc).1

/-- **The allocator keeps its promises as long as its sums fit.** From `CreateFrom` on, whatever the client
    calls, and stores into the slices it holds, in whatever order. -/
theorem allocSpec_of_fits {start len sliceSize : Nat} {mem : Mem} (hfit : SumsFit start len sliceSize)
    (hc : createFrom start len sliceSize mem = some (some ml)) :
    (∀ i : Int, ∀ off < ml.header.sliceSize, ml.mem (ml.payload i off) = mem (ml.payload i off)) ∧
      ∀ calls s, Run Step ⟨ml, []⟩ calls s → ∃ F U, AllocSpec s F U := by
  obtain ⟨hinv, hpay⟩ := inv_createFrom hfit hc
  refine ⟨hpay, fun calls s hrun => ?_⟩
  exact (Run.invariant (I := Inv) (fun _ _ _ h hst => inv_step h hst) hrun hinv).allocSpec

/-- Three slices of sixteen bytes at address 4096. -/
theorem allocSpec_three : ∃ ml, createFrom 4096 120 16 (fun _ => 0) = some (some ml) ∧ ml.capacity = 3 ∧
    ∀ calls s, Run Step ⟨ml, []⟩ calls s → ∃ F U, AllocSpec s F U := by
  have hc : (createFrom 4096 120 16 (fun _ => 0)).join.map capacity = some 3 := by decide +kernel
  obtain ⟨ml, hj, hcap⟩ := Option.map_eq_some_iff.mp hc
  have hml := Option.join_eq_some_iff.mp hj
  exact ⟨ml, hml, hcap, (allocSpec_of_fits (by decide) hml).2⟩

/-- **A slice size of `2^64 - 1` makes the slices overlap.** The real size wraps to seven bytes, and the `next`
    of slice 1 is written over the `prev` of slice 0, the head of the free list. -/
theorem not_allocSpec_wrap : ∃ ml, createFrom 4096 70 (2 ^ 64 - 1) (fun _ => 0) = some (some ml) ∧
    ¬ ∃ F U, AllocSpec ⟨ml, []⟩ F U := by
  have hc : (createFrom 4096 70 (2 ^ 64 - 1) (fun _ => 0)).join.map
      (fun ml => (ml.header.free, ml.heads.prev 0)) = some (0, 50331647) := by decide +kernel
  obtain ⟨ml, hj, hval⟩ := Option.map_eq_some_iff.mp hc
  obtain ⟨hfree, hprev⟩ := Prod.mk.inj hval
  refine ⟨ml, Option.join_eq_some_iff.mp hj, ?_⟩
  rintro ⟨F, U, hspec⟩
  have hchain := hspec.partition.free
  cases F with
  | nil =>
      have h0 : (0 : Int) = kInvalidSliceId := hfree.symm.trans hchain
      exact absurd h0 (by decide)
  | cons i F =>
      obtain ⟨rfl, -, hpi, -⟩ := hchain
      have h0 : (50331647 : Int) = kInvalidSliceId := by
        rw [← hprev, ← hpi]
        exact congrArg _ hfree.symm
      exact absurd h0 (by decide)

end MemoryList
end Snippets
