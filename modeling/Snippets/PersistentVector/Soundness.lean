import Snippets.PersistentVector.Model
import Snippets.Lib.Run
import Mathlib.Data.List.Pairwise

/-!
# `PersistentVector.Soundness` — when the check of `RecoverFrom` is enough

Vectors in buffers of their own, recovered from whatever the buffers hold, and any calls on them. `RecoverFrom` compares a
product that may wrap, and `HasSpace` a sum that may wrap. `sound_iff` says that no vector outgrows its buffer and no call
reaches outside, whatever is called, exactly when neither can wrap (`Spared`).
-/

namespace Snippets

open Lib

namespace PersistentVector

variable {T : Pod} {v w : Vector} {vs : List Vector} {m m' m₀ : Mem} {call : Call} {x : List UInt8} {n s e : Nat}

/-! ## The property -/

/-- The elements fit into the buffer. -/
def Fits (T : Pod) (m : Mem) (v : Vector) : Prop := sizeofMetaData + v.size m * T.size ≤ v.kMaxLength

def Access.Inside (a : Access) : Prop := sizeofMetaData ≤ a.offset ∧ a.offset + a.length ≤ a.vector.kMaxLength

/-- An element has the size of its type, and a vector is copied from one of the vectors. -/
def Call.Proper (T : Pod) (vs : List Vector) : Call → Prop
  | .pushBack x => x.length = T.size
  | .copyFrom rhs => rhs ∈ vs
  | .popBack | .erase _ _ | .eraseAt _ | .get _ => True

/-- A call on one of the vectors whose asserts hold. -/
def Step (T : Pod) (vs : List Vector) (m : Mem) (c : Vector × Call) (m' : Mem) : Prop :=
  c.1 ∈ vs ∧ c.2.Proper T vs ∧ c.2.exec T c.1 m = some m'

/-- Every vector fits, and the accesses of every call are inside. -/
structure Sound (T : Pod) (vs : List Vector) (m : Mem) : Prop where
  fits : ∀ v ∈ vs, Fits T m v
  inside : ∀ c m', Step T vs m c m' → ∀ a ∈ c.2.accesses T c.1 m, a.Inside

/-- Buffers without a common byte. -/
def Apart (v w : Vector) : Prop := v.md + v.kMaxLength ≤ w.md ∨ w.md + w.kMaxLength ≤ v.md

/-- Vectors that `RecoverFrom` has made of buffers with room for the metadata. -/
structure Recovered (T : Pod) (m : Mem) (vs : List Vector) : Prop where
  accepted : ∀ v ∈ vs, Vector.recoverFrom T m v.md v.kMaxLength = some v
  length : ∀ v ∈ vs, sizeofMetaData ≤ v.kMaxLength ∧ v.kMaxLength < 2 ^ 64
  apart : vs.Pairwise Apart

/-- How many elements there is room for. -/
def room (T : Pod) (v : Vector) : Nat := (v.kMaxLength - sizeofMetaData) / T.size

/-- What the check of `RecoverFrom` computes does not wrap, nor does what `HasSpace` computes for a full vector. -/
structure Spared (T : Pod) (m : Mem) (v : Vector) : Prop where
  recorded : sizeofMetaData + v.size m * T.size < 2 ^ 64
  full : sizeofMetaData + (room T v + 1) * T.size < 2 ^ 64

/-! ## Sizes -/

theorem size_lt (v : Vector) (m : Mem) : v.size m < 2 ^ 64 := by
  have h := Mem.readWord_lt m (v.md + 8) 8
  exact h

theorem size_setSize (v : Vector) (m : Mem) (n : Nat) : v.size (v.setSize m n) = n % 2 ^ 64 := by
  unfold Vector.size Vector.setSize
  exact Mem.readWord_writeWord_self n

/-- Elements are behind the metadata. -/
theorem size_write (v : Vector) (m : Mem) (i : Nat) (x : List UInt8) : v.size (m.write (v.address T i) x) = v.size m := by
  unfold Vector.size
  apply Mem.readWord_write_disjoint
  unfold Vector.address Vector.offset sizeofMetaData
  omega

/-- A write into one buffer does not change the size of another vector. -/
theorem size_write_apart (h : Apart v w) (hw : sizeofMetaData ≤ w.kMaxLength) {a : Int} (hlo : v.md ≤ a)
    (hhi : a + x.length ≤ v.md + v.kMaxLength) : w.size (m.write a x) = w.size m := by
  unfold Vector.size
  apply Mem.readWord_write_disjoint
  unfold sizeofMetaData at hw
  rcases h with h | h
  · omega
  · omega

theorem size_setSize_apart (h : Apart v w) (hv : sizeofMetaData ≤ v.kMaxLength) (hw : sizeofMetaData ≤ w.kMaxLength) (m : Mem)
    (n : Nat) : w.size (v.setSize m n) = w.size m := by
  apply size_write_apart h hw
  · omega
  · rw [toLe_length]
    unfold sizeofMetaData at hv
    omega

/-- As many elements as fit. -/
theorem fits_iff (hlen : sizeofMetaData ≤ v.kMaxLength) : Fits T m v ↔ v.size m ≤ room T v := by
  unfold Fits room
  rw [Nat.le_div_iff_mul_le T.size_pos]
  omega

theorem room_fits (hlen : sizeofMetaData ≤ v.kMaxLength) : sizeofMetaData + room T v * T.size ≤ v.kMaxLength := by
  have h := Nat.div_mul_le_self (v.kMaxLength - sizeofMetaData) T.size
  unfold room
  omega

theorem Fits.used_eq (h : Fits T m v) (hlt : v.kMaxLength < 2 ^ 64) : v.used T m = v.size m * T.size := by
  unfold Fits at h
  unfold Vector.used
  exact Nat.mod_eq_of_lt (by omega)

/-- The offsets of a vector that fits. -/
theorem Fits.offset_le (h : Fits T m v) {i : Nat} (hi : i ≤ v.size m) : Vector.offset T i ≤ v.kMaxLength := by
  have hmul := Nat.mul_le_mul_right T.size hi
  unfold Fits at h
  unfold Vector.offset
  rw [Nat.mul_comm T.size]
  omega

theorem offset_add (i k : Nat) : Vector.offset T i + T.size * k = Vector.offset T (i + k) := by
  unfold Vector.offset
  rw [Nat.mul_add, Nat.add_assoc]

/-! ## One call -/

/-- The effect of a call on the vector it is made on, for a vector that fits: the bytes it writes are inside the buffer, and
    the vector fits again. -/
structure Confined (T : Pod) (v : Vector) (m m' : Mem) : Prop where
  fits : Fits T m' v
  others : ∀ w, Apart v w → sizeofMetaData ≤ w.kMaxLength → w.size m' = w.size m

/-- Nothing is written. -/
theorem Fits.confined (h : Fits T m v) : Confined T v m m := ⟨h, fun _ _ _ => rfl⟩

theorem inside_pair {a b : Access} (ha : a.Inside) (hb : b.Inside) : ∀ c ∈ [a, b], c.Inside := by
  intro c hc
  rcases List.mem_cons.mp hc with rfl | hc
  · exact ha
  · rw [List.mem_singleton.mp hc]
    exact hb

/-- Elements are written, and then the size. -/
theorem confined_write (hlen : sizeofMetaData ≤ v.kMaxLength) {i : Nat} (hin : Vector.offset T i + x.length ≤ v.kMaxLength)
    (hn : sizeofMetaData + n * T.size ≤ v.kMaxLength) (hlt : n < 2 ^ 64) :
    Confined T v m (v.setSize (m.write (v.address T i) x) n) := by
  refine ⟨?_, ?_⟩
  · unfold Fits
    rw [size_setSize, Nat.mod_eq_of_lt hlt]
    exact hn
  · intro w hw hlen'
    rw [size_setSize_apart hw hlen hlen']
    apply size_write_apart hw hlen'
    · unfold Vector.address
      omega
    · unfold Vector.address
      omega

theorem Recovered.apart_of_ne (h : Recovered T m₀ vs) (hv : v ∈ vs) (hw : w ∈ vs) (hne : v ≠ w) : Apart v w := by
  have : Std.Symm Apart := ⟨fun _ _ hap => hap.symm⟩
  exact h.apart.forall hv hw hne

/-- One element of a vector that fits. -/
theorem Fits.element_inside (h : Fits T m v) {i : Nat} (hi : i < v.size m) : Access.Inside ⟨v, Vector.offset T i, T.size⟩ := by
  have hoff := h.offset_le (Nat.succ_le_of_lt hi)
  have hadd := offset_add (T := T) i 1
  rw [Nat.mul_one] at hadd
  refine ⟨Nat.le_add_right _ _, ?_⟩
  show Vector.offset T i + T.size ≤ v.kMaxLength
  rw [hadd]
  exact hoff

section Calls

variable (h : Fits T m v) (hlen : sizeofMetaData ≤ v.kMaxLength) (hlt : v.kMaxLength < 2 ^ 64)

include h hlen hlt

/-! ### `push_back` -/

/-- When the sum of `HasSpace` does not wrap, there is space. -/
theorem Fits.room_of_hasSpace (hfull : sizeofMetaData + (room T v + 1) * T.size < 2 ^ 64) (hspace : v.hasSpace T m = true) :
    sizeofMetaData + (v.size m + 1) * T.size ≤ v.kMaxLength := by
  have hle := (fits_iff hlen).mp h
  have hmul : (v.size m + 1) * T.size ≤ (room T v + 1) * T.size := Nat.mul_le_mul_right T.size (by omega)
  have hsucc : (v.size m + 1) * T.size = v.size m * T.size + T.size := Nat.succ_mul _ _
  have hcheck := of_decide_eq_true hspace
  rw [h.used_eq hlt, Nat.mod_eq_of_lt (by omega)] at hcheck
  omega

theorem Fits.pushBack (hfull : sizeofMetaData + (room T v + 1) * T.size < 2 ^ 64) (hx : x.length = T.size) :
    Confined T v m (v.pushBack T m x).1 ∧ ∀ a ∈ (Call.pushBack x).accesses T v m, a.Inside := by
  unfold Vector.pushBack Call.accesses
  cases hspace : v.hasSpace T m with
  | true =>
      have hnew := h.room_of_hasSpace hlen hlt hfull hspace
      have hoff : Vector.offset T (v.size m) + T.size ≤ v.kMaxLength := by
        unfold Vector.offset
        rw [Nat.mul_comm, Nat.add_assoc, ← Nat.succ_mul]
        exact hnew
      have hbound : v.size m + 1 < 2 ^ 64 := by
        have hmul := Nat.le_mul_of_pos_right (v.size m + 1) T.size_pos
        omega
      rw [if_pos rfl, if_pos rfl]
      refine ⟨?_, ?_⟩
      · dsimp only
        rw [size_write, Nat.mod_eq_of_lt hbound]
        apply confined_write hlen _ hnew hbound
        rw [hx]
        exact hoff
      · intro a ha
        rw [List.mem_singleton.mp ha]
        exact ⟨Nat.le_add_right _ _, hoff⟩
  | false => exact ⟨h.confined, fun a ha => absurd ha List.not_mem_nil⟩

/-! ### `pop_back` -/

omit hlt in
theorem Fits.popBack {y : List UInt8} (hpop : v.popBack T m = some (m', y)) :
    Confined T v m m' ∧ ∀ a ∈ Call.popBack.accesses T v m, a.Inside := by
  have hsize := size_lt v m
  unfold Vector.popBack at hpop
  split at hpop
  · rename_i hpos
    cases hpop
    refine ⟨⟨?_, ?_⟩, ?_⟩
    · have hmul := Nat.mul_le_mul_right T.size (Nat.sub_le (v.size m) 1)
      unfold Fits at h ⊢
      rw [size_setSize, Nat.mod_eq_of_lt (by omega)]
      omega
    · intro w hw hlen'
      exact size_setSize_apart hw hlen hlen' m _
    · intro a ha
      rw [List.mem_singleton.mp ha]
      exact h.element_inside (by omega)
  · cases hpop

/-! ### `erase` -/

omit hlen in
/-- The part of the vector that `erase` moves down. -/
theorem Fits.erase_length : (v.size m - e) * T.size % 2 ^ 64 = (v.size m - e) * T.size := by
  have hmul := Nat.mul_le_mul_right T.size (Nat.sub_le (v.size m) e)
  unfold Fits at h
  exact Nat.mod_eq_of_lt (by omega)

omit hlen hlt in
theorem Fits.erase_inside (hse : s < e) (hle : e ≤ v.size m) :
    Vector.offset T e + (v.size m - e) * T.size ≤ v.kMaxLength ∧
      Vector.offset T s + (v.size m - e) * T.size ≤ v.kMaxLength := by
  have hend : Vector.offset T e + (v.size m - e) * T.size = Vector.offset T (v.size m) := by
    rw [Nat.mul_comm (v.size m - e), offset_add, Nat.add_sub_cancel' hle]
  have hmove : Vector.offset T s ≤ Vector.offset T e := by
    unfold Vector.offset
    exact Nat.add_le_add_left (Nat.mul_le_mul_left _ (Nat.le_of_lt hse)) _
  have hoff := h.offset_le (Nat.le_refl (v.size m))
  omega

theorem Fits.erase (herase : v.erase T m s e = some m') :
    Confined T v m m' ∧ ∀ a ∈ eraseAccesses T v m s e, a.Inside := by
  unfold Vector.erase at herase
  split at herase
  · rename_i hassert
    obtain ⟨hse, -, hle⟩ := hassert
    cases herase
    have hin := h.erase_inside hse hle
    have hmul := Nat.mul_le_mul_right T.size (Nat.sub_le (v.size m) (e - s))
    have hsize := size_lt v m
    refine ⟨?_, ?_⟩
    · rw [size_write]
      apply confined_write hlen
      · rw [Mem.read_length, h.erase_length hlt]
        exact hin.2
      · unfold Fits at h
        omega
      · omega
    · unfold eraseAccesses
      rw [h.erase_length hlt]
      exact inside_pair ⟨Nat.le_add_right _ _, hin.1⟩ ⟨Nat.le_add_right _ _, hin.2⟩
  · cases herase

/-! ### `CopyFrom` -/

/-- The size of the vector that is copied is read after its elements were written. -/
theorem Fits.copyFrom {rhs : Vector} (hrhs : Fits T m rhs) (hlenRhs : sizeofMetaData ≤ rhs.kMaxLength)
    (hltRhs : rhs.kMaxLength < 2 ^ 64) (hapart : v = rhs ∨ Apart v rhs) :
    Confined T v m (v.copyFrom T m rhs).1 ∧ ∀ a ∈ (Call.copyFrom rhs).accesses T v m, a.Inside := by
  have hused := hrhs.used_eq hltRhs
  have hoff : Vector.offset T 0 = sizeofMetaData := rfl
  unfold Fits at hrhs
  have hbound : (rhs.used T m + sizeofMetaData) % 2 ^ 64 = sizeofMetaData + rhs.size m * T.size := by
    rw [hused, Nat.add_comm, Nat.mod_eq_of_lt (by omega)]
  unfold Vector.copyFrom
  simp only [Call.accesses]
  rw [hbound]
  by_cases hsmall : v.kMaxLength < sizeofMetaData + rhs.size m * T.size
  · rw [if_pos hsmall, if_pos hsmall]
    exact ⟨h.confined, fun a ha => absurd ha List.not_mem_nil⟩
  · rw [if_neg hsmall, if_neg hsmall]
    refine ⟨?_, ?_⟩
    · dsimp only
      have hread : rhs.size (m.write (v.address T 0) (m.read (rhs.address T 0) (rhs.used T m))) = rhs.size m := by
        rcases hapart with rfl | hapart
        · exact size_write v m 0 _
        · apply size_write_apart hapart hlenRhs
          · unfold Vector.address
            omega
          · unfold Vector.address
            rw [Mem.read_length, hused, hoff]
            omega
      rw [hread]
      apply confined_write hlen _ (by omega) (size_lt rhs m)
      rw [Mem.read_length, hused, hoff]
      omega
    · rw [hused, hoff]
      exact inside_pair ⟨Nat.le_refl _, hrhs⟩ ⟨Nat.le_refl _, Nat.le_of_not_lt hsmall⟩

end Calls

/-- **One call** on vectors that fit. -/
theorem confined_call (hrec : Recovered T m₀ vs) (hfull : ∀ v ∈ vs, sizeofMetaData + (room T v + 1) * T.size < 2 ^ 64)
    (h : ∀ v ∈ vs, Fits T m v) (hv : v ∈ vs) (hproper : call.Proper T vs) (hexec : call.exec T v m = some m') :
    Confined T v m m' ∧ ∀ a ∈ call.accesses T v m, a.Inside := by
  obtain ⟨hlen, hlt⟩ := hrec.length v hv
  have hfits := h v hv
  cases call with
  | pushBack x =>
      obtain rfl := Option.some.inj hexec
      exact hfits.pushBack hlen hlt (hfull v hv) hproper
  | popBack =>
      have hmap : (v.popBack T m).map Prod.fst = some m' := hexec
      obtain ⟨⟨m₁, y⟩, hpop, rfl⟩ := Option.map_eq_some_iff.mp hmap
      exact hfits.popBack hlen hpop
  | erase s e => exact hfits.erase hlen hlt hexec
  | eraseAt idx => exact hfits.erase hlen hlt hexec
  | copyFrom rhs =>
      obtain rfl := Option.some.inj hexec
      obtain ⟨hlenRhs, hltRhs⟩ := hrec.length rhs hproper
      refine hfits.copyFrom hlen hlt (h rhs hproper) hlenRhs hltRhs ?_
      by_cases heq : v = rhs
      · exact Or.inl heq
      · exact Or.inr (hrec.apart_of_ne hv hproper heq)
  | get idx =>
      have hmap : (v.get T m idx).map (fun _ => m) = some m' := hexec
      obtain ⟨y, hget, rfl⟩ := Option.map_eq_some_iff.mp hmap
      unfold Vector.get at hget
      split at hget
      · rename_i hidx
        refine ⟨hfits.confined, ?_⟩
        intro a ha
        rw [List.mem_singleton.mp ha]
        exact hfits.element_inside hidx
      · cases hget

/-! ## Runs -/

/-- **Every call keeps every vector in its buffer.** -/
theorem fits_step (hrec : Recovered T m₀ vs) (hfull : ∀ v ∈ vs, sizeofMetaData + (room T v + 1) * T.size < 2 ^ 64)
    (h : ∀ v ∈ vs, Fits T m v) {c : Vector × Call} (hstep : Step T vs m c m') : ∀ v ∈ vs, Fits T m' v := by
  obtain ⟨hc, hproper, hexec⟩ := hstep
  obtain ⟨hconf, -⟩ := confined_call hrec hfull h hc hproper hexec
  intro w hw
  by_cases heq : c.1 = w
  · rw [← heq]
    exact hconf.fits
  · have hsize := hconf.others w (hrec.apart_of_ne hc hw heq) (hrec.length w hw).1
    have hfits := h w hw
    unfold Fits at hfits ⊢
    rw [hsize]
    exact hfits

theorem accepted_inv (h : Vector.recoverFrom T m v.md v.kMaxLength = some v) :
    (T.size * v.size m + sizeofMetaData) % 2 ^ 64 ≤ v.kMaxLength := by
  unfold Vector.recoverFrom at h
  dsimp only at h
  split at h
  · cases h
  · rename_i hcheck
    simp only [not_or, not_lt, ne_eq, not_not] at hcheck
    obtain ⟨-, hvalue, hle⟩ := hcheck
    rw [hvalue] at hle
    exact hle

/-- A size that is recorded without wrapping fits. -/
theorem fits_of_spared (h : Vector.recoverFrom T m v.md v.kMaxLength = some v) (hspared : Spared T m v) : Fits T m v := by
  have hle := accepted_inv h
  have hlt := hspared.recorded
  rw [Nat.mul_comm, Nat.add_comm, Nat.mod_eq_of_lt hlt] at hle
  exact hle

theorem sound_run (hrec : Recovered T m vs) (hspared : ∀ v ∈ vs, Spared T m v) {calls : List (Vector × Call)}
    (hrun : Run (Step T vs) m calls m') : Sound T vs m' := by
  have hfull : ∀ v ∈ vs, sizeofMetaData + (room T v + 1) * T.size < 2 ^ 64 := fun v hv => (hspared v hv).full
  have hfits : ∀ v ∈ vs, Fits T m' v :=
    Run.invariant (I := fun m => ∀ v ∈ vs, Fits T m v) (fun _ _ _ h hst => fits_step hrec hfull h hst) hrun
      fun v hv => fits_of_spared (hrec.accepted v hv) (hspared v hv)
  refine ⟨hfits, ?_⟩
  intro c m'' hstep
  exact (confined_call hrec hfull hfits hstep.1 hstep.2.1 hstep.2.2).2

/-! ## When a sum wraps -/

theorem size_pushBack (hspace : v.hasSpace T m = true) (x : List UInt8) :
    v.size (v.pushBack T m x).1 = (v.size m + 1) % 2 ^ 64 := by
  unfold Vector.pushBack
  rw [if_pos hspace, size_setSize, size_write, Nat.mod_mod]

/-- As many elements of zeros as are missing are pushed. -/
theorem run_push (hlen : sizeofMetaData ≤ v.kMaxLength) (hlt : v.kMaxLength < 2 ^ 64) (hv : v ∈ vs) (k : Nat)
    (hk : v.size m + k ≤ room T v) : ∃ calls m', Run (Step T vs) m calls m' ∧ v.size m' = v.size m + k := by
  induction k with
  | zero => exact ⟨[], m, Run.refl, (Nat.add_zero _).symm⟩
  | succ k ih =>
      obtain ⟨calls, m₁, hrun, hsize⟩ := ih (by omega)
      have hroom := room_fits (T := T) hlen
      have hmul : (v.size m₁ + 1) * T.size ≤ room T v * T.size := Nat.mul_le_mul_right T.size (by omega)
      have hsucc : (v.size m₁ + 1) * T.size = v.size m₁ * T.size + T.size := Nat.succ_mul _ _
      have hpos := Nat.le_mul_of_pos_right (v.size m₁ + 1) T.size_pos
      have hspace : v.hasSpace T m₁ = true := by
        unfold Vector.hasSpace Vector.used
        rw [Nat.mod_eq_of_lt (a := v.size m₁ * T.size) (by omega), Nat.mod_eq_of_lt (by omega), decide_eq_true_eq]
        omega
      have hstep : Step T vs m₁ (v, .pushBack (List.replicate T.size 0)) _ := ⟨hv, List.length_replicate, rfl⟩
      have hbound : v.size m₁ + 1 < 2 ^ 64 := by omega
      refine ⟨_, _, hrun.tail hstep, ?_⟩
      rw [size_pushBack hspace, Nat.mod_eq_of_lt hbound, hsize, Nat.add_assoc]

/-- **A full vector outgrows its buffer**, when the sum of `HasSpace` wraps. -/
theorem not_sound_of_full (hlen : sizeofMetaData ≤ v.kMaxLength) (hlt : v.kMaxLength < 2 ^ 64) (hv : v ∈ vs)
    (hfits : Fits T m v) (hfull : ¬ sizeofMetaData + (room T v + 1) * T.size < 2 ^ 64) :
    ∃ calls m', Run (Step T vs) m calls m' ∧ ¬ Sound T vs m' := by
  have hle := (fits_iff hlen).mp hfits
  obtain ⟨calls, m₁, hrun, hsize⟩ := run_push (T := T) (m := m) hlen hlt hv (room T v - v.size m) (by omega)
  rw [Nat.add_sub_cancel' hle] at hsize
  have hroom := room_fits (T := T) hlen
  have hsucc : (room T v + 1) * T.size = room T v * T.size + T.size := Nat.succ_mul _ _
  have hpos := Nat.le_mul_of_pos_right (room T v) T.size_pos
  have hTlt := T.size_lt
  have hmeta : sizeofMetaData = 24 := rfl
  have hspace : v.hasSpace T m₁ = true := by
    unfold Vector.hasSpace Vector.used
    rw [hsize, Nat.mod_eq_of_lt (a := room T v * T.size) (by omega), decide_eq_true_eq]
    omega
  have hstep : Step T vs m₁ (v, .pushBack (List.replicate T.size 0)) _ := ⟨hv, List.length_replicate, rfl⟩
  refine ⟨_, _, hrun.tail hstep, ?_⟩
  intro hsound
  have hbound : room T v + 1 < 2 ^ 64 := by omega
  have hbig := hsound.fits v hv
  unfold Fits at hbig
  rw [size_pushBack hspace, hsize, Nat.mod_eq_of_lt hbound] at hbig
  omega

/-- **No vector outgrows its buffer and no call reaches outside**, whatever is called, exactly when neither the size that is
    recorded nor the size of a full vector wraps. -/
theorem sound_iff (hrec : Recovered T m vs) :
    (∀ calls m', Run (Step T vs) m calls m' → Sound T vs m') ↔ ∀ v ∈ vs, Spared T m v := by
  constructor
  · intro h v hv
    obtain ⟨hlen, hlt⟩ := hrec.length v hv
    have hfits := (h [] m Run.refl).fits v hv
    refine ⟨Nat.lt_of_le_of_lt hfits hlt, ?_⟩
    by_contra hfull
    obtain ⟨calls, m', hrun, hnot⟩ := not_sound_of_full hlen hlt hv hfits hfull
    exact hnot (h calls m' hrun)
  · intro h calls m' hrun
    exact sound_run hrec h hrun

/-- `size_t`, for one. -/
def eightBytes : Pod := ⟨8, by decide, by decide⟩

/-- A buffer with room for two elements, as `CreateFrom` leaves it. -/
def createdBuffer : Mem := (Vector.createFrom eightBytes (fun _ => 0) 0 40).1

theorem sound_created : ∃ m', Run (Step eightBytes [⟨0, 40⟩]) createdBuffer [(⟨0, 40⟩, .pushBack (List.replicate 8 1))] m' ∧
    Sound eightBytes [⟨0, 40⟩] m' := by
  have hrec : Recovered eightBytes createdBuffer [⟨0, 40⟩] := by
    refine ⟨?_, ?_, List.pairwise_singleton _ _⟩
    · intro v hv
      rw [List.mem_singleton.mp hv]
      decide +kernel
    · intro v hv
      rw [List.mem_singleton.mp hv]
      decide
  have hstep : Step eightBytes [⟨0, 40⟩] createdBuffer (⟨0, 40⟩, .pushBack (List.replicate 8 1)) _ :=
    ⟨List.mem_singleton_self _, List.length_replicate, rfl⟩
  refine ⟨_, Run.single hstep, (sound_iff hrec).mpr ?_ _ _ (Run.single hstep)⟩
  intro v hv
  rw [List.mem_singleton.mp hv]
  exact ⟨by decide +kernel, by decide⟩

/-- Metadata that records `2 ^ 61` elements. -/
def wrappingBuffer : Mem := Vector.setSize ⟨0, 24⟩ (Vector.createFrom eightBytes (fun _ => 0) 0 24).1 (2 ^ 61)

/-- **A buffer of 24 bytes is accepted** as one with `2 ^ 61` elements of eight bytes. -/
theorem not_sound_wrapping : Vector.recoverFrom eightBytes wrappingBuffer 0 24 = some ⟨0, 24⟩ ∧
    ¬ ∀ calls m', Run (Step eightBytes [⟨0, 24⟩]) wrappingBuffer calls m' → Sound eightBytes [⟨0, 24⟩] m' := by
  refine ⟨by decide +kernel, ?_⟩
  intro h
  have hfits := (h [] wrappingBuffer Run.refl).fits ⟨0, 24⟩ (List.mem_singleton_self _)
  revert hfits
  unfold Fits
  decide +kernel

end PersistentVector
end Snippets
