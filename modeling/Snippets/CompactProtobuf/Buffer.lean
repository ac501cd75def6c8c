import Snippets.CompactProtobuf.Encoder
import Mathlib.Data.Nat.Log

/-!
# `CompactProtobuf.Buffer` — `EncoderBuffer`

The encoders append to a buffer that starts on the stack and moves to the heap when it is full. `Append` doubles the capacity
once, and asserts that this is enough. `appended_iff_fits` says for which sequences of calls it is.
-/

namespace Snippets

open Lib

namespace CompactProtobuf

/-! ## The buffer

The buffer is a block with whatever memory held behind the bytes that were appended, the position, the capacity, and
whether the block is still the one on the stack. -/

/-- `kStackBufLength`: 4K. -/
def kStackBufLength : Nat := 1 <<< 12

/-- What new memory holds, be it on the stack or from `malloc`. -/
abbrev Garbage := Nat → UInt8

/-- What a block that was just allocated holds. -/
def Garbage.block (garbage : Garbage) (n : Nat) : List UInt8 := (List.range n).map garbage

/-- `memcpy(block + pos, bytes, bytes.length)`. -/
def memcpy (block : List UInt8) (pos : Nat) (bytes : List UInt8) : List UInt8 :=
  block.take pos ++ bytes ++ block.drop (pos + bytes.length)

/-- `buf` is the block that `buf_` points to: `stack_buf_`, or one on the heap. -/
structure EncoderBuffer where
  heap : Bool
  buf : List UInt8
  pos : Nat
  capacity : Nat

namespace EncoderBuffer

variable (garbage : Garbage)

/-- `EncoderBuffer::EncoderBuffer`. -/
def new : EncoderBuffer := ⟨false, garbage.block kStackBufLength, 0, kStackBufLength⟩

/-- How many bytes were appended. -/
def size (b : EncoderBuffer) : Nat := b.pos

/-- `ReallocBuffer`: twice the capacity, and the old bytes at the front. -/
def reallocBuffer (b : EncoderBuffer) : EncoderBuffer :=
  let newCapacity := b.capacity * 2
  let newBuf := memcpy (garbage.block newCapacity) 0 (b.buf.take b.size)
  { b with heap := true, buf := newBuf, capacity := newCapacity }

/-- `Append(const Byte*, size_t)`; all bytes lie in memory, so no sum of lengths overflows. -/
def append (b : EncoderBuffer) (bytes : List UInt8) : Option EncoderBuffer :=
  let b := if bytes.length + b.size > b.capacity then b.reallocBuffer garbage else b
  if bytes.length + b.size ≤ b.capacity then
    some { b with buf := memcpy b.buf b.pos bytes, pos := b.pos + bytes.length }
  else none

/-- `Append(const Slice&)`. -/
def appendSlice (mem : Mem) (b : EncoderBuffer) (slice : Slice) : Option EncoderBuffer :=
  if slice.endAddr ≥ slice.start then b.append garbage (mem.read slice.start (slice.endAddr - slice.start)) else none

/-- `Append(const EncoderBuffer&)`: the first `size()` bytes of its block. -/
def appendBuffer (b buf : EncoderBuffer) : Option EncoderBuffer := b.append garbage (buf.buf.take buf.size)

/-- The bytes that were appended. -/
def toString (b : EncoderBuffer) : List UInt8 := b.buf.take b.size

end EncoderBuffer

/-! ## One append -/

namespace EncoderBuffer

variable {garbage : Garbage} {b b' : EncoderBuffer} {bytes : List UInt8}

/-- The block has as many bytes as the capacity says, and the position is not beyond. -/
structure Ok (b : EncoderBuffer) : Prop where
  length : b.buf.length = b.capacity
  size : b.size ≤ b.capacity

/-- The length that was asked for. -/
@[simp] theorem length_block (garbage : Garbage) (n : Nat) : (garbage.block n).length = n := by
  unfold Garbage.block
  rw [List.length_map, List.length_range]

/-- Copying into a block keeps its length. -/
theorem length_memcpy {block : List UInt8} {pos : Nat} (h : pos + bytes.length ≤ block.length) :
    (memcpy block pos bytes).length = block.length := by
  unfold memcpy
  rw [List.length_append, List.length_append, List.length_take, List.length_drop]
  omega

/-- The bytes up to the end of what was copied. -/
theorem take_memcpy {block : List UInt8} {pos : Nat} (h : pos + bytes.length ≤ block.length) :
    (memcpy block pos bytes).take (pos + bytes.length) = block.take pos ++ bytes := by
  have hlen : (block.take pos ++ bytes).length = pos + bytes.length := by
    rw [List.length_append, List.length_take, Nat.min_eq_left (by omega)]
  unfold memcpy
  rw [← hlen, List.take_left]

/-- The new buffer, on the stack. -/
theorem ok_new (garbage : Garbage) : (new garbage).Ok where
  length := by
    unfold new
    dsimp only
    rw [length_block]
  size := Nat.zero_le _

/-- As many bytes as were appended. -/
theorem Ok.length_toString (h : b.Ok) : b.toString.length = b.size := by
  unfold toString
  rw [List.length_take, h.length, Nat.min_eq_left h.size]

/-- A bigger block with the same bytes in front. -/
theorem Ok.reallocBuffer (h : b.Ok) :
    (b.reallocBuffer garbage).Ok ∧ (b.reallocBuffer garbage).toString = b.toString := by
  have hlen := h.length_toString
  unfold EncoderBuffer.toString at hlen
  have hroom : 0 + (b.buf.take b.size).length ≤ (garbage.block (b.capacity * 2)).length := by
    have hsize := h.size
    rw [hlen, length_block]
    omega
  have htake := take_memcpy hroom
  rw [List.take_zero, List.nil_append, hlen, Nat.zero_add] at htake
  refine ⟨⟨?_, ?_⟩, htake⟩
  · exact (length_memcpy hroom).trans (length_block garbage _)
  · exact Nat.le_trans h.size (Nat.le_mul_of_pos_right _ Nat.two_pos)

/-- An append that fits into the block there is. -/
theorem Ok.copy (h : b.Ok) (hfits : bytes.length + b.size ≤ b.capacity) :
    let b' := { b with buf := memcpy b.buf b.pos bytes, pos := b.pos + bytes.length }
    EncoderBuffer.Ok b' ∧ EncoderBuffer.toString b' = b.toString ++ bytes := by
  have hroom : b.pos + bytes.length ≤ b.buf.length := by
    rw [h.length, Nat.add_comm]
    exact hfits
  refine ⟨⟨(length_memcpy hroom).trans h.length, ?_⟩, take_memcpy hroom⟩
  rw [Nat.add_comm] at hfits
  exact hfits

/-- **What `Append` does**: the bytes come behind those that are there, unless they are too many for twice the capacity. -/
theorem Ok.append (h : b.Ok) (bytes : List UInt8) :
    if b.size + bytes.length ≤ b.capacity * 2 then
      ∃ b', b.append garbage bytes = some b' ∧ b'.Ok ∧ b'.toString = b.toString ++ bytes ∧
        b'.capacity = if b.size + bytes.length ≤ b.capacity then b.capacity else b.capacity * 2
    else b.append garbage bytes = none := by
  unfold EncoderBuffer.append
  by_cases hsmall : b.size + bytes.length ≤ b.capacity
  · have hle : b.size + bytes.length ≤ b.capacity * 2 := by omega
    have hfits : bytes.length + b.size ≤ b.capacity := by omega
    obtain ⟨hok, hstring⟩ := h.copy hfits
    rw [if_pos hle, if_neg (Nat.not_lt_of_le hfits), if_pos hfits]
    exact ⟨_, rfl, hok, hstring, (if_pos hsmall).symm⟩
  · have hgrows : bytes.length + b.size > b.capacity := by omega
    have ⟨hok, hstring⟩ : (b.reallocBuffer garbage).Ok ∧ (b.reallocBuffer garbage).toString = b.toString := h.reallocBuffer
    rw [if_pos hgrows]
    by_cases hle : b.size + bytes.length ≤ b.capacity * 2
    · have hfits : bytes.length + (b.reallocBuffer garbage).size ≤ (b.reallocBuffer garbage).capacity := by
        rw [Nat.add_comm]
        exact hle
      obtain ⟨hok', hstring'⟩ := hok.copy hfits
      rw [if_pos hle, if_pos hfits, hstring] at *
      exact ⟨_, rfl, hok', hstring', (if_neg hsmall).symm⟩
    · have hmany : ¬ bytes.length + (b.reallocBuffer garbage).size ≤ (b.reallocBuffer garbage).capacity := by
        rw [Nat.add_comm]
        exact hle
      rw [if_neg hle, if_neg hmany]

end EncoderBuffer

/-! ## Sequences of appends -/

/-- The three sorts of calls. -/
inductive Append
  | ofBytes (bytes : List UInt8)
  | ofSlice (mem : Mem) (slice : Slice)
  | ofBuffer (buf : EncoderBuffer)

/-- The call in the code. -/
def Append.exec (garbage : Garbage) (b : EncoderBuffer) : Append → Option EncoderBuffer
  | .ofBytes bytes => b.append garbage bytes
  | .ofSlice mem slice => b.appendSlice garbage mem slice
  | .ofBuffer buf => b.appendBuffer garbage buf

/-- What a call appends. -/
def Append.content : Append → List UInt8
  | .ofBytes bytes => bytes
  | .ofSlice mem slice => mem.read slice.start (slice.endAddr - slice.start)
  | .ofBuffer buf => buf.toString

/-- A slice does not end before it starts. -/
def Append.Proper : Append → Prop
  | .ofBytes _ | .ofBuffer _ => True
  | .ofSlice _ slice => slice.start ≤ slice.endAddr

/-- All calls, on a new buffer. -/
def appendAll (garbage : Garbage) (calls : List Append) : Option EncoderBuffer :=
  calls.foldlM (Append.exec garbage) (.new garbage)

/-- What all calls append together. -/
def contents (calls : List Append) : List UInt8 := calls.flatMap Append.content

/-- No assertion fails, the size stays within the capacity, and `ToString` is what was appended: after every call. -/
def Appended (garbage : Garbage) (calls : List Append) : Prop :=
  ∀ k ≤ calls.length, ∃ b, appendAll garbage (calls.take k) = some b ∧ b.size ≤ b.capacity ∧
    b.toString = contents (calls.take k)

/-- The least power of two from `kStackBufLength` on that is at least `n`. -/
def level (n : Nat) : Nat := max kStackBufLength (2 ^ Nat.clog 2 n)

/-- Call `k` does not make the total more than twice the level of the total before it. -/
def FitsAt (calls : List Append) (k : Nat) : Prop :=
  (contents (calls.take (k + 1))).length ≤ level (contents (calls.take k)).length * 2

/-- Every append of the sequence fits. -/
def Fits (calls : List Append) : Prop := ∀ k < calls.length, FitsAt calls k

section Level

variable {n i k : Nat}

/-- The capacity at a size is no less than it. -/
theorem le_level (n : Nat) : n ≤ level n := Nat.le_trans (Nat.le_pow_clog Nat.one_lt_two n) (Nat.le_max_right _ _)

/-- A capacity is a power of two, from 4096 on. -/
theorem level_eq_pow (n : Nat) : ∃ k, 12 ≤ k ∧ level n = 2 ^ k := by
  unfold level
  by_cases h : 12 ≤ Nat.clog 2 n
  · exact ⟨_, h, Nat.max_eq_right (Nat.pow_le_pow_right Nat.two_pos h)⟩
  · have hle : 2 ^ Nat.clog 2 n ≤ 2 ^ 12 := Nat.pow_le_pow_right Nat.two_pos (Nat.le_of_not_le h)
    exact ⟨12, Nat.le_refl _, Nat.max_eq_left hle⟩

/-- The level is the least of these powers. -/
theorem level_le (hk : 12 ≤ k) (hn : n ≤ 2 ^ k) : level n ≤ 2 ^ k := by
  unfold level
  apply Nat.max_le.mpr
  refine ⟨Nat.pow_le_pow_right Nat.two_pos hk, Nat.pow_le_pow_right Nat.two_pos ?_⟩
  exact Nat.clog_le_of_le_pow hn

/-- Capacities grow with the size. -/
theorem level_mono (h : n ≤ i) : level n ≤ level i := by
  obtain ⟨k, hk, heq⟩ := level_eq_pow i
  rw [heq]
  apply level_le hk
  rw [← heq]
  exact Nat.le_trans h (le_level i)

/-- The capacity is doubled when the level is. -/
theorem level_step (h : n ≤ i) (hi : i ≤ level n * 2) : (if i ≤ level n then level n else level n * 2) = level i := by
  obtain ⟨k, hk, heq⟩ := level_eq_pow n
  obtain ⟨j, hj, heq'⟩ := level_eq_pow i
  have hle := level_mono h
  by_cases hsmall : i ≤ level n
  · rw [if_pos hsmall]
    apply Nat.le_antisymm hle
    rw [heq] at hsmall ⊢
    exact level_le hk hsmall
  · rw [if_neg hsmall]
    have hbig : 2 ^ k < 2 ^ j := by
      rw [← heq, ← heq']
      exact Nat.lt_of_lt_of_le (Nat.lt_of_not_le hsmall) (le_level i)
    have hkj : k + 1 ≤ j := (Nat.pow_lt_pow_iff_right Nat.one_lt_two).mp hbig
    rw [heq, ← Nat.pow_succ] at hi ⊢
    apply Nat.le_antisymm
    · rw [heq']
      exact Nat.pow_le_pow_right Nat.two_pos hkj
    · exact level_le (Nat.le_succ_of_le hk) hi

end Level

section Sequences

variable {garbage : Garbage} {b : EncoderBuffer} {calls : List Append} {call : Append} {k : Nat}

/-- A proper call appends its content. -/
theorem Append.exec_eq (h : call.Proper) : call.exec garbage b = b.append garbage call.content := by
  cases call with
  | ofBytes bytes => rfl
  | ofSlice mem slice => exact if_pos h
  | ofBuffer buf => rfl

/-- What the calls leave behind: their bytes, and a capacity that depends on how many there are. -/
structure Filled (calls : List Append) (b : EncoderBuffer) : Prop where
  ok : b.Ok
  toString_eq : b.toString = contents calls
  capacity : b.capacity = level (contents calls).length

/-- Nothing was appended yet. -/
theorem filled_nil (garbage : Garbage) : Filled [] (.new garbage) where
  ok := EncoderBuffer.ok_new garbage
  toString_eq := List.take_zero
  capacity := by
    unfold level contents
    rfl

/-- One more call. -/
theorem contents_concat (calls : List Append) (call : Append) : contents (calls ++ [call]) = contents calls ++ call.content := by
  unfold contents
  rw [List.flatMap_append, List.flatMap_singleton]

/-- **One call**: it fits, or the assertion fails. -/
theorem Filled.exec (h : Filled calls b) (hcall : call.Proper) :
    if (contents (calls ++ [call])).length ≤ level (contents calls).length * 2 then
      ∃ b', call.exec garbage b = some b' ∧ Filled (calls ++ [call]) b'
    else call.exec garbage b = none := by
  have happend := @EncoderBuffer.Ok.append garbage b h.ok call.content
  have hsize : b.size = (contents calls).length := by rw [← h.ok.length_toString, h.toString_eq]
  rw [contents_concat, List.length_append, Append.exec_eq hcall]
  rw [hsize, h.capacity] at happend
  by_cases hle : (contents calls).length + call.content.length ≤ level (contents calls).length * 2
  · rw [if_pos hle] at happend ⊢
    obtain ⟨b', hb', hok, hstring, hcapacity⟩ := happend
    refine ⟨b', hb', hok, ?_, ?_⟩
    · rw [hstring, h.toString_eq, contents_concat]
    · rw [hcapacity, contents_concat, List.length_append]
      exact level_step (Nat.le_add_right _ _) hle
  · rw [if_neg hle] at happend ⊢
    exact happend

/-- The last call comes after the others. -/
theorem appendAll_concat (calls : List Append) (call : Append) :
    appendAll garbage (calls ++ [call]) = (appendAll garbage calls).bind (call.exec garbage ·) := by
  unfold appendAll
  rw [List.foldlM_append]
  simp only [List.foldlM_cons, List.foldlM_nil, bind_pure]
  rfl

/-- The first calls, and one more. -/
theorem take_concat (hk : k < calls.length) : calls.take (k + 1) = calls.take k ++ [calls[k]] := by
  rw [List.take_append_getElem hk]

/-- When all of the first calls fit, they all succeed. -/
theorem appendAll_of_fits (hproper : ∀ call ∈ calls, call.Proper) (hk : k ≤ calls.length) (hfits : ∀ i < k, FitsAt calls i) :
    ∃ b, appendAll garbage (calls.take k) = some b ∧ Filled (calls.take k) b := by
  induction k with
  | zero => exact ⟨_, rfl, filled_nil garbage⟩
  | succ k ih =>
      obtain ⟨b, hb, hfilled⟩ := ih (Nat.le_of_succ_le hk) fun i hi => hfits i (Nat.lt_succ_of_lt hi)
      have hexec := @Filled.exec garbage _ _ _ hfilled (hproper calls[k] (List.getElem_mem hk))
      have hlast := hfits k (Nat.lt_succ_self k)
      unfold FitsAt at hlast
      rw [take_concat hk] at hlast ⊢
      rw [if_pos hlast] at hexec
      obtain ⟨b', hb', hfilled'⟩ := hexec
      exact ⟨b', by rw [appendAll_concat, hb]; exact hb', hfilled'⟩

/-- When the first calls succeed, they all fit. -/
theorem fits_of_appendAll (hproper : ∀ call ∈ calls, call.Proper) (hk : k ≤ calls.length)
    (h : appendAll garbage (calls.take k) = some b) : Filled (calls.take k) b ∧ ∀ i < k, FitsAt calls i := by
  induction k generalizing b with
  | zero =>
      cases h
      exact ⟨filled_nil garbage, fun i hi => absurd hi (Nat.not_lt_zero i)⟩
  | succ k ih =>
      rw [take_concat hk, appendAll_concat] at h
      obtain ⟨b₀, hb₀, hb⟩ := Option.bind_eq_some_iff.mp h
      obtain ⟨hfilled, hfits⟩ := ih (Nat.le_of_succ_le hk) hb₀
      have hexec := @Filled.exec garbage _ _ _ hfilled (hproper calls[k] (List.getElem_mem hk))
      by_cases hlast : FitsAt calls k
      · have hlast' := hlast
        unfold FitsAt at hlast'
        rw [take_concat hk] at hlast' ⊢
        rw [if_pos hlast', hb] at hexec
        obtain ⟨b', hb', hfilled'⟩ := hexec
        cases hb'
        refine ⟨hfilled', ?_⟩
        intro i hi
        rcases Nat.lt_succ_iff_lt_or_eq.mp hi with hi | rfl
        · exact hfits i hi
        · exact hlast
      · unfold FitsAt at hlast
        rw [take_concat hk] at hlast
        rw [if_neg hlast, hb] at hexec
        cases hexec

/-- **`EncoderBuffer` holds what was appended** exactly when one doubling of the capacity is enough for each call. -/
theorem appended_iff_fits (garbage : Garbage) (hproper : ∀ call ∈ calls, call.Proper) :
    Appended garbage calls ↔ Fits calls := by
  constructor
  · intro h
    obtain ⟨b, hb, -⟩ := h calls.length (Nat.le_refl _)
    exact (fits_of_appendAll hproper (Nat.le_refl _) hb).2
  · intro h k hk
    obtain ⟨b, hb, hfilled⟩ := @appendAll_of_fits garbage _ _ hproper hk fun i hi => h i (Nat.lt_of_lt_of_le hi hk)
    exact ⟨b, hb, hfilled.ok.size, hfilled.toString_eq⟩

/-- Within the first capacity, beyond it, and beyond the doubled one. -/
def threeAppends : List Append :=
  [.ofBytes (List.replicate 4000 7), .ofSlice (fun _ => 8) ⟨4096, 8196⟩, .ofBytes (List.replicate 8000 9)]

/-- The slice among them does not end before it starts. -/
theorem threeAppends_proper : ∀ call ∈ threeAppends, call.Proper := by
  intro call hcall
  simp only [threeAppends, List.mem_cons, List.not_mem_nil, or_false] at hcall
  rcases hcall with rfl | rfl | rfl
  · trivial
  · show 4096 ≤ 8196
    decide
  · trivial

/-- A sequence that moves to the heap. -/
theorem appended_threeAppends : Appended (fun _ => 0) threeAppends := by
  refine (appended_iff_fits _ threeAppends_proper).mpr fun k hk => ?_
  have hlen₁ : (contents (threeAppends.take 1)).length = 4000 := by
    simp [contents, threeAppends, Append.content, -List.reduceReplicate]
  have hlen₂ : (contents (threeAppends.take 2)).length = 8100 := by
    simp [contents, threeAppends, Append.content, -List.reduceReplicate]
  have hlen₃ : (contents (threeAppends.take 3)).length = 16100 := by
    simp [contents, threeAppends, Append.content, -List.reduceReplicate]
  have hstack : ∀ n, 4096 ≤ level n := fun n => Nat.le_max_left _ _
  obtain rfl | rfl | rfl : k = 0 ∨ k = 1 ∨ k = 2 := by
    have hk' : k < 3 := hk
    omega
  · have hfirst := hstack (contents (threeAppends.take 0)).length
    show (contents (threeAppends.take 1)).length ≤ level (contents (threeAppends.take 0)).length * 2
    omega
  · have hfirst := hstack (contents (threeAppends.take 1)).length
    show (contents (threeAppends.take 2)).length ≤ level (contents (threeAppends.take 1)).length * 2
    omega
  · have hdoubled := le_level (contents (threeAppends.take 2)).length
    show (contents (threeAppends.take 3)).length ≤ level (contents (threeAppends.take 2)).length * 2
    omega

/-- A new buffer does not take more than 8192 bytes at once. -/
theorem not_appended_8193 : ¬ Appended (fun _ => 0) [.ofBytes (List.replicate 8193 0)] := by
  intro h
  obtain ⟨b, hb, -⟩ := h 1 (Nat.le_refl _)
  have hproper : ∀ call ∈ [Append.ofBytes (List.replicate 8193 0)], call.Proper := by
    intro call hcall
    rw [List.mem_singleton.mp hcall]
    trivial
  have hfits := (fits_of_appendAll hproper (Nat.le_refl 1) hb).2 0 Nat.zero_lt_one
  have hlen : (contents [Append.ofBytes (List.replicate 8193 0)]).length = 8193 := by
    unfold contents
    rw [List.flatMap_singleton, Append.content, List.length_replicate]
  have hlevel : level 0 = 4096 := by decide
  have hbound : 8193 ≤ level 0 * 2 := by
    rw [← hlen]
    exact hfits
  omega

end Sequences

end CompactProtobuf
end Snippets
