import Snippets.RingBuffer.Fifo

/-!
# `RingBuffer.Limits` — exactly which buffer lengths are FIFOs

The ring keeps its length, the size of a record and `used()` in `int`s. `Push` rejects `len >= length()`
before it adds the four bytes of the length word, so on a buffer within three bytes of `2^31` the record size
of a message that passed that test wraps to a negative number, `CheckCanWrite` finds room for it, and the copy
runs past `end_` (`not_fifoSpec_near`). From `2^31` bytes on `length_` itself wraps: either it is at most `1`
and every `Push` is rejected (`fifoSpec_of_rejecting`), or pushes are accepted until `used()` wraps
(`not_fifoSpec_large`).
-/

namespace Snippets

open Lib

namespace RingBuffer

variable {len : Nat} {rb rb' : RingBuffer} {q : List Entry}

theorem create_eq (mem : Mem) (h : 1024 < len) :
    create len mem = some { endOff := len, length := toInt32 len, offsets := ⟨0, 0, 0, 0⟩, mem := mem } := by
  unfold create
  rw [if_pos h]

/-! ## Lengths on which every `Push` is rejected -/

/-- With `length_ <= 1` no message is shorter than the buffer, so the ring stays empty. -/
theorem fifoSpec_of_rejecting (hlen : toInt32 len ≤ 1) : FifoSpec len := by
  intro mem rb₀ hc calls rb hrun
  -- the relation: an empty ring whose `length_` admits no message
  let R : RingBuffer → List Entry → Prop := fun rb q =>
    q = [] ∧ rb.length ≤ 1 ∧ rb.front = 0 ∧ rb.back = 0 ∧ rb.size = 0
  have hused : ∀ rb q, R rb q → rb.used = 0 := by
    rintro rb q ⟨-, -, hf, hb, -⟩
    unfold RingBuffer.used
    rw [hf, hb, if_pos (le_refl 0), toInt32_of_range (by omega) (by omega)]
    rfl
  have hstep : ∀ rb c rb' q, R rb q → Step rb c rb' → ∃ q', FifoStep len q c q' ∧ R rb' q' := by
    intro rb c rb' q hR hst
    obtain ⟨rfl, hl, hf, hb, hs⟩ := id hR
    cases c with
    | push buf ok ws =>
        have hrej : rb.push buf = some (rb, false, []) := by
          unfold RingBuffer.push
          rw [if_pos (by omega)]
        obtain ⟨-, hst⟩ := hst
        rw [hrej] at hst
        cases hst
        exact ⟨[], ⟨rfl, rfl⟩, hR⟩
    | pop res =>
        have hpop : rb.pop = (rb, none) := by
          unfold RingBuffer.pop
          rw [if_pos (hused rb [] hR)]
        have hst' : rb.pop = (rb', res) := hst
        rw [hpop] at hst'
        cases hst'
        exact ⟨[], ⟨rfl, rfl⟩, hR⟩
  have hinit : R rb₀ [] := by
    unfold create at hc
    split at hc
    · cases hc; exact ⟨rfl, hlen, rfl, rfl, rfl⟩
    · cases hc
  obtain ⟨q, hq, hR⟩ := Run.simulates hstep hrun hinit
  refine ⟨⟨q, hq, ?_, ?_⟩, fun buf ws rb' hst => (push_rejected hst.2).1, fun buf _ => push_ne_none rb buf⟩
  · rw [hR.1, hR.2.2.2.2]; rfl
  · rw [hused rb q hR, hR.1]; rfl

/-! ## Lengths within three bytes of `2^31` -/

/-- On an empty ring a message that passes `Push`'s test, with a record size that wraps or fits, is
    written at `start_` without padding. -/
theorem push_fresh (rb : RingBuffer) (buf : List UInt8) (hf : rb.front = 0) (hb : 0 ≤ rb.back) (hpos : 0 < buf.length)
    (hlt : (buf.length : Int) < rb.length) (hfit : rb.back + toInt32 (4 + (buf.length : Int)) < rb.endOff) :
    rb.push buf = some ((rb.putMessage buf).1.setSize (1 + rb.size), true, (rb.putMessage buf).2) := by
  have hcheck : rb.checkCanWrite buf.length = some false := by
    unfold checkCanWrite
    dsimp only
    rw [if_pos (by omega), if_neg (by omega)]
  unfold RingBuffer.push
  rw [if_neg (by omega), hcheck]
  simp only [write, Bool.false_eq_true, if_false]
  rfl

theorem toInt32_two_pow : toInt32 (4 + 2147483644) = -2147483648 := by
  unfold toInt32
  decide

/-- Three lengths below `2^31` let a record of `2^31` bytes through. -/
theorem not_fifoSpec_near (h₁ : 2 ^ 31 - 4 < len) (h₂ : len < 2 ^ 31) : ¬ FifoSpec len := by
  intro hspec
  have hl : toInt32 (len : Int) = len := toInt32_of_range (by omega) (by omega)
  obtain ⟨buf, hbuf⟩ : ∃ buf : List UInt8, buf.length = 2147483644 :=
    ⟨List.replicate 2147483644 0, List.length_replicate⟩
  have hc := create_eq (fun _ => 0) (show 1024 < len by omega)
  generalize hrb : RingBuffer.mk _ _ _ _ = rb at hc
  have hpush := push_fresh rb buf (by rw [← hrb]; rfl) (by rw [← hrb]; exact le_refl 0)
    (by omega) (by rw [← hrb, hbuf]; show (2147483644 : Int) < toInt32 len; omega)
    (by rw [← hrb, hbuf]; show (0 : Int) + toInt32 (4 + 2147483644) < len; rw [toInt32_two_pow]; omega)
  have hrun : Run Step rb [.push buf true (rb.putMessage buf).2] _ :=
    Run.single (show Step rb _ _ from ⟨by omega, hpush⟩)
  obtain ⟨⟨q, hq, -⟩, -⟩ := hspec _ _ hc _ _ hrun
  have hq' : Run (FifoStep len) [] ([] ++ [.push buf true (rb.putMessage buf).2]) q := hq
  obtain ⟨q₀, -, hstep⟩ := hq'.snoc_inv
  -- the second write of the record, `memcpy(back, buf, len)`, ends `2^31` bytes after `start_`
  have hbody := (hstep.2 ⟨rb.back + 4, buf⟩ (by simp [RingBuffer.putMessage])).1.2
  have hback : rb.back = 0 := by rw [← hrb]; rfl
  rw [hback, hbuf] at hbody
  push_cast at hbody
  omega

/-! ## Lengths from `2^31` on with a positive `length_` -/

/-- `k` accepted one-byte pushes from a fresh ring: they fill `[start_, start_ + 5k)`. -/
theorem run_oneBytes (rb₀ : RingBuffer) (hf : rb₀.front = 0) (hb : rb₀.back = 0) (hl : 1 < rb₀.length) (k : Nat)
    (hk : 5 * (k : Int) < rb₀.endOff) :
    ∃ calls rb, Run Step rb₀ calls rb ∧ calls.length = k ∧ (∀ c ∈ calls, ∃ ws, c = .push [0] true ws) ∧
      rb.front = 0 ∧ rb.back = 5 * k ∧ rb.length = rb₀.length ∧ rb.endOff = rb₀.endOff := by
  induction k with
  | zero => exact ⟨[], rb₀, Run.refl, rfl, by simp, hf, by simpa using hb, rfl, rfl⟩
  | succ k ih =>
      push_cast at hk
      obtain ⟨calls, rb, hrun, hlen, hcalls, hf', hb', hl', he'⟩ := ih (by omega)
      have htot : toInt32 (4 + (([0] : List UInt8).length : Int)) = 5 := toInt32_of_range (by simp) (by simp)
      have hpush := push_fresh rb [0] hf' (by omega) (by simp) (by rw [hl']; simpa using hl)
        (by rw [htot, hb', he']; omega)
      have hst : Step rb (.push [0] true (rb.putMessage [0]).2) _ := ⟨by simp, hpush⟩
      refine ⟨_, _, hrun.tail hst, ?_, ?_, hf', ?_, hl', he'⟩
      · rw [List.length_append, hlen]; rfl
      · intro c hc
        rcases List.mem_append.mp hc with hc | hc
        · exact hcalls c hc
        · rw [List.mem_singleton] at hc; exact ⟨_, hc⟩
      · show rb.back + 4 + (1 : Nat) = _
        rw [hb']
        push_cast
        omega

/-- After accepted one-byte pushes only, the queue costs five bytes a push. -/
theorem totalCost_oneBytes {calls : List Call} (h : Run (FifoStep len) [] calls q)
    (hcalls : ∀ c ∈ calls, ∃ ws, c = .push [0] true ws) : totalCost q = 5 * calls.length := by
  induction h with
  | refl => rfl
  | @tail q₁ q₂ as a _ hst ih =>
      obtain ⟨ws, rfl⟩ := hcalls a (by simp)
      obtain ⟨⟨b, rfl⟩, -⟩ := hst
      rw [totalCost_append, ih fun c hc => hcalls c (List.mem_append_left _ hc), List.length_append]
      simp only [totalCost_cons, totalCost_nil, Entry.cost, List.length_singleton]
      push_cast
      omega

/-- The smallest multiple of five past `2^31` reads as a negative `used()`. -/
theorem toInt32_used : toInt32 2147483650 = -2147483646 := by
  unfold toInt32
  decide

/-- A larger buffer that accepts pushes at all can be filled until `used()` wraps. -/
theorem not_fifoSpec_large (h₁ : 2 ^ 31 ≤ len) (h₂ : 1 < toInt32 len) : ¬ FifoSpec len := by
  intro hspec
  -- `length_` is positive only from `2^32` bytes on
  have hbig : 2 ^ 32 ≤ len := by
    by_contra hlt
    have hm : toInt32 (len : Int) = len - 2 ^ 32 := by
      unfold toInt32
      split <;> omega
    omega
  have hc := create_eq (fun _ => 0) (show 1024 < len by omega)
  generalize hrb : RingBuffer.mk _ _ _ _ = rb₀ at hc
  obtain ⟨calls, rb, hrun, hlen, hcalls, hf, hb, -, -⟩ := run_oneBytes rb₀ (by rw [← hrb]; rfl)
    (by rw [← hrb]; rfl) (by rw [← hrb]; exact h₂) 429496730 (by rw [← hrb]; show _ < (len : Int); omega)
  obtain ⟨⟨q, hq, -, hused⟩, -⟩ := hspec _ _ hc _ _ hrun
  rw [totalCost_oneBytes hq hcalls, hlen] at hused
  unfold RingBuffer.used at hused
  rw [hf, hb, if_pos (by omega)] at hused
  have hval : (5 * ((429496730 : Nat) : Int) - 0) = 2147483650 := by norm_num
  rw [hval, toInt32_used] at hused
  omega

/-! ## The exact limit -/

/-- **Exactly these buffer lengths are FIFOs**: those of at most `2^31 - 4` bytes, and those whose length
    as an `int` is at most `1`, on which every `Push` is rejected. -/
theorem fifoSpec_iff (len : Nat) : FifoSpec len ↔ len ≤ 2 ^ 31 - 4 ∨ toInt32 len ≤ 1 := by
  constructor
  · intro h
    by_contra hcon
    rw [not_or] at hcon
    by_cases hlt : len < 2 ^ 31
    · exact not_fifoSpec_near (by omega) hlt h
    · exact not_fifoSpec_large (by omega) (by omega) h
  · rintro (h | h)
    · exact fifoSpec_of_le h
    · exact fifoSpec_of_rejecting h

/-- A buffer of `2^31 - 1` bytes is long enough for the constructor and is no FIFO. -/
theorem not_fifoSpec_max : 1024 < 2 ^ 31 - 1 ∧ ¬ FifoSpec (2 ^ 31 - 1) :=
  ⟨by norm_num, not_fifoSpec_near (by norm_num) (by norm_num)⟩

end RingBuffer
end Snippets
