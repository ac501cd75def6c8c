import Mathlib.Algebra.Group.Nat.Defs
import Mathlib.Data.Nat.Log

/-!
# `Lib.Widening` — from `binary32` to `binary64`, on bit patterns

The conversion of a single-precision number to double precision, as a function of the stored words: sign, exponent and
fraction are taken apart, a subnormal number gets an exponent of its own, and a NaN is made quiet. The conversion moves the
fraction up by 29 bits, so that no word but 0 is the widening of its own low half.
-/

namespace Snippets.Lib

/-- The double-precision word for the number in a single-precision word. -/
def widenWord (x : Nat) : Nat :=
  let sign := x / 2 ^ 31 % 2
  let exponent := x / 2 ^ 23 % 2 ^ 8
  let fraction := x % 2 ^ 23
  sign * 2 ^ 63 +
    if exponent = 255 then
      -- an infinity, or a NaN with its first fraction bit set
      2047 * 2 ^ 52 + if fraction = 0 then 0 else (fraction ||| 2 ^ 22) * 2 ^ 29
    else if exponent = 0 then
      -- a zero, or a subnormal number: its first set bit is the hidden bit of the result
      if fraction = 0 then 0 else (fraction.log2 + 874) * 2 ^ 52 + (fraction * 2 ^ (52 - fraction.log2) - 2 ^ 52)
    else (exponent + 896) * 2 ^ 52 + fraction * 2 ^ 29

/-- `float` to `double`. -/
def widenFloat (x : UInt32) : UInt64 := UInt64.ofNat (widenWord x.toNat)

example : widenFloat 0x3fc00000 = 0x3ff8000000000000 ∧ widenFloat 1 = 0x36a0000000000000 := by decide

variable {x : Nat}

/-- A power of two divides what has a higher one for a factor. -/
theorem pow_dvd_scaled {m n : Nat} (a : Nat) (h : m ≤ n) : 2 ^ m ∣ a * 2 ^ n := Nat.dvd_mul_left_of_dvd (Nat.pow_dvd_pow 2 h) a

theorem widenWord_dvd (x : Nat) : 2 ^ 29 ∣ widenWord x := by
  unfold widenWord
  refine Nat.dvd_add (pow_dvd_scaled _ (by omega)) ?_
  split_ifs with _ _ _ hfraction
  · exact pow_dvd_scaled _ (by omega)
  · exact Nat.dvd_add (pow_dvd_scaled _ (by omega)) (pow_dvd_scaled _ le_rfl)
  · exact Nat.dvd_zero _
  · have hlog : (x % 2 ^ 23).log2 < 23 := (Nat.log2_lt hfraction).mpr (Nat.mod_lt _ (by omega))
    exact Nat.dvd_add (pow_dvd_scaled _ (by omega)) (Nat.dvd_sub (pow_dvd_scaled _ (by omega)) (Nat.pow_dvd_pow 2 (by omega)))
  · exact Nat.dvd_add (pow_dvd_scaled _ (by omega)) (pow_dvd_scaled _ le_rfl)

theorem widenWord_dvd_of_fraction (h : x % 2 ^ 23 = 0) : 2 ^ 32 ∣ widenWord x := by
  unfold widenWord
  refine Nat.dvd_add (pow_dvd_scaled _ (by omega)) ?_
  have hexponent : ∀ e : Nat, 2 ^ 32 ∣ e * 2 ^ 52 := fun e => pow_dvd_scaled e (by omega)
  split_ifs
  · rw [Nat.add_zero]
    exact hexponent _
  · exact Nat.dvd_zero _
  · rw [h, Nat.zero_mul, Nat.add_zero]
    exact hexponent _

theorem widenWord_zero : widenWord 0 = 0 := by decide

/-- No number but zero has the widening of its low half for a pattern. -/
theorem eq_widenWord_iff (w : Nat) : w = widenWord (w % 2 ^ 32) ↔ w = 0 := by
  constructor
  · intro h
    have hlow : 2 ^ 29 ∣ w := by
      rw [h]
      exact widenWord_dvd _
    -- the low half is a multiple of 2^29, hence without a fraction, and then it is zero
    have hfraction : w % 2 ^ 32 % 2 ^ 23 = 0 := by omega
    have hhalf : 2 ^ 32 ∣ w := by
      rw [h]
      exact widenWord_dvd_of_fraction hfraction
    rw [Nat.mod_eq_zero_of_dvd hhalf, widenWord_zero] at h
    exact h
  · rintro rfl
    exact widenWord_zero.symm

/-- The fraction of a subnormal number, moved until its first bit is the hidden one. -/
theorem scaled_lt {f : Nat} (h : f.log2 < 23) : f * 2 ^ (52 - f.log2) < 2 ^ 53 := by
  calc f * 2 ^ (52 - f.log2)
      < 2 ^ (f.log2 + 1) * 2 ^ (52 - f.log2) := Nat.mul_lt_mul_of_pos_right Nat.lt_log2_self (Nat.two_pow_pos _)
    _ = 2 ^ 53 := by
        rw [← Nat.pow_add]
        congr 1
        omega

theorem widenWord_lt (x : Nat) : widenWord x < 2 ^ 64 := by
  have hsign : x / 2 ^ 31 % 2 < 2 := Nat.mod_lt _ (by omega)
  have hfraction : x % 2 ^ 23 < 2 ^ 23 := Nat.mod_lt _ (by omega)
  have hquiet : x % 2 ^ 23 ||| 2 ^ 22 < 2 ^ 23 := Nat.or_lt_two_pow hfraction (by decide)
  unfold widenWord
  -- exponent and fraction together stay below the sign
  have hbody : ∀ b, b < 2 ^ 63 → x / 2 ^ 31 % 2 * 2 ^ 63 + b < 2 ^ 64 := by
    intro b hb
    omega
  apply hbody
  split_ifs with _ _ _ hzero
  · omega
  · omega
  · omega
  · have hlog : (x % 2 ^ 23).log2 < 23 := (Nat.log2_lt hzero).mpr hfraction
    have hscaled := scaled_lt hlog
    omega
  · have hexponent : x / 2 ^ 23 % 2 ^ 8 < 2 ^ 8 := Nat.mod_lt _ (by omega)
    omega

/-- **A word is the widening of its low half** only if it is zero. -/
theorem eq_widenFloat_iff (w : Nat) : UInt64.ofNat w = widenFloat (UInt32.ofNat (w % 2 ^ 32)) ↔ w % 2 ^ 64 = 0 := by
  have hlow : (UInt32.ofNat (w % 2 ^ 32)).toNat = w % 2 ^ 64 % 2 ^ 32 := by
    rw [UInt32.toNat_ofNat']
    omega
  rw [← UInt64.toNat_inj, widenFloat, UInt64.toNat_ofNat', UInt64.toNat_ofNat', hlow, Nat.mod_eq_of_lt (widenWord_lt _)]
  exact eq_widenWord_iff _

end Snippets.Lib
