import Mathlib.Tactic.Ring
import Mathlib.Data.List.Basic
import Mathlib.Data.Nat.Bitwise

/-!
# `Lib.Varint` — base-128 varints as byte strings

A varint is a string of seven-bit groups, least significant first; every byte but the last carries the
continuation bit. Three notions describe all that a reader of varints can see:

* `conts bs` — how many continuation bytes `bs` starts with. A reader stops on the byte after them;
* `value bs` — the number the groups of `bs` spell;
* `Complete bs` — `bs` is exactly one varint.

`digits n v` is the shortest varint of `v`, at most `n` bytes long.
-/

namespace Snippets
namespace Lib
namespace Varint

/-- The number of continuation bytes at the front. -/
def conts : List UInt8 → Nat
  | [] => 0
  | b :: bs => if 128 ≤ b.toNat then conts bs + 1 else 0

/-- The number spelled by seven-bit groups. -/
def value : List UInt8 → Nat
  | [] => 0
  | b :: bs => b.toNat % 128 + 128 * value bs

/-- One varint and nothing else. -/
def Complete : List UInt8 → Prop
  | [] => False
  | b :: bs => (b.toNat < 128 ∧ bs = []) ∨ (128 ≤ b.toNat ∧ Complete bs)

instance Complete.decidable : (bs : List UInt8) → Decidable (Complete bs)
  | [] => inferInstanceAs (Decidable False)
  | b :: bs =>
      have := Complete.decidable bs
      inferInstanceAs (Decidable ((b.toNat < 128 ∧ bs = []) ∨ (128 ≤ b.toNat ∧ Complete bs)))

/-- The shortest varint of `v`, cut off after `n` bytes. -/
def digits : Nat → Nat → List UInt8
  | 0, _ => []
  | n + 1, v => if v < 128 then [UInt8.ofNat v] else UInt8.ofNat (v % 128 + 128) :: digits n (v / 128)

variable {b : UInt8} {bs cs rest : List UInt8} {n v : Nat}

@[simp] theorem conts_nil : conts [] = 0 := rfl

theorem conts_cons_of_le (h : 128 ≤ b.toNat) : conts (b :: bs) = conts bs + 1 := if_pos h

theorem conts_cons_of_lt (h : b.toNat < 128) : conts (b :: bs) = 0 := if_neg (by omega)

theorem conts_le_length (bs : List UInt8) : conts bs ≤ bs.length := by
  induction bs with
  | nil => exact le_refl 0
  | cons b bs ih =>
      unfold conts
      rw [List.length_cons]
      split <;> omega

/-- Seen through a window, a string shows at most as many continuation bytes as the window is wide. -/
theorem conts_take_le (n : Nat) (bs : List UInt8) : conts (bs.take n) ≤ n :=
  le_trans (conts_le_length _) (List.length_take_le n bs)

theorem Complete.ne_nil (h : Complete bs) : bs ≠ [] := by
  rintro rfl
  exact h

theorem Complete.length_pos (h : Complete bs) : 0 < bs.length := List.length_pos_iff.mpr h.ne_nil

theorem conts_take (n : Nat) (bs : List UInt8) : conts (bs.take n) = min n (conts bs) := by
  induction bs generalizing n with
  | nil => simp
  | cons b bs ih =>
      cases n with
      | zero => simp
      | succ n =>
          rw [List.take_succ_cons]
          by_cases hb : 128 ≤ b.toNat
          · rw [conts_cons_of_le hb, conts_cons_of_le hb, ih, Nat.succ_min_succ]
          · rw [conts_cons_of_lt (by omega), conts_cons_of_lt (by omega), Nat.min_zero]

/-- Behind continuation bytes the count goes on. -/
theorem le_conts_append (h : conts bs = bs.length) (cs : List UInt8) : bs.length ≤ conts (bs ++ cs) := by
  have htake := conts_take bs.length (bs ++ cs)
  rw [List.take_left, h] at htake
  omega

/-- A complete varint has one byte more than it has continuation bytes, whatever follows and through any
    window that hides at most its last byte. -/
theorem Complete.conts_take (h : Complete cs) (hn : cs.length ≤ n + 1) (rest : List UInt8) :
    conts ((cs ++ rest).take n) + 1 = cs.length := by
  induction cs generalizing n with
  | nil => exact absurd h id
  | cons b cs ih =>
      rw [List.length_cons] at hn ⊢
      rcases h with ⟨hb, rfl⟩ | ⟨hb, hc⟩
      · cases n with
        | zero => rfl
        | succ n => rw [List.cons_append, List.take_succ_cons, conts_cons_of_lt hb]; rfl
      · cases n with
        | zero =>
            have := hc.length_pos
            omega
        | succ n => rw [List.cons_append, List.take_succ_cons, conts_cons_of_le hb, ih hc (by omega)]

theorem value_lt (bs : List UInt8) : value bs < 2 ^ (7 * bs.length) := by
  induction bs with
  | nil => decide
  | cons b bs ih =>
      have hp : 2 ^ (7 * (bs.length + 1)) = 128 * 2 ^ (7 * bs.length) := by
        rw [Nat.mul_add_one, Nat.pow_add, Nat.mul_comm]
      rw [value, List.length_cons, hp]
      omega

theorem value_append (bs cs : List UInt8) : value (bs ++ cs) = value bs + 2 ^ (7 * bs.length) * value cs := by
  induction bs with
  | nil => simp [value]
  | cons b bs ih =>
      have hpow : 2 ^ (7 * (bs.length + 1)) = 128 * 2 ^ (7 * bs.length) := by
        rw [Nat.mul_add_one, Nat.pow_add, Nat.mul_comm]
      rw [List.cons_append, value, value, ih, List.length_cons, hpow]
      ring

/-! ## The shortest varint -/

theorem toNat_ofNat_of_lt {x : Nat} (h : x < 256) : (UInt8.ofNat x).toNat = x := by
  rw [UInt8.toNat_ofNat']
  exact Nat.mod_eq_of_lt h

theorem digits_complete (h : v < 128 ^ (n + 1)) : Complete (digits (n + 1) v) := by
  induction n generalizing v with
  | zero =>
      rw [Nat.pow_one] at h
      unfold digits
      rw [if_pos h]
      exact Or.inl ⟨by rw [toNat_ofNat_of_lt (by omega)]; exact h, rfl⟩
  | succ n ih =>
      unfold digits
      by_cases hv : v < 128
      · rw [if_pos hv]
        exact Or.inl ⟨by rw [toNat_ofNat_of_lt (by omega)]; exact hv, rfl⟩
      · rw [if_neg hv]
        refine Or.inr ⟨?_, ih ?_⟩
        · rw [toNat_ofNat_of_lt (by omega)]
          omega
        · rw [Nat.pow_succ] at h
          exact Nat.div_lt_of_lt_mul (by rw [Nat.mul_comm]; exact h)

theorem value_digits (h : v < 128 ^ n) : value (digits n v) = v := by
  induction n generalizing v with
  | zero =>
      rw [Nat.pow_zero] at h
      unfold digits value
      omega
  | succ n ih =>
      unfold digits
      by_cases hv : v < 128
      · rw [if_pos hv]
        unfold value value
        rw [toNat_ofNat_of_lt (by omega)]
        omega
      · rw [if_neg hv]
        unfold value
        rw [ih (Nat.div_lt_of_lt_mul (by rw [Nat.mul_comm]; exact Nat.pow_succ 128 n ▸ h)),
          toNat_ofNat_of_lt (by omega)]
        omega

theorem digits_length_le (n v : Nat) : (digits n v).length ≤ n := by
  induction n generalizing v with
  | zero => exact le_refl 0
  | succ n ih =>
      unfold digits
      split
      · rw [List.length_singleton]; omega
      · rw [List.length_cons]
        have := ih (v / 128)
        omega

/-- A wider limit changes nothing once the number fits. -/
theorem digits_succ_of_lt (h : v < 128 ^ (n + 1)) : digits (n + 2) v = digits (n + 1) v := by
  induction n generalizing v with
  | zero =>
      rw [Nat.pow_one] at h
      unfold digits
      rw [if_pos h, if_pos h]
  | succ n ih =>
      unfold digits
      by_cases hv : v < 128
      · rw [if_pos hv, if_pos hv]
      · rw [if_neg hv, if_neg hv]
        rw [ih]
        rw [Nat.pow_succ] at h
        exact Nat.div_lt_of_lt_mul (by rw [Nat.mul_comm]; exact h)

/-- No varint of `n` bytes spells a number that the shortest one needs more for. -/
theorem digits_length_le_of_lt (h : v < 128 ^ (n + 1)) (m : Nat) : (digits m v).length ≤ n + 1 := by
  induction n generalizing v m with
  | zero =>
      rw [Nat.zero_add, Nat.pow_one] at h
      cases m with
      | zero => simp [digits]
      | succ m => simp [digits, h]
  | succ n ih =>
      cases m with
      | zero => simp [digits]
      | succ m =>
          by_cases hv : v < 128
          · simp [digits, hv]
          · have hdiv : v / 128 < 128 ^ (n + 1) := Nat.div_lt_of_lt_mul (by rw [Nat.mul_comm]; exact h)
            simpa [digits, hv] using ih hdiv m

end Varint
end Lib
end Snippets
