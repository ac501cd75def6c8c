import Snippets.Format.Template
import Snippets.Lib.Numeral

/-!
# `Format.Digits` — the conversions of an integer to digits

`UIntToDec`, `UIntToHex`, `UIntToOct` and `UIntToBin` write the digits of the magnitude from the last one on, in front of
what is in the buffer of 67 characters. Each is a loop over the digits (`decLoop_eq`, `decLoop_grouped`, `maskLoop_eq`), and
the magnitude has few enough of them.
-/

namespace Snippets
namespace Format

open Lib

variable {p repr mark : Text} {upper : Bool} {fuel v idx : Nat}

/-! ## The loops

Each writes from the last digit on, in front of what is there. The buffer is long enough for the longest number
of its kind. -/

/-- One more character, while there is room, -/
theorem push_eq {c : Char} (hroom : p.length < 67) : push c p = .ok (c :: p) := by
  unfold push
  rw [if_pos hroom]

/-- and a row of them. -/
theorem foldrM_push (hroom : p.length + mark.length ≤ 67) : mark.foldrM push p = .ok (mark ++ p) := by
  induction mark with
  | nil => rfl
  | cons c mark ih =>
      rw [List.length_cons] at hroom
      rw [List.foldrM_cons, ih (by omega)]
      show push c (mark ++ p) = .ok (c :: (mark ++ p))
      apply push_eq
      rw [List.length_append]
      omega

/-- The digits of a number, with none for zero. -/
def digits (v : Nat) : Text := if v = 0 then [] else Nat.toDigits 10 v

/-- The digit, as the source computes it. -/
theorem digitChar_eq (v : Nat) : Char.ofNat ('0'.toNat + v % 10) = Nat.digitChar (v % 10) := by
  have hall : ∀ d < 10, Char.ofNat ('0'.toNat + d) = Nat.digitChar d := by decide
  exact hall _ (Nat.mod_lt _ (by decide))

/-- The last digit and those before it. -/
theorem digits_succ {v : Nat} (hv : v ≠ 0) : digits v = digits (v / 10) ++ [Nat.digitChar (v % 10)] :=
  digitsIn_succ (by decide) hv

/-- **The loop of `UIntToDec`** puts the digits in front of what is in the buffer. -/
theorem decLoop_eq {k : Nat} (idx : Nat) (hv : v < 10 ^ k) (hroom : p.length + k ≤ 67) (hfuel : k < fuel) :
    decLoop false fuel v idx p = .ok (digits v ++ p) := by
  -- by induction on the digits left
  induction k generalizing fuel v idx p with
  | zero =>
      obtain ⟨fuel, rfl⟩ : ∃ n, fuel = n + 1 := ⟨fuel - 1, by omega⟩
      obtain rfl : v = 0 := by omega
      rfl
  | succ k ih =>
      obtain ⟨fuel, rfl⟩ : ∃ n, fuel = n + 1 := ⟨fuel - 1, by omega⟩
      unfold decLoop
      by_cases hzero : v = 0
      · rw [if_pos hzero, hzero]
        rfl
      · have hlt : v / 10 < 10 ^ k := by
          rw [Nat.pow_succ] at hv
          omega
        have hpush : push (Char.ofNat ('0'.toNat + v % 10)) p = .ok (Nat.digitChar (v % 10) :: p) := by
          rw [push_eq (by omega), digitChar_eq]
        have hsep : ∀ q : Text, pushSeparator false idx (v / 10) q = .ok q := by
          intro q
          unfold pushSeparator
          rw [if_neg (by simp)]
        have hroom' : (Nat.digitChar (v % 10) :: p).length + k ≤ 67 := by
          rw [List.length_cons]
          omega
        rw [if_neg hzero]
        simp only [hpush, bind, Except.bind, hsep]
        rw [ih (idx + 1) hlt hroom' (by omega), digits_succ hzero, List.append_assoc]
        rfl

/-- The loop of `UIntToDec` with a separator. `idx` counts the digits behind the one that is next, and one more. -/
theorem decLoop_grouped {k : Nat} (idx : Nat) (hv : v < 10 ^ k) (hroom : p.length + 2 * k ≤ 67) (hfuel : k < fuel) :
    decLoop true fuel v (idx + 1) p = .ok (groupedFrom idx (digitsIn 10 v) ++ p) := by
  induction k generalizing fuel v idx p with
  | zero =>
      obtain ⟨fuel, rfl⟩ : ∃ n, fuel = n + 1 := ⟨fuel - 1, by omega⟩
      obtain rfl : v = 0 := by omega
      rfl
  | succ k ih =>
      obtain ⟨fuel, rfl⟩ : ∃ n, fuel = n + 1 := ⟨fuel - 1, by omega⟩
      unfold decLoop
      by_cases hzero : v = 0
      · rw [if_pos hzero, hzero]
        rfl
      · have hlt : v / 10 < 10 ^ k := by
          rw [Nat.pow_succ] at hv
          omega
        have hpush : push (Char.ofNat ('0'.toNat + v % 10)) p = .ok (Nat.digitChar (v % 10) :: p) := by
          rw [push_eq (by omega), digitChar_eq]
        rw [if_neg hzero]
        simp only [hpush, bind, Except.bind]
        -- the comma, exactly where `groupedFrom` has one
        have hcomma : (digitsIn 10 (v / 10) ≠ [] ∧ (idx + 1) % 3 = 0) ↔
            (v / 10 ≠ 0 ∧ (true : Bool) = true ∧ idx + 1 ≠ 0 ∧ (idx + 1) % 3 = 0) := by
          rw [ne_eq, digitsIn_eq_nil]
          simp
        have hsep : pushSeparator true (idx + 1) (v / 10) (Nat.digitChar (v % 10) :: p) =
            .ok ((if digitsIn 10 (v / 10) ≠ [] ∧ (idx + 1) % 3 = 0 then [','] else []) ++ Nat.digitChar (v % 10) :: p) := by
          unfold pushSeparator
          by_cases hc : digitsIn 10 (v / 10) ≠ [] ∧ (idx + 1) % 3 = 0
          · rw [if_pos (hcomma.mp hc), if_pos hc, push_eq (by rw [List.length_cons]; omega)]
            rfl
          · rw [if_neg (mt hcomma.mpr hc), if_neg hc]
            rfl
        rw [hsep]
        simp only
        -- one digit and at most one comma less room
        rw [ih (idx + 1) hlt ?_ (by omega), digitsIn_succ (by decide) hzero, groupedFrom_snoc]
        · simp only [List.append_assoc, List.singleton_append]
        · have hone : (if digitsIn 10 (v / 10) ≠ [] ∧ (idx + 1) % 3 = 0 then [','] else ([] : Text)).length ≤ 1 := by
            split <;> simp
          rw [List.length_append, List.length_cons]
          omega

/-- The loop of the bases that are powers of two. -/
theorem maskLoop_eq {b j : Nat} (hb : 0 < b) (hrepr : ∀ d < 2 ^ b, repr.getD d nul = letterCase upper (Nat.digitChar d))
    (hv : v < (2 ^ b) ^ j) (hroom : p.length + j ≤ 67) (hfuel : j < fuel) :
    maskLoop b repr fuel v p = .ok ((digitsIn (2 ^ b) v).map (letterCase upper) ++ p) := by
  have hbase : 1 < 2 ^ b := Nat.one_lt_two_pow (by omega)
  -- by induction on the digits left
  induction j generalizing fuel v p with
  | zero =>
      obtain ⟨fuel, rfl⟩ : ∃ n, fuel = n + 1 := ⟨fuel - 1, by omega⟩
      obtain rfl : v = 0 := Nat.lt_one_iff.mp hv
      rfl
  | succ j ih =>
      obtain ⟨fuel, rfl⟩ : ∃ n, fuel = n + 1 := ⟨fuel - 1, by omega⟩
      unfold maskLoop
      by_cases hzero : v = 0
      · rw [if_pos hzero, hzero]
        rfl
      · have hlt : v / 2 ^ b < (2 ^ b) ^ j := by
          rw [Nat.pow_succ, Nat.mul_comm] at hv
          exact Nat.div_lt_of_lt_mul hv
        have hpush : push (repr.getD (v % 2 ^ b) nul) p = .ok (letterCase upper (Nat.digitChar (v % 2 ^ b)) :: p) := by
          rw [push_eq (by omega), hrepr _ (Nat.mod_lt _ (by omega))]
        have hroom' : (letterCase upper (Nat.digitChar (v % 2 ^ b)) :: p).length + j ≤ 67 := by
          rw [List.length_cons]
          omega
        rw [if_neg hzero]
        simp only [hpush, bind, Except.bind]
        rw [ih hlt hroom' (by omega), digitsIn_succ hbase hzero, List.map_append, List.append_assoc]
        rfl

/-! ## The digits

By the letter: decimal digits, or hexadecimal, octal and binary ones with a mark in front. -/

/-- A zero where the loop has written nothing. -/
theorem pushZero_body {b : Nat} {n : Integer} {body : Text → Text} (hnil : body [] = []) (hone : body ['0'] = ['0']) :
    pushZero n (body (digitsIn b n.val.natAbs)) = .ok (body (Nat.toDigits b n.val.natAbs)) := by
  unfold pushZero digitsIn
  by_cases hzero : n.val = 0
  · rw [if_pos hzero, hzero, Int.natAbs_zero, if_pos rfl, hnil, Nat.toDigits_zero, hone]
    rfl
  · rw [if_neg hzero, if_neg (by omega)]

/-- The magnitude fits the unsigned type. -/
theorem magnitude_eq (n : Integer) : n.magnitude = n.val.natAbs ∧ n.val.natAbs < 2 ^ n.ty.bits := by
  obtain ⟨⟨bits, signed, hbits⟩, val, hlo, hhi⟩ := n
  unfold Integer.magnitude
  simp only [IntType.lo, IntType.hi] at hlo hhi ⊢
  rcases hbits with rfl | rfl | rfl | rfl <;> cases signed <;> simp at hlo hhi ⊢ <;> split <;> omega

/-- `j` rounds are enough for the magnitude, and `j` digits. -/
theorem rounds {b j : Nat} (n : Integer) (hb : 1 < b) (hj : ∀ bits ∈ [8, 16, 32, 64], 2 ^ bits ≤ b ^ (min j bits))
    (hpos : 0 < j) :
    n.val.natAbs < b ^ (min j n.ty.bits) ∧ min j n.ty.bits < n.ty.bits + 1 ∧ (Nat.toDigits b n.val.natAbs).length ≤ j := by
  obtain ⟨-, hlt⟩ := magnitude_eq n
  have hmem : n.ty.bits ∈ [8, 16, 32, 64] := by
    rcases n.ty.standard with h | h | h | h <;> simp [h]
  have hmag := hlt.trans_le (hj _ hmem)
  refine ⟨hmag, by omega, ?_⟩
  rw [Nat.length_toDigits_le_iff hb hpos]
  exact hmag.trans_le (Nat.pow_le_pow_right (by omega) (Nat.min_le_left _ _))

/-- Decimal digits, in groups when it is asked. -/
theorem uintToDec_rendered (arg : FormatArg) (n : Integer) : uintToDec arg n =
    .ok (if arg.thousandsSeparator then grouped (Nat.toDigits 10 n.val.natAbs) else Nat.toDigits 10 n.val.natAbs, 0) := by
  obtain ⟨hmag, -⟩ := magnitude_eq n
  obtain ⟨hlt, hfuel, -⟩ := rounds (b := 10) (j := 20) n (by decide) (by decide) (by decide)
  have hzero : ∀ body : Text → Text, body [] = [] → body ['0'] = ['0'] →
      pushZero n (body (digitsIn 10 n.val.natAbs)) = .ok (body (Nat.toDigits 10 n.val.natAbs)) :=
    fun body => pushZero_body
  unfold uintToDec
  rw [hmag]
  cases arg.thousandsSeparator with
  | true =>
      have hloop := decLoop_grouped (p := []) 0 hlt (by rw [List.length_nil]; omega) hfuel
      rw [List.append_nil] at hloop
      simp only [hloop, bind, Except.bind, hzero (groupedFrom 0) rfl rfl]
      rfl
  | false =>
      have hloop := decLoop_eq (p := []) 1 hlt (by rw [List.length_nil]; omega) hfuel
      rw [List.append_nil] at hloop
      have hplain : pushZero n (digits n.val.natAbs) = .ok (Nat.toDigits 10 n.val.natAbs) := hzero id rfl rfl
      simp only [hloop, bind, Except.bind, hplain]
      rfl

/-- The digits of a power of two. -/
theorem uintToMask_rendered (arg : FormatArg) {b j : Nat} (n : Integer) (hb : 0 < b)
    (hrepr : ∀ d < 2 ^ b, repr.getD d nul = letterCase upper (Nat.digitChar d))
    (hj : ∀ bits ∈ [8, 16, 32, 64], 2 ^ bits ≤ (2 ^ b) ^ (min j bits)) (hpos : 0 < j) (hroom : j + mark.length ≤ 66) :
    uintToMask arg b repr mark n = .ok ((if arg.basePrefix then mark else []) ++
      (Nat.toDigits (2 ^ b) n.val.natAbs).map (letterCase upper), if arg.basePrefix then mark.length else 0) := by
  obtain ⟨hmag, -⟩ := magnitude_eq n
  have hbase : 1 < 2 ^ b := Nat.one_lt_two_pow (by omega)
  obtain ⟨hlt, hfuel, hlen⟩ := rounds n hbase hj hpos
  have hloop := maskLoop_eq (p := []) hb hrepr hlt (by rw [List.length_nil]; omega) hfuel
  have hzero : pushZero n ((digitsIn (2 ^ b) n.val.natAbs).map (letterCase upper)) =
      .ok ((Nat.toDigits (2 ^ b) n.val.natAbs).map (letterCase upper)) :=
    pushZero_body rfl (by cases upper <;> rfl)
  rw [List.append_nil] at hloop
  unfold uintToMask
  rw [hmag]
  simp only [hloop, bind, Except.bind, hzero]
  cases arg.basePrefix with
  | false => rfl
  | true =>
      rw [if_pos rfl, foldrM_push]
      · rfl
      · rw [List.length_map]
        omega

end Format
end Snippets
