/-!
# `Lib.Numeral` — numerals in a base up to sixteen

What a text of digits stands for (`readBack`), when it is the numeral of a number (`Numeral`: digits of the base, none too
many), and where the commas between groups of three stand (`grouped`). `Nat.toDigits` gives the numeral, with either kind of
letters (`numeral_toDigits`).
-/

namespace Snippets
namespace Lib

variable {b v m : Nat} {ds : List Char} {upper : Bool}

/-! ## Digits -/

/-- The digits of a number, with none for zero. -/
def digitsIn (b v : Nat) : List Char := if v = 0 then [] else Nat.toDigits b v

theorem digitsIn_succ (hb : 1 < b) (hv : v ≠ 0) : digitsIn b v = digitsIn b (v / b) ++ [Nat.digitChar (v % b)] := by
  unfold digitsIn
  rw [if_neg hv, Nat.toDigits_eq_if hb]
  by_cases hlt : v < b
  · rw [if_pos hlt, if_pos (Nat.div_eq_of_lt hlt), Nat.mod_eq_of_lt hlt]
    rfl
  · have hdiv : v / b ≠ 0 := Nat.div_ne_zero_iff.mpr ⟨by omega, by omega⟩
    rw [if_neg hlt, if_neg hdiv]

theorem digitsIn_eq_nil : digitsIn b v = [] ↔ v = 0 := by
  unfold digitsIn
  split
  next h => simp [h]
  next h => simp [h]

/-- Small or capital letters. -/
def letterCase (upper : Bool) (c : Char) : Char := if upper then c.toUpper else c

/-- The number a digit stands for. -/
def digitValue (c : Char) : Nat :=
  if '0' ≤ c ∧ c ≤ '9' then c.toNat - '0'.toNat
  else if 'a' ≤ c ∧ c ≤ 'f' then c.toNat - 'a'.toNat + 10
  else c.toNat - 'A'.toNat + 10

/-- The number that digits in base `b` stand for. -/
def readBack (b : Nat) (ds : List Char) : Nat := ds.foldl (fun n c => b * n + digitValue c) 0

example : readBack 16 ['f', 'F'] = 255 ∧ readBack 2 ['1', '0', '1'] = 5 := by decide

theorem digitValue_letterCase {d : Nat} (hd : d < 16) (upper : Bool) : digitValue (letterCase upper (Nat.digitChar d)) = d := by
  have hall : ∀ u : Bool, ∀ d < 16, digitValue (letterCase u (Nat.digitChar d)) = d := by decide
  exact hall upper d hd

/-- `ds` is the numeral of `m`: digits of the base, which read back as `m`, the first of them no zero unless it is alone. -/
structure Numeral (b : Nat) (upper : Bool) (m : Nat) (ds : List Char) : Prop where
  digit : ∀ c ∈ ds, ∃ d < b, c = letterCase upper (Nat.digitChar d)
  nonempty : ds ≠ []
  leading : ds.head? = some '0' → ds = ['0']
  value : readBack b ds = m

theorem digit_digitsIn (hb : 1 < b) (v : Nat) : ∀ c ∈ digitsIn b v, ∃ d < b, c = Nat.digitChar d := by
  induction v using Nat.strongRecOn with
  | ind v ih =>
      by_cases hzero : v = 0
      · simp [digitsIn, hzero]
      · rw [digitsIn_succ hb hzero]
        intro c hc
        rcases List.mem_append.mp hc with hc | hc
        · exact ih (v / b) (Nat.div_lt_self (by omega) hb) c hc
        · exact ⟨v % b, Nat.mod_lt _ (by omega), List.mem_singleton.mp hc⟩

/-- The first digit is not zero. By strong induction: it is the first digit of the quotient, or the only one. -/
theorem head_digitsIn (hb : 1 < b) (hb' : b ≤ 16) (upper : Bool) (v : Nat) :
    ((digitsIn b v).map (letterCase upper)).head? ≠ some '0' := by
  induction v using Nat.strongRecOn with
  | ind v ih =>
      by_cases hzero : v = 0
      · simp [digitsIn, hzero]
      · rw [digitsIn_succ hb hzero]
        by_cases hdiv : v / b = 0
        · have hlt : v < b := (Nat.div_eq_zero_iff.mp hdiv).resolve_left (by omega)
          rw [digitsIn_eq_nil.mpr hdiv, Nat.mod_eq_of_lt hlt]
          intro hhead
          have hdigit : letterCase upper (Nat.digitChar v) = '0' := Option.some.inj hhead
          have hvalue := digitValue_letterCase (show v < 16 by omega) upper
          rw [hdigit] at hvalue
          exact hzero hvalue.symm
        · have hne : (digitsIn b (v / b)).map (letterCase upper) ≠ [] := by simpa [digitsIn_eq_nil] using hdiv
          rw [List.map_append, List.head?_append, Option.or_of_isSome (List.isSome_head?.mpr hne)]
          exact ih (v / b) (Nat.div_lt_self (by omega) hb)

theorem readBack_digitsIn (hb : 1 < b) (hb' : b ≤ 16) (upper : Bool) (v : Nat) :
    readBack b ((digitsIn b v).map (letterCase upper)) = v := by
  induction v using Nat.strongRecOn with
  | ind v ih =>
      by_cases hzero : v = 0
      · simp [digitsIn, hzero, readBack]
      · have hlast : v % b < 16 := Nat.lt_of_lt_of_le (Nat.mod_lt v (by omega)) hb'
        have hrest := ih (v / b) (Nat.div_lt_self (by omega) hb)
        unfold readBack at hrest ⊢
        rw [digitsIn_succ hb hzero, List.map_append, List.foldl_append, hrest]
        show b * (v / b) + digitValue (letterCase upper (Nat.digitChar (v % b))) = v
        rw [digitValue_letterCase hlast]
        exact Nat.div_add_mod v b

/-- **`Nat.toDigits` gives the numeral.** -/
theorem numeral_toDigits (hb : 1 < b) (hb' : b ≤ 16) (upper : Bool) (m : Nat) :
    Numeral b upper m ((Nat.toDigits b m).map (letterCase upper)) := by
  by_cases hzero : m = 0
  · have hdigits : (Nat.toDigits b 0).map (letterCase upper) = ['0'] := by
      cases upper <;> simp [letterCase]
    rw [hzero, hdigits]
    refine ⟨fun c hc => ⟨0, by omega, ?_⟩, by simp, fun _ => rfl, by simp [readBack, digitValue]⟩
    rw [List.mem_singleton.mp hc]
    cases upper <;> decide
  · have hdigits : Nat.toDigits b m = digitsIn b m := by
      unfold digitsIn
      rw [if_neg hzero]
    rw [hdigits]
    refine ⟨fun c hc => ?_, ?_, fun hhead => absurd hhead (head_digitsIn hb hb' upper m), readBack_digitsIn hb hb' upper m⟩
    · obtain ⟨c', hc', rfl⟩ := List.mem_map.mp hc
      obtain ⟨d, hd, rfl⟩ := digit_digitsIn hb m c' hc'
      exact ⟨d, hd, rfl⟩
    · simpa [digitsIn_eq_nil] using hzero

/-- The numeral with small letters, as it is. -/
theorem numeral_toDigits_lower (hb : 1 < b) (hb' : b ≤ 16) (m : Nat) : Numeral b false m (Nat.toDigits b m) := by
  have hnumeral := numeral_toDigits hb hb' false m
  have hid : letterCase false = id := rfl
  rwa [hid, List.map_id] at hnumeral

/-- Only the numeral of zero begins with a zero. -/
theorem head_toDigits (hb : 1 < b) (hb' : b ≤ 16) (hm : m ≠ 0) : (Nat.toDigits b m).head? ≠ some '0' := by
  intro hhead
  have hnumeral := numeral_toDigits_lower hb hb' m
  have hvalue := hnumeral.value
  rw [hnumeral.leading hhead] at hvalue
  exact hm hvalue.symm

/-! ## Groups of three -/

/-- A comma behind every digit that has a multiple of three digits behind it: those that follow in the list, and `k` more.
    The one that the last digit would have is left to the `k`. -/
def groupedFrom (k : Nat) : List Char → List Char
  | [] => []
  | [d] => [d]
  | d :: e :: ds =>
      if ((e :: ds).length + k) % 3 = 0 then d :: ',' :: groupedFrom k (e :: ds) else d :: groupedFrom k (e :: ds)

/-- A comma between groups of three digits, counted from the end. -/
def grouped (ds : List Char) : List Char := groupedFrom 0 ds

example : grouped ['1', '2', '3', '4', '5', '6', '7'] = ['1', ',', '2', '3', '4', ',', '5', '6', '7'] := by decide

/-- One more digit at the end. -/
theorem groupedFrom_snoc (k : Nat) (ds : List Char) (d : Char) : groupedFrom k (ds ++ [d]) =
    groupedFrom (k + 1) ds ++ ((if ds ≠ [] ∧ (k + 1) % 3 = 0 then [','] else []) ++ [d]) := by
  induction ds with
  | nil => rfl
  | cons e ds ih =>
      cases ds with
      | nil =>
          show (if (1 + k) % 3 = 0 then e :: ',' :: [d] else e :: [d]) = _
          rw [Nat.add_comm 1 k]
          by_cases hk : (k + 1) % 3 = 0
          · simp [hk, groupedFrom]
          · simp [hk, groupedFrom]
      | cons f ds =>
          have hne : (f :: ds) ≠ [] := List.cons_ne_nil _ _
          have hlen : ((f :: ds) ++ [d]).length + k = (f :: ds).length + (k + 1) := by simp; omega
          have hleft : groupedFrom k ((e :: f :: ds) ++ [d]) =
              if ((f :: ds).length + (k + 1)) % 3 = 0 then e :: ',' :: groupedFrom k ((f :: ds) ++ [d])
              else e :: groupedFrom k ((f :: ds) ++ [d]) := by
            rw [← hlen]
            rfl
          have hright : groupedFrom (k + 1) (e :: f :: ds) =
              if ((f :: ds).length + (k + 1)) % 3 = 0 then e :: ',' :: groupedFrom (k + 1) (f :: ds)
              else e :: groupedFrom (k + 1) (f :: ds) := rfl
          rw [hleft, hright, ih]
          have hif : ((if (e :: f :: ds) ≠ [] ∧ (k + 1) % 3 = 0 then [','] else []) : List Char) =
              if (f :: ds) ≠ [] ∧ (k + 1) % 3 = 0 then [','] else [] := by simp
          rw [hif]
          split
          · rfl
          · rfl

theorem length_groupedFrom_le (k : Nat) (ds : List Char) : (groupedFrom k ds).length ≤ 2 * ds.length := by
  induction ds with
  | nil => exact Nat.le_refl 0
  | cons d ds ih =>
      cases ds with
      | nil => exact Nat.le_succ 1
      | cons e ds =>
          unfold groupedFrom
          split <;> simp only [List.length_cons] at ih ⊢ <;> omega

end Lib
end Snippets
