import Snippets.Format.Template
import Snippets.Lib.Numeral

/-!
# `Format.Specification` — `InitSlow` reads back what a specification says

A format specification in its canonical text, `key:[[fill]align][sign][#][0][width][,][.precision][.][type]`, is accepted,
and sets the members it names and no others (`initSlow_text`). Every part is optional, so each stage of `InitSlow` has to
know what it does not begin with: the sign, `#` and the fill's look-ahead from all the characters that may follow, the zero
and the numbers from the next one.
-/

namespace Snippets
namespace Format

open Lib

variable {arg : FormatArg} {p t : Text} {c : Char}

/-! ## Specifications -/

/-- A key, and what may stand behind it: a fill with an alignment, and a zero without one. -/
structure Spec where
  key : Text
  fill : Option Char
  align : Align
  sign : Sign
  basePrefix : Bool
  zero : Bool
  width : Option Nat
  separator : Bool
  precision : Option Nat
  trailingDot : Bool
  presentation : Option Char
  key_plain : ':' ∉ key
  fill_aligned : fill ≠ none → align ≠ .default
  zero_unaligned : zero = true → align = .default
  width_range : ∀ w, width = some w → 1 ≤ w ∧ w < 2 ^ 31
  precision_range : ∀ n, precision = some n → n < 2 ^ 31
  letter : ∀ c, presentation = some c → c.isAlpha = true

/-- The mark of an alignment. -/
def alignMark : Align → Text
  | .default => []
  | .left => ['<']
  | .right => ['>']
  | .padAfterSign => ['=']
  | .center => ['^']

/-- The mark of a sign. -/
def signMark : Sign → Text
  | .default => []
  | .plusOrMinus => ['+']
  | .minus => ['-']
  | .spaceOrMinus => [' ']

/-- A mark that stands there or does not. -/
def flag (c : Char) (b : Bool) : Text := if b then [c] else []

/-- The width, without a leading zero. -/
def numeral : Option Nat → Text
  | none => []
  | some n => Nat.toDigits 10 n

/-- The precision behind its dot. -/
def dotted : Option Nat → Text
  | none => []
  | some n => '.' :: Nat.toDigits 10 n

namespace Spec

/-- The canonical text. -/
def text (spec : Spec) : Text :=
  spec.key ++ [':'] ++ spec.fill.toList ++ alignMark spec.align ++ signMark spec.sign ++ flag '#' spec.basePrefix ++
    flag '0' spec.zero ++ numeral spec.width ++ flag ',' spec.separator ++ dotted spec.precision ++
    flag '.' spec.trailingDot ++ spec.presentation.toList

/-- The members that it sets; the others are as the constructor leaves them. -/
def toArg (spec : Spec) (junk : Junk) : FormatArg :=
  { FormatArg.fresh junk with
    key := spec.key
    fill := if spec.zero then '0' else spec.fill.getD nul
    align := if spec.zero then .padAfterSign else spec.align
    sign := spec.sign
    basePrefix := if spec.basePrefix then true else junk.basePrefix
    width := spec.width.elim (-1) (↑)
    thousandsSeparator := spec.separator
    precision := spec.precision.elim (-1) (↑)
    trailingDot := spec.trailingDot
    presentation := spec.presentation.getD nul }

end Spec

/-! ## What the parts begin with -/

/-- The characters behind `#`. -/
def isBody (c : Char) : Bool := c.isAlpha || isDigit c || c = ',' || c = '.'

/-- They are no mark of what comes before them. -/
theorem body_ne (h : isBody c = true) : ∀ m ∈ ['<', '>', '=', '^', '+', '-', ' ', '#'], c ≠ m := by
  have hall : (['<', '>', '=', '^', '+', '-', ' ', '#'].all fun m => !isBody m) = true := by decide
  rintro m hm rfl
  have hnot := List.all_eq_true.mp hall c hm
  rw [h] at hnot
  cases hnot

/-- So the alignment's look-ahead passes over them. -/
theorem formatAlign_body (h : isBody c = true) : formatAlign c = none := by
  have hne := body_ne h
  unfold formatAlign
  rw [if_neg (hne '<' (by decide)), if_neg (hne '>' (by decide)), if_neg (hne '=' (by decide)), if_neg (hne '^' (by decide))]

theorem formatSign_body (h : isBody c = true) : formatSign c = none := by
  have hne := body_ne h
  unfold formatSign
  rw [if_neg (hne '+' (by decide)), if_neg (hne '-' (by decide)), if_neg (hne ' ' (by decide))]

theorem alpha_ne {m : Char} (hm : m.isAlpha = false) (h : c.isAlpha = true) : c ≠ m := by
  rintro rfl
  rw [hm] at h
  cases h

/-- A presentation letter ends the digits of a number before it. -/
theorem not_isDigit_of_alpha (h : c.isAlpha = true) : isDigit c = false := by
  have hletter : (decide (c.val ≥ 'A'.val ∧ c.val ≤ 'Z'.val) || (decide (c.val ≥ 'a'.val) && decide (c.val ≤ 'z'.val))) = true := h
  simp only [Bool.or_eq_true, Bool.and_eq_true, decide_eq_true_eq, ge_iff_le, UInt32.le_iff_toNat_le] at hletter
  simp only [isDigit, Bool.and_eq_false_iff, decide_eq_false_iff_not, Char.le_def, UInt32.le_iff_toNat_le]
  have hA : 'A'.val.toNat = 65 := rfl
  have ha : 'a'.val.toNat = 97 := rfl
  have h9 : '9'.val.toNat = 57 := rfl
  omega

theorem isDigit_toDigits {n : Nat} (h : c ∈ Nat.toDigits 10 n) : isDigit c = true := by
  have hdigit := Nat.isDigit_of_mem_toDigits (by decide) (by decide) h
  simpa [Char.isDigit, isDigit, Char.le_def] using hdigit

/-- `LexicalCast` of the digits of an `int` is this `int`. -/
theorem lexicalCast_toDigits {n : Nat} (h : n < 2 ^ 31) : lexicalCast (Nat.toDigits 10 n) = .ok n := by
  have hvalue : digitsValue (Nat.toDigits 10 n) = n := Nat.ofDigitChars_ten_toDigits
  unfold lexicalCast
  rw [hvalue, if_pos h]

/-- The digits in front of something else. -/
theorem takeWhile_toDigits (n : Nat) (hp : ∀ c, p.head? = some c → isDigit c = false) :
    (Nat.toDigits 10 n ++ p).takeWhile isDigit = Nat.toDigits 10 n ∧
      (Nat.toDigits 10 n ++ p).dropWhile isDigit = p := by
  have hall : ∀ c ∈ Nat.toDigits 10 n, isDigit c = true := fun c hc => isDigit_toDigits hc
  rw [List.takeWhile_append_of_pos hall, List.dropWhile_append_of_pos hall]
  cases p with
  | nil => simp
  | cons c p =>
      have hc : isDigit c = false := hp c rfl
      simp [hc]

theorem eq_of_mem_flag {m : Char} {b : Bool} (h : c ∈ flag m b) : c = m := by
  cases b with
  | false => cases h
  | true => exact List.mem_singleton.mp h

theorem isDigit_numeral {w : Option Nat} (h : c ∈ numeral w) : isDigit c = true := by
  cases w with
  | none => cases h
  | some n => exact isDigit_toDigits h

theorem mem_dotted {o : Option Nat} (h : c ∈ dotted o) : c = '.' ∨ isDigit c = true := by
  cases o with
  | none => cases h
  | some n => exact (List.mem_cons.mp h).imp_right isDigit_toDigits

theorem head_dotted {o : Option Nat} (h : (dotted o).head? = some c) : c = '.' := by
  cases o with
  | none => cases h
  | some n => exact (Option.some.inj h).symm

/-! ## The stages -/

theorem alignMark_eq {a : Align} (ha : a ≠ .default) : ∃ m, alignMark a = [m] ∧ formatAlign m = some a := by
  cases a with
  | default => exact absurd rfl ha
  | left => exact ⟨'<', rfl, rfl⟩
  | right => exact ⟨'>', rfl, rfl⟩
  | padAfterSign => exact ⟨'=', rfl, rfl⟩
  | center => exact ⟨'^', rfl, rfl⟩

/-- The look-ahead takes a fill only where there is one, as no second character of the rest is an alignment. -/
theorem initAlign_text {fill : Option Char} {a : Align} (hdefault : arg.align = .default) (hfill : fill ≠ none → a ≠ .default)
    (hp : ∀ c ∈ p, formatAlign c = none) : arg.initAlign (fill.toList ++ (alignMark a ++ p)) =
      ({ arg with fill := fill.getD arg.fill, align := a }, p) := by
  by_cases ha : a = .default
  · have hnone : fill = none := by
      by_contra h
      exact hfill h ha
    rw [hnone, ha]
    -- neither of the first two characters is a mark
    match p, hp with
    | [], _ => simp [alignMark, FormatArg.initAlign, ← hdefault]
    | [c], hp => simp [alignMark, FormatArg.initAlign, ← hdefault, hp c (by simp)]
    | c :: c' :: p, hp => simp [alignMark, FormatArg.initAlign, ← hdefault, hp c (by simp), hp c' (by simp)]
  · -- the mark is the second character behind a fill, and the first without one
    obtain ⟨m, hmark, hm⟩ := alignMark_eq ha
    rw [hmark]
    cases fill with
    | some f => simp [FormatArg.initAlign, hm]
    | none =>
        cases p with
        | nil => simp [FormatArg.initAlign, hm]
        | cons c p =>
            have hc := hp c List.mem_cons_self
            simp [FormatArg.initAlign, hm, hc]

/-- A sign that is not written is the default one, whatever comes next. -/
theorem initSign_text {sign : Sign} (hdefault : arg.sign = .default) (hp : ∀ c ∈ p, formatSign c = none) :
    arg.initSign (signMark sign ++ p) = ({ arg with sign := sign }, p) := by
  cases sign with
  | default =>
      have hnone : (arg, p) = (({ arg with sign := .default }, p) : FormatArg × Text) := by rw [← hdefault]
      rw [← hnone]
      cases p with
      | nil => rfl
      | cons c p =>
          have hc := hp c List.mem_cons_self
          simp [signMark, FormatArg.initSign, hc]
  | plusOrMinus => rfl
  | minus => rfl
  | spaceOrMinus => rfl

/-- Without `#` the member keeps what the constructor left in it. -/
theorem initPrefix_text {b : Bool} (hp : '#' ∉ p) : arg.initPrefix (flag '#' b ++ p) =
    ({ arg with basePrefix := if b then true else arg.basePrefix }, p) := by
  cases b with
  | true => rfl
  | false =>
      cases p with
      | nil => rfl
      | cons c p =>
          have hc : c ≠ '#' := fun h => hp (h ▸ List.mem_cons_self)
          simp [flag, FormatArg.initPrefix, hc]

/-- The zero is a fill of `'0'` with the padding behind the sign. -/
theorem initZero_text {b : Bool} (hz : b = true → arg.align = .default) (hp : p.head? ≠ some '0') :
    arg.initZero (flag '0' b ++ p) = .ok ({ arg with
      fill := if b then '0' else arg.fill
      align := if b then .padAfterSign else arg.align }, p) := by
  cases b with
  | true => simp [flag, FormatArg.initZero, hz rfl]
  | false =>
      cases p with
      | nil => rfl
      | cons c p =>
          have hc : c ≠ '0' := fun h => hp (h ▸ rfl)
          simp [flag, FormatArg.initZero, hc]

/-- The width is the digits up to the first character that is none. -/
theorem initWidth_text {w : Option Nat} (hw : ∀ n, w = some n → n < 2 ^ 31) (hp : ∀ c, p.head? = some c → isDigit c = false) :
    arg.initWidth (numeral w ++ p) = .ok ({ arg with width := w.elim arg.width (↑) }, p) := by
  cases w with
  | none =>
      have htake : p.takeWhile isDigit = [] := by
        cases p with
        | nil => rfl
        | cons c p => simp [hp c rfl]
      unfold FormatArg.initWidth
      rw [numeral, List.nil_append, if_pos htake]
      rfl
  | some n =>
      obtain ⟨htake, hdrop⟩ := takeWhile_toDigits n hp
      unfold FormatArg.initWidth
      rw [numeral, htake, hdrop, if_neg Nat.toDigits_ne_nil, lexicalCast_toDigits (hw n rfl)]
      rfl

theorem initSeparator_text {b : Bool} (hdefault : arg.thousandsSeparator = false) (hp : ',' ∉ p) :
    arg.initSeparator (flag ',' b ++ p) = ({ arg with thousandsSeparator := b }, p) := by
  cases b with
  | true => rfl
  | false =>
      have hnone : (arg, p) = (({ arg with thousandsSeparator := false }, p) : FormatArg × Text) := by rw [← hdefault]
      rw [← hnone]
      cases p with
      | nil => rfl
      | cons c p =>
          have hc : c ≠ ',' := fun h => hp (h ▸ List.mem_cons_self)
          simp [flag, FormatArg.initSeparator, hc]

theorem initTrailingDot_text {d : Bool} (hdefault : arg.trailingDot = false) (hp : '.' ∉ p) :
    arg.initTrailingDot (flag '.' d ++ p) = ({ arg with trailingDot := d }, p) := by
  cases d with
  | true => rfl
  | false =>
      have hnone : (arg, p) = (({ arg with trailingDot := false }, p) : FormatArg × Text) := by rw [← hdefault]
      rw [← hnone]
      cases p with
      | nil => rfl
      | cons c p =>
          have hc : c ≠ '.' := fun h => hp (h ▸ List.mem_cons_self)
          simp [flag, FormatArg.initTrailingDot, hc]

/-- A dot with no digits behind it is the trailing one. -/
theorem initPrecision_text {o : Option Nat} {d : Bool} (hdefault : arg.trailingDot = false)
    (ho : ∀ n, o = some n → n < 2 ^ 31) (hdot : '.' ∉ p) (hp : ∀ c, p.head? = some c → isDigit c = false) :
    arg.initPrecision (dotted o ++ (flag '.' d ++ p)) =
      .ok ({ arg with precision := o.elim arg.precision (↑), trailingDot := d }, p) := by
  cases o with
  | some n =>
      have hhead : ∀ c, (flag '.' d ++ p).head? = some c → isDigit c = false := by
        cases d with
        | true =>
            rintro c ⟨⟩
            rfl
        | false => exact hp
      obtain ⟨htake, hdrop⟩ := takeWhile_toDigits n hhead
      have hrest : ({ arg with precision := (n : Int) } : FormatArg).initTrailingDot (flag '.' d ++ p) =
          ({ arg with precision := (n : Int), trailingDot := d }, p) := initTrailingDot_text hdefault hdot
      unfold dotted FormatArg.initPrecision
      simp only [List.cons_append, if_true, htake, hdrop, if_neg Nat.toDigits_ne_nil, lexicalCast_toDigits (ho n rfl), Except.map,
        hrest]
      rfl
  | none =>
      have htake : p.takeWhile isDigit = [] := by
        cases p with
        | nil => rfl
        | cons c p => simp [hp c rfl]
      cases d with
      | true => simp [dotted, flag, FormatArg.initPrecision, htake]
      | false =>
          have hsame : ({ arg with precision := (none : Option Nat).elim arg.precision (↑), trailingDot := false } : FormatArg) =
              arg := by rw [← hdefault]; rfl
          rw [hsame]
          cases p with
          | nil => rfl
          | cons c p =>
              have hc : c ≠ '.' := fun h => hdot (h ▸ List.mem_cons_self)
              simp [dotted, flag, FormatArg.initPrecision, hc]

theorem initPresentation_text {o : Option Char} : arg.initPresentation o.toList =
    .ok { arg with presentation := o.getD arg.presentation } := by
  cases o <;> rfl

/-! ## The whole text -/

namespace Spec

variable (spec : Spec)

/-! The text behind each of the parts, from the last part to the first. -/

def afterComma : Text := dotted spec.precision ++ (flag '.' spec.trailingDot ++ spec.presentation.toList)
def afterWidth : Text := flag ',' spec.separator ++ spec.afterComma
def afterZero : Text := numeral spec.width ++ spec.afterWidth
def afterHash : Text := flag '0' spec.zero ++ spec.afterZero
def afterSign : Text := flag '#' spec.basePrefix ++ spec.afterHash
def afterAlign : Text := signMark spec.sign ++ spec.afterSign

theorem text_eq : spec.text = spec.key ++ ':' :: (spec.fill.toList ++ (alignMark spec.align ++ spec.afterAlign)) := by
  simp [text, afterAlign, afterSign, afterHash, afterZero, afterWidth, afterComma]

theorem alpha_presentation (h : c ∈ spec.presentation.toList) : c.isAlpha = true := spec.letter c (Option.mem_toList.mp h)

/-- The characters from the numbers on are no mark of the sign, `#` or an alignment. -/
theorem body_afterHash : ∀ c ∈ spec.afterHash, isBody c = true := by
  intro c hc
  simp only [afterHash, afterZero, afterWidth, afterComma, List.mem_append] at hc
  rcases hc with hc | hc | hc | hc | hc | hc
  · rw [eq_of_mem_flag hc]
    rfl
  · simp [isBody, isDigit_numeral hc]
  · rw [eq_of_mem_flag hc]
    rfl
  · rcases mem_dotted hc with rfl | hdigit
    · rfl
    · simp [isBody, hdigit]
  · rw [eq_of_mem_flag hc]
    rfl
  · simp [isBody, spec.alpha_presentation hc]

/-- What is behind the width does not begin with a digit. -/
theorem head_afterWidth : ∀ c, spec.afterWidth.head? = some c → isDigit c = false := by
  intro c hc
  simp only [afterWidth, afterComma, List.head?_append, Option.or_eq_some_iff] at hc
  rcases hc with hc | ⟨-, hc | ⟨-, hc | ⟨-, hc⟩⟩⟩
  · rw [eq_of_mem_flag (List.mem_of_mem_head? hc)]
    rfl
  · rw [head_dotted hc]
    rfl
  · rw [eq_of_mem_flag (List.mem_of_mem_head? hc)]
    rfl
  · exact not_isDigit_of_alpha (spec.alpha_presentation (List.mem_of_mem_head? hc))

/-- What is behind the zero does not begin with another, as a width has no leading zero. -/
theorem head_afterZero : spec.afterZero.head? ≠ some '0' := by
  unfold afterZero
  cases hw : spec.width with
  | none =>
      intro hc
      exact absurd (spec.head_afterWidth '0' hc) (by decide)
  | some n =>
      obtain ⟨hpos, -⟩ := spec.width_range n hw
      have hne : (Nat.toDigits 10 n).head?.isSome := List.isSome_head?.mpr Nat.toDigits_ne_nil
      show (Nat.toDigits 10 n ++ _).head? ≠ some '0'
      rw [List.head?_append, Option.or_of_isSome hne]
      exact head_toDigits (by decide) (by decide) (by omega)

/-- Behind the place of the comma there is none. -/
theorem comma_not_mem : ',' ∉ spec.afterComma := by
  intro h
  simp only [afterComma, List.mem_append] at h
  rcases h with h | h | h
  · rcases mem_dotted h with h | h
    · exact absurd h (by decide)
    · exact absurd h (by decide)
  · exact absurd (eq_of_mem_flag h) (by decide)
  · exact alpha_ne rfl (spec.alpha_presentation h) rfl

/-- The characters from `#` on are no sign and no alignment. -/
theorem marks_afterSign : ∀ c ∈ spec.afterSign, formatSign c = none ∧ formatAlign c = none := by
  intro c hc
  rcases List.mem_append.mp hc with hc | hc
  · rw [eq_of_mem_flag hc]
    exact ⟨rfl, rfl⟩
  · have hbody := spec.body_afterHash c hc
    exact ⟨formatSign_body hbody, formatAlign_body hbody⟩

/-- Nothing behind the alignment is taken for one. -/
theorem align_afterAlign : ∀ c ∈ spec.afterAlign, formatAlign c = none := by
  intro c hc
  rcases List.mem_append.mp hc with hc | hc
  · unfold signMark at hc
    split at hc
    · cases hc
    all_goals
      rw [List.mem_singleton.mp hc]
      rfl
  · exact (spec.marks_afterSign c hc).2

end Spec

open Spec in
/-- **Specifications parse back.** -/
theorem initSlow_text (junk : Junk) (spec : Spec) : (FormatArg.fresh junk).initSlow spec.text = .ok (spec.toArg junk) := by
  have hdot : '.' ∉ spec.presentation.toList := fun h => alpha_ne rfl (spec.alpha_presentation h) rfl
  have hdigit : ∀ c, spec.presentation.toList.head? = some c → isDigit c = false :=
    fun c hc => not_isDigit_of_alpha (spec.alpha_presentation (List.mem_of_mem_head? hc))
  have hash : '#' ∉ spec.afterHash := fun h => absurd (spec.body_afterHash '#' h) (by decide)
  have hwidth : ∀ n, spec.width = some n → n < 2 ^ 31 := fun n hn => (spec.width_range n hn).2
  unfold FormatArg.initSlow
  rw [spec.text_eq, cut_append spec.key_plain]
  simp only
  -- each stage takes its part and leaves the rest to the next
  rw [initAlign_text rfl spec.fill_aligned spec.align_afterAlign]
  simp only
  rw [afterAlign, initSign_text rfl fun c hc => (spec.marks_afterSign c hc).1]
  simp only
  rw [afterSign, initPrefix_text hash]
  simp only
  rw [afterHash, initZero_text spec.zero_unaligned spec.head_afterZero]
  simp only [bind, Except.bind]
  rw [afterZero, initWidth_text hwidth spec.head_afterWidth]
  simp only
  rw [afterWidth, initSeparator_text rfl spec.comma_not_mem]
  simp only
  rw [afterComma, initPrecision_text rfl spec.precision_range hdot hdigit]
  simp only
  rw [initPresentation_text]
  rfl

/-- `amount:*>+#12,.3.x`, with every part but the zero. -/
def amountSpec : Spec where
  key := "amount".toList
  fill := some '*'
  align := .right
  sign := .plusOrMinus
  basePrefix := true
  zero := false
  width := some 12
  separator := true
  precision := some 3
  trailingDot := true
  presentation := some 'x'
  key_plain := by decide
  fill_aligned _ := Align.noConfusion
  zero_unaligned h := Bool.noConfusion h
  width_range := by
    rintro w ⟨⟩
    omega
  precision_range := by
    rintro n ⟨⟩
    omega
  letter := by
    rintro c ⟨⟩
    rfl

theorem initSlow_text_amount : ∃ arg, (FormatArg.fresh ⟨0, false⟩).initSlow "amount:*>+#12,.3.x".toList = .ok arg ∧
    arg.key = "amount".toList ∧ arg.fill = '*' ∧ arg.align = .right ∧ arg.sign = .plusOrMinus ∧ arg.basePrefix = true ∧
    arg.width = 12 ∧ arg.thousandsSeparator = true ∧ arg.precision = 3 ∧ arg.trailingDot = true ∧ arg.presentation = 'x' :=
  ⟨amountSpec.toArg ⟨0, false⟩, initSlow_text ⟨0, false⟩ amountSpec, rfl, rfl, rfl, rfl, rfl, rfl, rfl, rfl, rfl, rfl⟩

end Format
end Snippets
