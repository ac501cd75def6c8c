import Snippets.Format.Digits

/-!
# `Format.Rendering` — the text of an integer before padding

`FormatValue<integer>::Format` writes an integer backwards into 67 characters: the digits, the mark of the base, the sign.
The text is a numeral of the magnitude with these in front, for every presentation that is a base, and it fits
(`integerText_rendered`). The longest is the least 64-bit value in binary with a mark, which takes all 67.
-/

namespace Snippets
namespace Format

open Lib

variable {p repr mark : Text}

/-! ## What is asked for -/

def integerPresentations : Text := [nul, 'd', 'n', 'x', 'X', 'o', 'O', 'b', 'B']

/-- The base of a presentation. -/
def baseOf (presentation : Char) : Nat :=
  if presentation = 'x' ∨ presentation = 'X' then 16
  else if presentation = 'o' ∨ presentation = 'O' then 8
  else if presentation = 'b' ∨ presentation = 'B' then 2
  else 10

/-- The mark of a presentation's base. Decimal numerals have none, and the hexadecimal mark is small for either case. -/
def baseMark (presentation : Char) : Text :=
  if presentation = 'x' ∨ presentation = 'X' then ['0', 'x']
  else if presentation = 'o' ∨ presentation = 'O' then ['0']
  else if presentation = 'b' then ['0', 'b']
  else if presentation = 'B' then ['0', 'B']
  else []

/-- The sign that a mode asks for. -/
def signText (sign : Sign) (val : Int) : Text :=
  match sign with
  | .default | .minus => if val < 0 then ['-'] else []
  | .plusOrMinus => [if val < 0 then '-' else '+']
  | .spaceOrMinus => [if val < 0 then '-' else ' ']

/-- The mark that is asked for. -/
def markText (arg : FormatArg) : Text := if arg.basePrefix then baseMark arg.presentation else []

/-- The digits, with commas between groups of three decimal ones if they are asked for. -/
def separated (arg : FormatArg) (ds : Text) : Text :=
  if arg.thousandsSeparator ∧ baseOf arg.presentation = 10 then grouped ds else ds

/-- `p` is the text of an integer, and `prefixLen` the length of what is in front of its digits. -/
structure Rendered (arg : FormatArg) (n : Integer) (p : Text) (prefixLen : Nat) : Prop where
  fits : p.length ≤ 67
  parts : ∃ ds, Numeral (baseOf arg.presentation) (arg.presentation = 'X') n.val.natAbs ds ∧
    p = signText arg.sign n.val ++ markText arg ++ separated arg ds
  prefixLen_eq : prefixLen = (signText arg.sign n.val).length + (markText arg).length

/-- The part of `FormatValue<integer>::Format` in front of `FormatNumber`. -/
def integerText (arg : FormatArg) (n : Integer) : Except Failure (Text × Nat) := do
  let (p, prefixLen) ← integerDigits arg n
  integerSign arg n p prefixLen

theorem formatInteger_eq (arg : FormatArg) (n : Integer) : formatInteger arg n = (do
    let (p, prefixLen) ← integerText arg n
    formatNumber arg prefixLen ⟨p, []⟩) := by
  unfold formatInteger integerText
  cases integerDigits arg n <;> rfl

/-! ## The text -/

/-- The digits for a presentation that is a base, with the mark. -/
def RenderedDigits (arg : FormatArg) (n : Integer) : Prop :=
  ∃ ds, Numeral (baseOf arg.presentation) (arg.presentation = 'X') n.val.natAbs ds ∧
    (markText arg ++ separated arg ds).length ≤ 66 ∧
    integerDigits arg n = .ok (markText arg ++ separated arg ds, (markText arg).length)

theorem renderedDigits_decimal {arg : FormatArg} (n : Integer)
    (hp : arg.presentation = nul ∨ arg.presentation = 'd' ∨ arg.presentation = 'n') : RenderedDigits arg n := by
  obtain ⟨hbase, hmark, hupper⟩ : baseOf arg.presentation = 10 ∧ baseMark arg.presentation = [] ∧ arg.presentation ≠ 'X' := by
    rcases hp with hp | hp | hp <;> rw [hp] <;> decide
  have htext : markText arg = [] := by
    unfold markText
    rw [hmark, ite_self]
  obtain ⟨-, -, hlen⟩ := rounds (b := 10) (j := 20) n (by decide) (by decide) (by decide)
  have hgrouped := length_groupedFrom_le 0 (Nat.toDigits 10 n.val.natAbs)
  refine ⟨Nat.toDigits 10 n.val.natAbs, ?_, ?_, ?_⟩
  · have hnumeral := numeral_toDigits_lower (b := 10) (by decide) (by decide) n.val.natAbs
    rw [hbase]
    simpa [hupper] using hnumeral
  · rw [htext, List.nil_append]
    unfold separated grouped
    split <;> omega
  · unfold integerDigits separated
    rw [if_pos hp, uintToDec_rendered, htext, hbase]
    simp

/-- `facts` is about the presentation `c` alone: its base and mark, the digits of the base, and `j` rounds that are enough. -/
theorem renderedDigits_mask {arg : FormatArg} {c : Char} (b j : Nat) (n : Integer) (hp : arg.presentation = c)
    (hdigits : integerDigits arg n = uintToMask arg b repr mark n)
    (facts : (baseOf c = 2 ^ b ∧ baseMark c = mark ∧ b ∈ [1, 3, 4]) ∧
      (∀ d < 2 ^ b, repr.getD d nul = letterCase (c = 'X') (Nat.digitChar d)) ∧
      (∀ bits ∈ [8, 16, 32, 64], 2 ^ bits ≤ (2 ^ b) ^ (min j bits)) ∧ 0 < j ∧ j + mark.length ≤ 66) :
    RenderedDigits arg n := by
  obtain ⟨⟨hbase, hmark, hb⟩, hrepr, hj, hpos, hroom⟩ := facts
  obtain ⟨hb₀, hone, hle, hten⟩ : 0 < b ∧ 1 < 2 ^ b ∧ 2 ^ b ≤ 16 ∧ 2 ^ b ≠ 10 := by
    simp only [List.mem_cons, List.not_mem_nil, or_false] at hb
    rcases hb with rfl | rfl | rfl <;> decide
  have hsep : ∀ ds, separated arg ds = ds := by
    intro ds
    unfold separated
    rw [if_neg (by rw [hp, hbase]; tauto)]
  have hmark' : markText arg = if arg.basePrefix then mark else [] := by
    unfold markText
    rw [hp, hmark]
  obtain ⟨-, -, hlen⟩ := rounds n hone hj hpos
  refine ⟨(Nat.toDigits (2 ^ b) n.val.natAbs).map (letterCase (c = 'X')), ?_, ?_, ?_⟩
  · rw [hp, hbase]
    exact numeral_toDigits hone hle _ _
  · rw [hsep, hmark', List.length_append, List.length_map]
    split
    · omega
    · rw [List.length_nil]
      omega
  · rw [hdigits, uintToMask_rendered arg n hb₀ hrepr hj hpos hroom, hsep, hmark']
    split <;> rfl

/-- **The digits**, by the presentation. -/
theorem renderedDigits {arg : FormatArg} (n : Integer) (hp : arg.presentation ∈ integerPresentations) :
    RenderedDigits arg n := by
  simp only [integerPresentations, List.mem_cons, List.not_mem_nil, or_false] at hp
  rcases hp with hp | hp | hp | hp | hp | hp | hp | hp | hp
  · exact renderedDigits_decimal n (.inl hp)
  · exact renderedDigits_decimal n (.inr (.inl hp))
  · exact renderedDigits_decimal n (.inr (.inr hp))
  -- `x` and `X` with 16 digits, `o` and `O` with 22, `b` and `B` with 64
  · exact renderedDigits_mask 4 16 n hp (by unfold integerDigits; rw [hp]; rfl) (by decide)
  · exact renderedDigits_mask 4 16 n hp (by unfold integerDigits; rw [hp]; rfl) (by decide)
  · exact renderedDigits_mask 3 22 n hp (by unfold integerDigits; rw [hp]; rfl) (by decide)
  · exact renderedDigits_mask 3 22 n hp (by unfold integerDigits; rw [hp]; rfl) (by decide)
  · exact renderedDigits_mask 1 64 n hp (by unfold integerDigits; rw [hp]; rfl) (by decide)
  · exact renderedDigits_mask 1 64 n hp (by unfold integerDigits; rw [hp]; rfl) (by decide)

theorem integerSign_eq (arg : FormatArg) (n : Integer) {prefixLen : Nat} (hroom : p.length ≤ 66) :
    integerSign arg n p prefixLen = .ok (signText arg.sign n.val ++ p, prefixLen + (signText arg.sign n.val).length) := by
  have hsigned : ∀ c, (push c p).map (fun p => (p, prefixLen + 1)) = .ok ([c] ++ p, prefixLen + [c].length) := by
    intro c
    rw [push_eq (by omega)]
    rfl
  have hminus : (if n.val < 0 then (push '-' p).map fun p => (p, prefixLen + 1) else .ok (p, prefixLen)) =
      .ok ((if n.val < 0 then ['-'] else []) ++ p, prefixLen + (if n.val < 0 then ['-'] else []).length) := by
    split
    · exact hsigned '-'
    · rfl
  unfold integerSign signText
  cases arg.sign with
  | default => exact hminus
  | minus => exact hminus
  | plusOrMinus => exact hsigned _
  | spaceOrMinus => exact hsigned _

/-- **Integers are rendered faithfully, and fit their buffer.** -/
theorem integerText_rendered (arg : FormatArg) (n : Integer) (hp : arg.presentation ∈ integerPresentations) :
    ∃ p prefixLen, integerText arg n = .ok (p, prefixLen) ∧ Rendered arg n p prefixLen ∧
      formatInteger arg n = formatNumber arg prefixLen ⟨p, []⟩ := by
  obtain ⟨ds, hnumeral, hlen, hdigits⟩ := renderedDigits n hp
  have htext : integerText arg n = .ok (signText arg.sign n.val ++ (markText arg ++ separated arg ds),
      (markText arg).length + (signText arg.sign n.val).length) := by
    unfold integerText
    rw [hdigits]
    exact integerSign_eq arg n hlen
  have hsign : (signText arg.sign n.val).length ≤ 1 := by
    unfold signText
    split <;> split <;> simp
  refine ⟨_, _, htext, ⟨?_, ⟨ds, hnumeral, ?_⟩, ?_⟩, ?_⟩
  · rw [List.length_append]
    omega
  · rw [List.append_assoc]
  · exact Nat.add_comm _ _
  · rw [formatInteger_eq, htext]
    rfl

/-- The least 64-bit value in binary, with a sign and a mark: 67 characters. -/
theorem integerText_rendered_least : ∃ p prefixLen,
    integerText { FormatArg.fresh ⟨0, true⟩ with presentation := 'b' } ⟨⟨64, true, by decide⟩, -2 ^ 63, by decide⟩ = .ok (p, prefixLen) ∧
      Rendered { FormatArg.fresh ⟨0, true⟩ with presentation := 'b' } ⟨⟨64, true, by decide⟩, -2 ^ 63, by decide⟩ p prefixLen ∧
      p.length = 67 ∧ prefixLen = 3 := by
  have hlength : (integerText { FormatArg.fresh ⟨0, true⟩ with presentation := 'b' }
      ⟨⟨64, true, by decide⟩, -2 ^ 63, by decide⟩).map (fun r => (r.1.length, r.2)) = .ok (67, 3) := by
    decide +kernel
  obtain ⟨p, prefixLen, htext, hrendered, -⟩ := integerText_rendered { FormatArg.fresh ⟨0, true⟩ with presentation := 'b' }
    ⟨⟨64, true, by decide⟩, -2 ^ 63, by decide⟩ (by decide)
  rw [htext] at hlength
  have hpair : (p.length, prefixLen) = (67, 3) := Except.ok.inj hlength
  exact ⟨p, prefixLen, htext, hrendered, congrArg Prod.fst hpair, congrArg Prod.snd hpair⟩

end Format
end Snippets
