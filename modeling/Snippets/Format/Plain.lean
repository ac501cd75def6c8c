import Snippets.Format.Digits
import Snippets.Format.Padding

/-!
# `Format.Plain` — what `{}` writes for an integer and for a string

An integer is written as its decimal numeral. A string goes through the same callback as the template's literals, which
looks for `}`: it is written as it is exactly when it has none and when its length, read as an `int`, is not below the
default width of -1 (`verbatimSpec_iff`).
-/

namespace Snippets
namespace Format

open Lib

variable {junk : Junk} {p s : Text} {c : Char}

/-! ## Decimal numerals -/

theorem uintToDec_eq (n : Integer) : uintToDec (.fresh junk) n = .ok (Nat.toDigits 10 n.val.natAbs, 0) :=
  uintToDec_rendered (.fresh junk) n

/-- The decimal numeral of an integer. -/
def decimal (n : Int) : Text := if n < 0 then '-' :: Nat.toDigits 10 n.natAbs else Nat.toDigits 10 n.natAbs

theorem decimal_eq (n : Int) : decimal n = (toString n).toList := by
  unfold decimal
  cases n with
  | ofNat m =>
      have hpos : ¬Int.ofNat m < 0 := Int.not_lt.mpr (Int.natCast_nonneg m)
      rw [if_neg hpos, Int.toString_eq_repr]
      show Nat.toDigits 10 m = (Nat.repr m).toList
      rw [Nat.toList_repr]
  | negSucc m =>
      rw [if_pos (Int.negSucc_lt_zero m), Int.toString_eq_repr]
      show '-' :: Nat.toDigits 10 (m + 1) = ("-" ++ Nat.repr (m + 1)).toList
      rw [String.toList_append, Nat.toList_repr]
      rfl

/-! ## Output without padding -/

/-- The padding that the default width of -1 asks for: none, unless the length does not fit an `int`. -/
def defaultPadding (length : Nat) : Int := toInt32 (-1 - toInt32 length)

theorem defaultPadding_nonpos {length : Nat} :
    defaultPadding length ≤ 0 ↔ length % 2 ^ 32 < 2 ^ 31 ∨ length % 2 ^ 32 = 2 ^ 32 - 1 := by
  have hlong : paddingSize (-1) length ≤ 0 ↔ ((length : Int) - -1) % 2 ^ 32 ≤ 2 ^ 31 := paddingSize_long
  have hsame : defaultPadding length = paddingSize (-1) length := rfl
  rw [hsame, hlong]
  omega

/-- Padding of spaces. -/
theorem pad_space (size : Int) : padTo emit ' ' (max 0 size) = .ok (List.replicate (min (max 0 size) 128).toNat ' ') := by
  have hneg : ¬max 0 size < 0 := by omega
  unfold padTo
  rw [if_neg hneg]
  apply emit_of_plain
  intro hmem
  rw [List.mem_replicate] at hmem
  exact absurd hmem.2 (by decide)

theorem rbrace_not_mem_toDigits (n : Nat) : rbrace ∉ Nat.toDigits 10 n := by
  intro hmem
  have hdigit := Nat.isDigit_of_mem_toDigits (by decide) (by decide) hmem
  exact absurd hdigit (by decide)

theorem formatNumber_fresh {prefixLen : Nat} (hs : rbrace ∉ s) (hle : prefixLen ≤ s.length) (hlen : s.length ≤ 67) :
    formatNumber (.fresh junk) prefixLen ⟨s, []⟩ = .ok s := by
  have hnonpos : paddingSize (-1) s.length ≤ 0 := defaultPadding_nonpos.mpr (Or.inl (by omega))
  have hpad : padLength (paddingSize (-1) s.length) = 0 := by
    unfold padLength
    omega
  have halign : (FormatArg.fresh junk).align = .default := rfl
  have hassert : ¬toInt32 s.length < prefixLen := by
    rw [toInt32_of_range (by omega) (by omega)]
    omega
  unfold formatNumber formatNumberTo
  rw [if_neg hassert, if_pos halign]
  -- the padding comes before a number, and it is empty
  have hfill : (FormatArg.fresh junk).fill ≠ rbrace := by
    show nul ≠ rbrace
    decide
  have hplain : formatString { FormatArg.fresh junk with align := .right } ⟨s, []⟩ =
      formatStringTo write { FormatArg.fresh junk with align := .right } ⟨s, []⟩ := formatString_plain hs hfill
  unfold formatString at hplain
  rw [hplain, formatStringTo_write]
  show Except.ok (List.replicate (padLength (paddingSize (-1) s.length)) _ ++ s) = _
  rw [hpad]
  rfl

/-- **`{}` writes an integer as its decimal numeral.** -/
theorem formatInteger_fresh (n : Integer) : formatInteger (.fresh junk) n = .ok (toString n.val).toList := by
  obtain ⟨-, hlt⟩ := magnitude_eq n
  have hbits : n.ty.bits ≤ 64 := by
    rcases n.ty.standard with h | h | h | h <;> omega
  have hlen : (Nat.toDigits 10 n.val.natAbs).length ≤ 64 := by
    rw [Nat.length_toDigits_le_iff (by decide) (by decide)]
    have hpow : 2 ^ n.ty.bits ≤ 2 ^ 64 := Nat.pow_le_pow_right (by decide) hbits
    exact hlt.trans_le (hpow.trans (by decide))
  have hdigits : integerDigits (.fresh junk) n = .ok (Nat.toDigits 10 n.val.natAbs, 0) := uintToDec_eq n
  have hsign : integerSign (.fresh junk) n (Nat.toDigits 10 n.val.natAbs) 0 =
      .ok (decimal n.val, if n.val < 0 then 1 else 0) := by
    have hdefault : (FormatArg.fresh junk).sign = .default := rfl
    have hpush : push '-' (Nat.toDigits 10 n.val.natAbs) = .ok ('-' :: Nat.toDigits 10 n.val.natAbs) := by
      unfold push
      rw [if_pos (by omega)]
    unfold integerSign decimal
    rw [hdefault, hpush]
    by_cases hneg : n.val < 0
    · simp only [if_pos hneg]
      rfl
    · simp only [if_neg hneg]
  rw [← decimal_eq]
  unfold formatInteger
  simp only [hdigits, bind, Except.bind, hsign]
  have hplain : rbrace ∉ decimal n.val ∧ (if n.val < 0 then 1 else 0) ≤ (decimal n.val).length ∧
      (decimal n.val).length ≤ 67 := by
    have hdigits := rbrace_not_mem_toDigits n.val.natAbs
    have hminus : rbrace ≠ '-' := by decide
    unfold decimal
    split
    · refine ⟨?_, ?_, ?_⟩
      · rw [List.mem_cons, not_or]
        exact ⟨hminus, hdigits⟩
      · rw [List.length_cons]
        omega
      · rw [List.length_cons]
        omega
    · exact ⟨hdigits, Nat.zero_le _, by omega⟩
  exact formatNumber_fresh hplain.1 hplain.2.1 hplain.2.2

/-! ## Integers in a template -/

/-- **Literals and integers.** A template of literals, with their braces doubled, and placeholders `{}` for integers
    gives the literals and the numerals. -/
theorem sFormat_integers (junk : Junk) (segs : List (Segment Integer)) (hnul : ∀ t, .literal t ∈ segs → nul ∉ t) :
    sFormat junk (template segs) ((arguments segs).map Value.integer) =
      .ok (segs.flatMap (Segment.text fun n => (toString n.val).toList)) := by
  let render : Value → Text := fun v =>
    match v with
    | .integer n => (toString n.val).toList
    | _ => []
  have hformat : ∀ v ∈ arguments (segs.map (Segment.map Value.integer)), v.format (.fresh junk) = .ok (render v) := by
    intro v hv
    rw [arguments_map] at hv
    obtain ⟨n, -, rfl⟩ := List.mem_map.mp hv
    show formatInteger (.fresh junk) n = _
    exact formatInteger_fresh n
  have hnul' : nul ∉ template (segs.map (Segment.map Value.integer)) :=
    nul_not_mem_template fun t ht => hnul t (literal_mem_map _ _ ht)
  have hsegs := sFormat_template junk (segs.map (Segment.map Value.integer)) hnul'
  rw [template_map, arguments_map, writeAll_ok hformat, text_map] at hsegs
  exact hsegs

/-- The template `a}}{}{{` with the argument -7. -/
theorem sFormat_integers_minus : sFormat ⟨0, false⟩ ['a', rbrace, rbrace, lbrace, rbrace, lbrace, lbrace]
    [.integer ⟨.int, -7, by decide⟩] = .ok ['a', rbrace, '-', '7', lbrace] := by
  have hnul : ∀ t, Segment.literal t ∈ [.literal ['a', rbrace], .placeholder (⟨.int, -7, by decide⟩ : Integer), .literal [lbrace]] →
      nul ∉ t := by
    intro t ht
    simp only [List.mem_cons, Segment.literal.injEq, reduceCtorEq, List.not_mem_nil, or_false, false_or] at ht
    rcases ht with rfl | rfl <;> decide
  exact sFormat_integers ⟨0, false⟩ _ hnul

/-! ## Strings -/

/-- What the callback writes has half of the `}` of what it is given. -/
theorem count_emitFrom {fuel : Nat} {beyond out : Text} (h : emitFrom fuel s beyond = .ok out) :
    2 * out.count rbrace = s.count rbrace := by
  induction fuel generalizing s out with
  | zero => cases h
  | succ fuel ih =>
      rcases cut_cases rbrace s with ⟨hs, -⟩ | ⟨a, b, rfl, ha, hcut⟩
      · rw [emitFrom_of_plain hs (Nat.succ_pos _)] at h
        cases h
        rw [List.count_eq_zero.mpr hs]
      · have hne : a ++ rbrace :: b ≠ [] := by simp
        rw [emitFrom, if_neg hne, hcut] at h
        cases b with
        | nil =>
            cases beyond with
            | nil => cases h
            | cons c beyond =>
                simp only [List.nil_append, List.head?_cons] at h
                split at h <;> cases h
        | cons c b =>
            simp only [List.cons_append, List.head?_cons] at h
            by_cases hc : c = rbrace
            · subst hc
              rw [if_neg (not_not.mpr rfl)] at h
              cases hrest : emitFrom fuel b beyond with
              | error e =>
                  rw [hrest] at h
                  cases h
              | ok rest =>
                  rw [hrest] at h
                  cases h
                  have hcount := ih hrest
                  simp only [List.count_append, List.count_cons_self, List.count_eq_zero.mpr ha]
                  omega
            · rw [if_pos hc] at h
              cases h

/-- `{}` for a string: the callback's reading of it, and the padding. -/
theorem format_string (s : Slice) : (Value.string s).format (.fresh junk) =
    (emit s).map (· ++ List.replicate (min (max 0 (defaultPadding s.text.length)) 128).toNat ' ') := by
  have hformat : (Value.string s).format (.fresh junk) = (do
      let out ← emit s
      let padding ← padTo emit ' ' (max 0 (defaultPadding s.text.length))
      return out ++ padding) := by
    unfold Value.format
    rfl
  rw [hformat, pad_space]
  cases emit s <;> rfl

/-- A string is written as it is. -/
theorem format_string_iff (junk : Junk) (s : Slice) : (Value.string s).format (.fresh junk) = .ok s.text ↔
    rbrace ∉ s.text ∧ (s.text.length % 2 ^ 32 < 2 ^ 31 ∨ s.text.length % 2 ^ 32 = 2 ^ 32 - 1) := by
  rw [format_string, ← defaultPadding_nonpos]
  constructor
  · intro h
    cases hemit : emit s with
    | error e =>
        rw [hemit] at h
        cases h
    | ok out =>
        rw [hemit] at h
        have heq : out ++ List.replicate (min (max 0 (defaultPadding s.text.length)) 128).toNat ' ' = s.text :=
          Except.ok.inj h
        have hcount := count_emitFrom hemit
        have hspace : rbrace ≠ ' ' := by decide
        have hsame : s.text.count rbrace = out.count rbrace := by
          rw [← heq, List.count_append, List.count_replicate, if_neg (by simpa using hspace.symm)]
          rfl
        have hzero : s.text.count rbrace = 0 := by omega
        have hplain := List.count_eq_zero.mp hzero
        refine ⟨hplain, ?_⟩
        -- nothing is left for the padding
        have hemit' : emit s = .ok s.text := emit_of_plain hplain
        have hout : out = s.text := Except.ok.inj (hemit.symm.trans hemit')
        have hlen := congrArg List.length heq
        rw [hout, List.length_append, List.length_replicate] at hlen
        omega
  · rintro ⟨hplain, hpad⟩
    have hzero : (min (max 0 (defaultPadding s.text.length)) 128).toNat = 0 := by omega
    have hemit : emit s = .ok s.text := emit_of_plain hplain
    rw [hemit, hzero]
    show Except.ok (s.text ++ []) = _
    rw [List.append_nil]

/-- Argument text is inserted as it is, alone and between literals. -/
def VerbatimSpec (junk : Junk) (s : Text) : Prop :=
  sFormat junk [lbrace, rbrace] [.string (.ofString s)] = .ok s ∧
    ∀ a b, nul ∉ a → nul ∉ b →
      sFormat junk (escape a ++ [lbrace, rbrace] ++ escape b) [.string (.ofString s)] = .ok (a ++ s ++ b)

/-- A string between two literals. -/
theorem sFormat_string (junk : Junk) {a b : Text} (ha : nul ∉ a) (hb : nul ∉ b) (s : Slice) :
    sFormat junk (escape a ++ [lbrace, rbrace] ++ escape b) [.string s] =
      ((Value.string s).format (.fresh junk)).map fun out => a ++ out ++ b := by
  have hnul : nul ∉ template [.literal a, .placeholder (Value.string s), .literal b] := by
    apply nul_not_mem_template
    intro t ht
    simp only [List.mem_cons, Segment.literal.injEq, reduceCtorEq, List.not_mem_nil, or_false, false_or] at ht
    rcases ht with rfl | rfl
    · exact ha
    · exact hb
  have hsegs := sFormat_template junk [.literal a, .placeholder (Value.string s), .literal b] hnul
  have htemplate : template [.literal a, .placeholder (Value.string s), .literal b] =
      escape a ++ [lbrace, rbrace] ++ escape b := by
    simp [template, Segment.template]
  rw [htemplate] at hsegs
  refine hsegs.trans ?_
  simp only [writeAll, bind]
  cases (Value.string s).format (.fresh junk) with
  | error e => rfl
  | ok out => simp [Except.bind, Except.map, pure, Except.pure]

/-- **When argument text is inserted as it is.** -/
theorem verbatimSpec_iff (junk : Junk) (s : Text) : VerbatimSpec junk s ↔
    rbrace ∉ s ∧ (s.length % 2 ^ 32 < 2 ^ 31 ∨ s.length % 2 ^ 32 = 2 ^ 32 - 1) := by
  have hiff := format_string_iff junk (.ofString s)
  have halone : sFormat junk [lbrace, rbrace] [.string (.ofString s)] = (Value.string (.ofString s)).format (.fresh junk) := by
    have hstring := sFormat_string junk (a := []) (b := []) List.not_mem_nil List.not_mem_nil (.ofString s)
    refine hstring.trans ?_
    cases (Value.string (.ofString s)).format (.fresh junk) with
    | error e => rfl
    | ok out => simp [Except.map]
  constructor
  · rintro ⟨h, -⟩
    exact hiff.mp (halone.symm.trans h)
  · intro h
    have hformat : (Value.string (.ofString s)).format (.fresh junk) = .ok s := hiff.mpr h
    refine ⟨halone.trans hformat, ?_⟩
    intro a b ha hb
    rw [sFormat_string junk ha hb, hformat]
    rfl

/-- The string `}`. -/
theorem not_verbatimSpec_brace : ¬VerbatimSpec ⟨0, false⟩ [rbrace] ∧
    sFormat ⟨0, false⟩ [lbrace, rbrace] [.string (.ofString [rbrace])] = .error (.badFormat "single `\x7d'") := by
  have hthrow : sFormat ⟨0, false⟩ [lbrace, rbrace] [.string (.ofString [rbrace])] = .error (.badFormat "single `\x7d'") := by
    decide +kernel
  refine ⟨?_, hthrow⟩
  rintro ⟨h, -⟩
  rw [hthrow] at h
  cases h

end Format
end Snippets
