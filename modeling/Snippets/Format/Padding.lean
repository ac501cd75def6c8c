import Snippets.Format.Template

/-!
# `Format.Padding` — the width that padding reaches

`FormatString` and `FormatNumber` for an `Output` that writes what it is given. A piece of padding goes through a buffer of 128 characters and is cut to
that, and the length of the text is read as an `int`. So a width is reached exactly when no more than 128 characters are
missing on a side, and a text that is not below its width is left alone exactly when its length as an `int` is not below it
either (`padsAsAsked_iff`).
-/

namespace Snippets
namespace Format

open Lib

variable {arg : FormatArg} {s : Text} {len : Nat} {f : Char}

/-! ## An output that writes what it is given -/

/-- The output that writes what it is given. -/
def write (s : Slice) : Except Failure Text := .ok s.text

/-- `Formatter`'s callback does that for what has no `}`. -/
theorem formatString_plain {s : Slice} (hs : rbrace ∉ s.text) (hfill : arg.fill ≠ rbrace) :
    formatString arg s = formatStringTo write arg s := by
  have hout : emit s = write s := emit_of_plain hs
  have hpad : ∀ size, padTo emit (if arg.fill = nul then ' ' else arg.fill) size =
      padTo write (if arg.fill = nul then ' ' else arg.fill) size := by
    intro size
    unfold padTo
    split
    · rfl
    · apply emit_of_plain
      intro hmem
      have heq := (List.mem_replicate.mp hmem).2
      split at heq
      · exact absurd heq (by decide)
      · exact hfill heq.symm
  unfold formatString formatStringTo
  simp only [hout, hpad]

/-! ## What is asked for -/

/-- The characters that a text lacks to be as long as the width. -/
def missing (arg : FormatArg) (s : Text) : Nat := (arg.width - s.length).toNat

/-- A fill of `'\0'` stands for a blank. -/
def fillChar (arg : FormatArg) : Char := if arg.fill = nul then ' ' else arg.fill

/-- The text with fill characters for what is missing; in the centre the smaller half of them comes first. -/
def padded (arg : FormatArg) (s : Text) : Text :=
  match arg.align with
  | .default | .left => s ++ List.replicate (missing arg s) (fillChar arg)
  | .right | .padAfterSign => List.replicate (missing arg s) (fillChar arg) ++ s
  | .center => List.replicate (missing arg s / 2) (fillChar arg) ++ s ++
      List.replicate (missing arg s - missing arg s / 2) (fillChar arg)

/-- The text of a number, with fill behind the sign or the prefix. -/
def paddedBehind (arg : FormatArg) (prefixLen : Nat) (s : Text) : Text :=
  s.take prefixLen ++ List.replicate (missing arg s) (fillChar arg) ++ s.drop prefixLen

/-- Padding reaches the width: in `FormatString`, and in `FormatNumber` behind a sign or a prefix of `prefixLen` characters. -/
structure PadsAsAsked (arg : FormatArg) (prefixLen : Nat) (s : Slice) : Prop where
  string : formatStringTo write arg s = .ok (padded arg s.text) ∧ ((padded arg s.text).length : Int) = max arg.width s.text.length
  number : arg.align = .padAfterSign → formatNumberTo write arg prefixLen s = .ok (paddedBehind arg prefixLen s.text) ∧
    ((paddedBehind arg prefixLen s.text).length : Int) = max arg.width s.text.length

/-- Both are as long as the width, or as the text where this is longer. -/
theorem length_padded (arg : FormatArg) (s : Text) : ((padded arg s).length : Int) = max arg.width s.length := by
  unfold padded missing
  cases arg.align <;> simp only [List.length_append, List.length_replicate] <;> omega

theorem length_paddedBehind (arg : FormatArg) (prefixLen : Nat) (s : Text) :
    ((paddedBehind arg prefixLen s).length : Int) = max arg.width s.length := by
  unfold paddedBehind missing
  simp only [List.length_append, List.length_take, List.length_drop, List.length_replicate]
  omega

/-- The condition on the width and on the length of the text. -/
def Reaches (arg : FormatArg) (len : Nat) : Prop :=
  if len < arg.width then arg.width - len ≤ if arg.align = .center then 256 else 128
  else (len - arg.width) % 2 ^ 32 ≤ 2 ^ 31

instance : Decidable (Reaches arg len) := inferInstanceAs (Decidable (ite ..))

/-- The same behind a sign or a prefix, which the length as an `int` has to cover; the width is then what is left of it. -/
def ReachesBehind (arg : FormatArg) (prefixLen len : Nat) : Prop :=
  prefixLen ≤ toInt32 len ∧
    if prefixLen = 0 then Reaches arg len
    else if len < arg.width then arg.width - len ≤ 128
    else (((len - prefixLen : Nat) : Int) - max (toInt32 (arg.width - prefixLen)) 0) % 2 ^ 32 ≤ 2 ^ 31

instance {prefixLen : Nat} : Decidable (ReachesBehind arg prefixLen len) := inferInstanceAs (Decidable (_ ∧ ite ..))

/-! ## What is written -/

/-- The characters in a piece of padding. -/
def padLength (size : Int) : Nat := (min (max 0 size) 128).toNat

theorem padTo_write (size : Int) : padTo write f (max 0 size) = .ok (List.replicate (padLength size) f) := by
  have hneg : ¬max 0 size < 0 := by omega
  unfold padTo
  rw [if_neg hneg]
  rfl

/-- `padding_size`. -/
def paddingSize (width : Int) (len : Nat) : Int := toInt32 (width - toInt32 len)

theorem paddingSize_short {width : Int} (hw : width < 2 ^ 31) (h : len < width) : paddingSize width len = width - len := by
  have hlen : toInt32 len = len := toInt32_of_range (by omega) (by omega)
  unfold paddingSize
  rw [hlen, toInt32_of_range (by omega) (by omega)]

/-- A text that is not below its width is not padded, if the arithmetic of `int` says so. -/
theorem paddingSize_long {width : Int} : paddingSize width len ≤ 0 ↔ (len - width) % 2 ^ 32 ≤ 2 ^ 31 := by
  unfold paddingSize toInt32
  constructor
  · intro h
    split at h <;> split at h <;> omega
  · intro h
    split <;> split <;> omega

theorem paddingSize_range {width : Int} : -(2 ^ 31) ≤ paddingSize width len ∧ paddingSize width len < 2 ^ 31 := by
  unfold paddingSize toInt32
  split <;> omega

/-- A piece is as long as what is missing. -/
theorem padLength_eq_iff {width : Int} (hw : width < 2 ^ 31) : padLength (paddingSize width len) = (width - len).toNat ↔
    if len < width then width - len ≤ 128 else (len - width) % 2 ^ 32 ≤ 2 ^ 31 := by
  unfold padLength
  split
  next h =>
    rw [paddingSize_short hw h]
    omega
  next h =>
    rw [← paddingSize_long]
    omega

/-- Division by two, towards zero. -/
theorem tdiv_two (size : Int) : (0 ≤ size → size.tdiv 2 = size / 2) ∧ (size ≤ 0 → size.tdiv 2 = -(-size / 2)) := by
  constructor
  · intro h
    exact Int.tdiv_eq_ediv_of_nonneg h
  · intro h
    rw [← Int.tdiv_eq_ediv_of_nonneg (show 0 ≤ -size by omega), Int.neg_tdiv, Int.neg_neg]

/-- The two pieces around a text are together as long as what is missing, and then each is its half. -/
theorem padLength_center_iff {width : Int} (hw : width < 2 ^ 31) :
    (padLength ((paddingSize width len).tdiv 2) +
        padLength (paddingSize width len - (paddingSize width len).tdiv 2) = (width - len).toNat ↔
      if len < width then width - len ≤ 256 else (len - width) % 2 ^ 32 ≤ 2 ^ 31) ∧
    ((if len < width then width - len ≤ 256 else (len - width) % 2 ^ 32 ≤ 2 ^ 31) →
      padLength ((paddingSize width len).tdiv 2) = (width - len).toNat / 2 ∧
        padLength (paddingSize width len - (paddingSize width len).tdiv 2) = (width - len).toNat - (width - len).toNat / 2) := by
  obtain ⟨hpos, hneg⟩ := tdiv_two (paddingSize width len)
  unfold padLength
  split
  next h =>
    rw [paddingSize_short hw h] at hpos hneg ⊢
    omega
  next h =>
    rw [← paddingSize_long]
    omega

/-- What `FormatString` writes, by `padding_size`. -/
def written (arg : FormatArg) (size : Int) (s : Text) : Text :=
  match arg.align with
  | .default | .left => s ++ List.replicate (padLength size) (fillChar arg)
  | .right | .padAfterSign => List.replicate (padLength size) (fillChar arg) ++ s
  | .center => List.replicate (padLength (size.tdiv 2)) (fillChar arg) ++ s ++
      List.replicate (padLength (size - size.tdiv 2)) (fillChar arg)

/-- `FormatString`, with no failure: the padding is never negative, and the rest of a halved `int` does not overflow. -/
theorem formatStringTo_write (arg : FormatArg) (s : Slice) :
    formatStringTo write arg s = .ok (written arg (paddingSize arg.width s.text.length) s.text) := by
  obtain ⟨hlo, hhi⟩ := @paddingSize_range s.text.length arg.width
  obtain ⟨hpos, hneg⟩ := tdiv_two (paddingSize arg.width s.text.length)
  have hhalf : toInt32 (paddingSize arg.width s.text.length - (paddingSize arg.width s.text.length).tdiv 2) =
      paddingSize arg.width s.text.length - (paddingSize arg.width s.text.length).tdiv 2 :=
    toInt32_of_range (by omega) (by omega)
  unfold paddingSize at hhalf
  unfold formatStringTo written
  cases arg.align <;> simp only [padTo_write, hhalf] <;> rfl

/-! ## When the width is reached -/

/-- What `FormatString` writes is what is asked for, exactly under the condition. -/
theorem written_eq_iff (hw : arg.width < 2 ^ 31) (s : Text) :
    written arg (paddingSize arg.width s.length) s = padded arg s ↔ Reaches arg s.length := by
  have hone := @padLength_eq_iff s.length _ hw
  obtain ⟨htwo, hhalves⟩ := @padLength_center_iff s.length _ hw
  have hside : arg.align ≠ .center → (Reaches arg s.length ↔ padLength (paddingSize arg.width s.length) = missing arg s) := by
    intro hc
    unfold Reaches missing
    rw [if_neg hc]
    exact hone.symm
  unfold written padded
  cases ha : arg.align with
  | center =>
      simp only
      unfold Reaches missing
      rw [if_pos ha]
      constructor
      · intro h
        -- the pieces are not compared one by one, as the text may itself be of fill characters
        have hlen := congrArg List.length h
        simp only [List.length_append, List.length_replicate] at hlen
        exact htwo.mp (by omega)
      · intro h
        obtain ⟨hleft, hright⟩ := hhalves h
        rw [hleft, hright]
  | default => simp [hside (by rw [ha]; decide), List.replicate_inj]
  | left => simp [hside (by rw [ha]; decide), List.replicate_inj]
  | right => simp [hside (by rw [ha]; decide), List.replicate_inj]
  | padAfterSign => simp [hside (by rw [ha]; decide), List.replicate_inj]

theorem le_of_le_toInt32 {prefixLen : Nat} (h : prefixLen ≤ toInt32 len) : prefixLen ≤ len := by
  unfold toInt32 at h
  split at h <;> omega

/-- `FormatNumber` behind a sign or a prefix. -/
theorem formatNumberTo_write {prefixLen : Nat} {s : Slice} (hp : prefixLen ≠ 0) (hle : prefixLen ≤ toInt32 s.text.length)
    (ha : arg.align = .padAfterSign) : formatNumberTo write arg prefixLen s = .ok (s.text.take prefixLen ++
      (List.replicate (padLength (paddingSize (max (toInt32 (arg.width - prefixLen)) 0) (s.text.length - prefixLen)))
        (fillChar arg) ++ s.text.drop prefixLen)) := by
  have halign : arg.align ≠ .default := by simp [ha]
  unfold formatNumberTo
  rw [if_neg (Int.not_lt.mpr hle), if_neg halign, if_pos ⟨hp, ha⟩]
  simp only [formatStringTo_write, written, ha, List.length_drop]
  rfl

/-- `FormatNumber` with neither is `FormatString`. -/
theorem formatNumberTo_zero {output : Slice → Except Failure Text} {s : Slice} (hle : 0 ≤ toInt32 s.text.length)
    (ha : arg.align = .padAfterSign) : formatNumberTo output arg 0 s = formatStringTo output arg s := by
  have halign : arg.align ≠ .default := by simp [ha]
  have hassert : ¬toInt32 s.text.length < ((0 : Nat) : Int) := Int.not_lt.mpr hle
  unfold formatNumberTo
  rw [if_neg hassert, if_neg halign, if_neg (by simp)]

/-- The padding behind a sign or a prefix: the width that is left, for the text that is left. -/
theorem pieceBehind_iff {prefixLen : Nat} (hw : arg.width < 2 ^ 31) (hp : prefixLen ≠ 0) (hle : prefixLen ≤ toInt32 len) :
    padLength (paddingSize (max (toInt32 (arg.width - prefixLen)) 0) (len - prefixLen)) = (arg.width - len).toNat ↔
      ReachesBehind arg prefixLen len := by
  have hle' := le_of_le_toInt32 hle
  unfold ReachesBehind
  rw [and_iff_right hle, if_neg hp]
  split
  next h =>
    have hrest : toInt32 (arg.width - prefixLen) = arg.width - prefixLen := toInt32_of_range (by omega) (by omega)
    rw [hrest, paddingSize_short (by omega) (by omega)]
    unfold padLength
    omega
  next h =>
    rw [← paddingSize_long]
    unfold padLength
    omega

/-- The same for `FormatNumber` behind a sign or a prefix. -/
theorem formatNumberTo_iff {prefixLen : Nat} {s : Slice} (hw : arg.width < 2 ^ 31) (ha : arg.align = .padAfterSign) :
    formatNumberTo write arg prefixLen s = .ok (paddedBehind arg prefixLen s.text) ↔
      ReachesBehind arg prefixLen s.text.length := by
  by_cases hle : prefixLen ≤ toInt32 s.text.length
  · by_cases hp : prefixLen = 0
    · -- without a sign or a prefix the text is padded as a whole
      subst hp
      have hsame : paddedBehind arg 0 s.text = padded arg s.text := by simp [paddedBehind, padded, ha]
      unfold ReachesBehind
      rw [formatNumberTo_zero hle ha, formatStringTo_write, Except.ok.injEq, hsame, written_eq_iff hw, and_iff_right hle, if_pos rfl]
    · unfold paddedBehind
      rw [formatNumberTo_write hp hle ha, Except.ok.injEq, ← pieceBehind_iff hw hp hle, List.append_assoc,
        List.append_cancel_left_eq, List.append_cancel_right_eq, List.replicate_inj]
      simp [missing]
  · -- the assertion fails
    unfold formatNumberTo ReachesBehind
    rw [if_pos (Int.not_le.mp hle)]
    simp [hle]

/-- **When padding reaches the width.** -/
theorem padsAsAsked_iff (arg : FormatArg) (prefixLen : Nat) (s : Slice) (hw : arg.width < 2 ^ 31) :
    PadsAsAsked arg prefixLen s ↔
      Reaches arg s.text.length ∧ (arg.align = .padAfterSign → ReachesBehind arg prefixLen s.text.length) := by
  have hstring : formatStringTo write arg s = .ok (padded arg s.text) ↔ Reaches arg s.text.length := by
    rw [formatStringTo_write, Except.ok.injEq]
    exact written_eq_iff hw s.text
  constructor
  · rintro ⟨⟨h, -⟩, hnumber⟩
    exact ⟨hstring.mp h, fun ha => (formatNumberTo_iff hw ha).mp (hnumber ha).1⟩
  · rintro ⟨h, hbehind⟩
    refine ⟨⟨hstring.mpr h, length_padded arg s.text⟩, fun ha => ?_⟩
    exact ⟨(formatNumberTo_iff hw ha).mpr (hbehind ha), length_paddedBehind arg prefixLen s.text⟩

/-- `{0:=05}` for -42. -/
theorem padsAsAsked_minus :
    PadsAsAsked { FormatArg.fresh ⟨0, false⟩ with fill := '0', align := .padAfterSign, width := 5 } 1 ⟨['-', '4', '2'], []⟩ :=
  (padsAsAsked_iff _ 1 ⟨['-', '4', '2'], []⟩ (by decide)).mpr ⟨by decide, fun _ => by decide +kernel⟩

/-- A width of 200 for one character: 129 are written. -/
theorem not_padsAsAsked_wide :
    ¬PadsAsAsked { FormatArg.fresh ⟨0, false⟩ with fill := '*', align := .right, width := 200 } 0 ⟨['x'], []⟩ ∧
      formatString { FormatArg.fresh ⟨0, false⟩ with fill := '*', align := .right, width := 200 } ⟨['x'], []⟩ =
        .ok (List.replicate 128 '*' ++ ['x']) := by
  refine ⟨?_, ?_⟩
  rotate_left
  · rw [formatString_plain (by decide) (by decide), formatStringTo_write]
    decide +kernel
  rintro ⟨⟨h, -⟩, -⟩
  rw [formatStringTo_write, Except.ok.injEq] at h
  exact absurd (congrArg List.length h) (by decide +kernel)

end Format
end Snippets
