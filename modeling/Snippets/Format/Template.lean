import Snippets.Format.Model
import Mathlib.Data.List.TakeWhile

/-!
# `Format.Template` — templates of literals and `{}` placeholders

A template is made from `Segment`s: literal texts, whose braces are doubled, and placeholders `{}`. Two scanners read it:
`operator()` looks for `{`, and the output callback looks for `}` in what it is given. `sFormat_template` says that
together they write the literals as they are, and for each placeholder what its value's `Format` writes
(`formatFrom_template`, by induction on the characters and placeholders between the braces the scanner stops at).
-/

namespace Snippets
namespace Format

variable {s t a b : Text} {c : Char} {junk : Junk} {fuel : Nat}

/-! ## Searching for a character

`cut` is the search both scanners use: what stands before the first occurrence, and what stands behind it. -/

/-- A character that is not there is not found, -/
theorem cut_of_not_mem (h : c ∉ s) : cut c s = none := by
  induction s with
  | nil => rfl
  | cons x xs ih =>
      obtain ⟨hx, hxs⟩ := not_or.mp (fun hc => h (List.mem_cons.mpr hc))
      unfold cut
      rw [if_neg (Ne.symm hx), ih hxs]
      rfl

/-- and the first one that is there is. -/
theorem cut_append (h : c ∉ a) (b : Text) : cut c (a ++ c :: b) = some (a, b) := by
  induction a with
  | nil =>
      show cut c (c :: b) = _
      unfold cut
      rw [if_pos rfl]
  | cons x xs ih =>
      obtain ⟨hx, hxs⟩ := not_or.mp (fun hc => h (List.mem_cons.mpr hc))
      show cut c (x :: (xs ++ c :: b)) = _
      unfold cut
      rw [if_neg (Ne.symm hx), ih hxs]
      rfl

/-- One of the two it is. -/
theorem cut_cases (c : Char) (s : Text) : (c ∉ s ∧ cut c s = none) ∨
    ∃ a b, s = a ++ c :: b ∧ c ∉ a ∧ cut c s = some (a, b) := by
  by_cases hc : c ∈ s
  · right
    obtain ⟨a, b, rfl, ha⟩ := List.eq_append_cons_of_mem hc
    exact ⟨a, b, rfl, ha, cut_append ha b⟩
  · exact Or.inl ⟨hc, cut_of_not_mem hc⟩

/-! ## Doubled braces

The output callback turns a doubled closing brace into one. An opening brace never reaches it, since the template
is split there. -/

/-- A literal in a template. -/
def escape (t : Text) : Text := t.flatMap fun c => if c = lbrace ∨ c = rbrace then [c, c] else [c]

/-- Doubling is done piece by piece, -/
theorem escape_append (a b : Text) : escape (a ++ b) = escape a ++ escape b := List.flatMap_append

/-- character by character, -/
theorem escape_cons (c : Char) (t : Text) : escape (c :: t) = escape [c] ++ escape t := escape_append [c] t

/-- of closing -/
theorem escape_rbrace : escape [rbrace] = [rbrace, rbrace] := by decide

/-- and opening braces. -/
theorem escape_lbrace : escape [lbrace] = [lbrace, lbrace] := by decide

/-- It adds no character that was not there. -/
theorem mem_escape : c ∈ escape t ↔ c ∈ t := by
  unfold escape
  rw [List.mem_flatMap]
  constructor
  · rintro ⟨x, hx, hc⟩
    split at hc
    · simp only [List.mem_cons, List.not_mem_nil, or_false, or_self] at hc
      rwa [hc]
    · rw [List.mem_singleton] at hc
      rwa [hc]
  · intro hc
    refine ⟨c, hc, ?_⟩
    split <;> simp

/-- Without braces there is nothing to double. -/
theorem escape_of_plain (hl : lbrace ∉ t) (hr : rbrace ∉ t) : escape t = t := by
  induction t with
  | nil => rfl
  | cons x xs ih =>
      obtain ⟨hlx, hlxs⟩ := not_or.mp (fun hc => hl (List.mem_cons.mpr hc))
      obtain ⟨hrx, hrxs⟩ := not_or.mp (fun hc => hr (List.mem_cons.mpr hc))
      rw [escape_cons, ih hlxs hrxs]
      have hx : escape [x] = [x] := by
        unfold escape
        rw [List.flatMap_singleton, if_neg]
        rintro (rfl | rfl)
        · exact hlx rfl
        · exact hrx rfl
      rw [hx]
      rfl

/-- A text without closing braces is written as it is. -/
theorem emitFrom_of_plain {beyond : Text} (h : rbrace ∉ s) (hfuel : 0 < fuel) : emitFrom fuel s beyond = .ok s := by
  obtain ⟨fuel, rfl⟩ : ∃ n, fuel = n + 1 := ⟨fuel - 1, by omega⟩
  unfold emitFrom
  by_cases hs : s = []
  · rw [if_pos hs, hs]
  · rw [if_neg hs, cut_of_not_mem h]

/-- The same for the whole callback. -/
theorem emit_of_plain {beyond : Text} (h : rbrace ∉ s) : emit ⟨s, beyond⟩ = .ok s :=
  emitFrom_of_plain h (Nat.succ_pos _)

/-- One round of the callback at a doubled `}`. -/
theorem emitFrom_double {beyond : Text} (h : rbrace ∉ a) :
    emitFrom (fuel + 1) (a ++ rbrace :: rbrace :: b) beyond =
      (emitFrom fuel b beyond).map fun out => a ++ rbrace :: out := by
  have hne : a ++ rbrace :: rbrace :: b ≠ [] := by simp
  rw [emitFrom, if_neg hne, cut_append h]
  simp

/-- **The callback undoes the doubling** of the braces it looks for. -/
theorem emitFrom_escape {beyond : Text} (hl : lbrace ∉ t) (hfuel : t.length < fuel) :
    emitFrom fuel (escape t) beyond = .ok t := by
  induction fuel generalizing t with
  | zero => exact absurd hfuel (Nat.not_lt_zero _)
  | succ fuel ih =>
      rcases cut_cases rbrace t with ⟨hr, -⟩ | ⟨a, b, rfl, ha, -⟩
      · rw [escape_of_plain hl hr]
        exact emitFrom_of_plain hr (Nat.succ_pos _)
      · have hla : lbrace ∉ a := fun h => hl (List.mem_append_left _ h)
        have hlb : lbrace ∉ b := fun h => hl (List.mem_append_right _ (List.mem_cons_of_mem _ h))
        rw [List.length_append, List.length_cons] at hfuel
        rw [escape_append, escape_cons, escape_rbrace, escape_of_plain hla ha]
        show emitFrom (fuel + 1) (a ++ rbrace :: rbrace :: escape b) beyond = _
        rw [emitFrom_double ha, ih hlb (by omega)]
        rfl

/-- Doubling makes nothing shorter. -/
theorem length_le_escape (t : Text) : t.length ≤ (escape t).length := by
  induction t with
  | nil => exact Nat.le_refl _
  | cons x xs ih =>
      have hx : 0 < (escape [x]).length := by
        unfold escape
        rw [List.flatMap_singleton]
        split <;> simp
      rw [escape_cons, List.length_append, List.length_cons]
      omega

/-- What was doubled is written once. -/
theorem emit_escape (hl : lbrace ∉ t) (beyond : Text) : emit ⟨escape t, beyond⟩ = .ok t :=
  emitFrom_escape hl (Nat.lt_succ_of_le (length_le_escape t))

/-! ## Segments

A template as the list of its parts, with what each prints and the argument it takes. -/

/-- A part of a template. -/
inductive Segment (α : Type)
  | literal (t : Text)
  | placeholder (v : α)

namespace Segment

variable {α : Type}

/-- How a segment stands in the template. -/
def template : Segment α → Text
  | literal t => escape t
  | placeholder _ => [lbrace, rbrace]

/-- The argument of a segment. -/
def argument : Segment α → Option α
  | literal _ => none
  | placeholder v => some v

/-- The same part with another argument, -/
def map {β : Type} (f : α → β) : Segment α → Segment β
  | literal t => literal t
  | placeholder v => placeholder (f v)

/-- What a segment stands for, when `render` is what its argument stands for. -/
def text (render : α → Text) : Segment α → Text
  | literal t => t
  | placeholder v => render v

end Segment

/-- The template that segments make up. -/
def template {α : Type} (segs : List (Segment α)) : Text := segs.flatMap Segment.template

/-- and the arguments of all placeholders in order. -/
def arguments {α : Type} (segs : List (Segment α)) : List α := segs.filterMap Segment.argument

section Map

variable {α β : Type} (f : α → β) (segs : List (Segment α))

/-- The template does not depend on the arguments, -/
theorem template_map : template (segs.map (Segment.map f)) = template segs := by
  unfold template
  rw [List.flatMap_map]
  apply List.flatMap_congr
  intro seg _
  cases seg <;> rfl

/-- the arguments are mapped, -/
theorem arguments_map : arguments (segs.map (Segment.map f)) = (arguments segs).map f := by
  unfold arguments
  rw [List.filterMap_map, List.map_filterMap]
  apply List.filterMap_congr
  intro seg _
  cases seg <;> rfl

/-- and so is the text. -/
theorem text_map (render : β → Text) : (segs.map (Segment.map f)).flatMap (Segment.text render) =
    segs.flatMap (Segment.text fun v => render (f v)) := by
  rw [List.flatMap_map]
  apply List.flatMap_congr
  intro seg _
  cases seg <;> rfl

/-- The literals are the same. -/
theorem literal_mem_map {t : Text} (h : .literal t ∈ segs.map (Segment.map f)) : .literal t ∈ segs := by
  obtain ⟨seg, hseg, heq⟩ := List.mem_map.mp h
  cases seg with
  | literal u =>
      cases heq
      exact hseg
  | placeholder v => cases heq

end Map

/-- What the segments write one after another, up to the first one that fails. -/
def writeAll (junk : Junk) : List (Segment Value) → Except Failure Text
  | [] => .ok []
  | .literal t :: segs => (writeAll junk segs).map (t ++ ·)
  | .placeholder v :: segs => do
      let out ← v.format (.fresh junk)
      let rest ← writeAll junk segs
      return out ++ rest

variable {values : List Value} {segs : List (Segment Value)} {st : Progress}

/-- The argument of an index, formatted. -/
theorem formatAt_eq (failure : Failure) (i : Nat) (arg : FormatArg) {v : Value} (h : values[i]? = some v) :
    formatAt failure values i arg = v.format arg := by
  induction values generalizing i with
  | nil => simp at h
  | cons w vs ih =>
      cases i with
      | zero =>
          rw [List.getElem?_cons_zero] at h
          obtain rfl := Option.some.inj h
          rfl
      | succ i =>
          rw [List.getElem?_cons_succ] at h
          exact ih i h

/-- `{}` takes the next argument. -/
theorem placeholder_empty {v : Value} (hv : values[st.argIndex]? = some v) (hst : st.hasExplicitIndex = false) :
    placeholder false values junk [] st =
      (v.format (.fresh junk)).map fun out => (out, { st with argIndex := st.argIndex + 1, hasImplicitIndex := true }) := by
  have hinit : FormatArg.init junk [] = .ok (.fresh junk) := rfl
  have hsplit : (FormatArg.fresh junk).splitKey = .ok ([], .fresh junk) := rfl
  have hresolve : resolve false (.fresh junk) [] st =
      .ok (st.argIndex, .fresh junk, { st with argIndex := st.argIndex + 1, hasImplicitIndex := true }) := rfl
  unfold placeholder
  simp only [hinit, hsplit, hresolve, bind, Except.bind, hst, Bool.false_eq_true, false_and, if_false]
  rw [formatAt_eq _ _ _ hv]

/-- The part of a template before the next `{`: a literal without that brace. -/
theorem split_segments (junk : Junk) (segs : List (Segment Value)) : ∃ t rest, lbrace ∉ t ∧
    template segs = escape t ++ template rest ∧ arguments segs = arguments rest ∧
    writeAll junk segs = (writeAll junk rest).map (t ++ ·) ∧ (template rest).length ≤ (template segs).length ∧
    (rest = [] ∨ (∃ r rest', rest = .literal (lbrace :: r) :: rest') ∨ ∃ v rest', rest = .placeholder v :: rest') := by
  -- by induction on the parts: literals up to the first brace that the scanner stops at
  induction segs with
  | nil => exact ⟨[], [], by simp, rfl, rfl, rfl, Nat.le_refl _, Or.inl rfl⟩
  | cons seg segs ih =>
      cases seg with
      | placeholder v =>
          refine ⟨[], .placeholder v :: segs, by simp, rfl, rfl, ?_, Nat.le_refl _, Or.inr (Or.inr ⟨v, segs, rfl⟩)⟩
          cases writeAll junk (.placeholder v :: segs) <;> rfl
      | literal u =>
          rcases cut_cases lbrace u with ⟨hu, -⟩ | ⟨a, b, rfl, ha, -⟩
          · -- the literal goes on in the next segment
            obtain ⟨t, rest, ht, htemplate, hargs, hwrite, hlen, hrest⟩ := ih
            refine ⟨u ++ t, rest, ?_, ?_, hargs, ?_, ?_, hrest⟩
            · rw [List.mem_append, not_or]
              exact ⟨hu, ht⟩
            · show escape u ++ template segs = _
              rw [htemplate, escape_append, List.append_assoc]
            · show (writeAll junk segs).map (u ++ ·) = _
              rw [hwrite]
              cases writeAll junk rest with
              | error e => rfl
              | ok out => simp [Except.map]
            · show (template rest).length ≤ (escape u ++ template segs).length
              rw [List.length_append]
              omega
          · refine ⟨a, .literal (lbrace :: b) :: segs, ha, ?_, rfl, ?_, ?_, Or.inr (Or.inl ⟨b, segs, rfl⟩)⟩
            · show escape (a ++ lbrace :: b) ++ template segs = escape a ++ (escape (lbrace :: b) ++ template segs)
              rw [escape_append, List.append_assoc]
            · show (writeAll junk segs).map (a ++ lbrace :: b ++ ·) = ((writeAll junk segs).map (lbrace :: b ++ ·)).map (a ++ ·)
              cases writeAll junk segs with
              | error e => rfl
              | ok out => simp [Except.map]
            · show (escape (lbrace :: b) ++ template segs).length ≤ (escape (a ++ lbrace :: b) ++ template segs).length
              rw [escape_append, List.length_append, List.length_append, List.length_append]
              omega

/-- The loop at the first `{` of the template. -/
theorem formatFrom_brace {rest : Text} (ht : lbrace ∉ t) :
    formatFrom false values junk (fuel + 1) (escape t ++ lbrace :: rest) st =
      if rest.head? = some lbrace then
        (formatFrom false values junk fuel rest.tail st).map fun tail => t ++ [lbrace] ++ tail
      else
        match cut rbrace rest with
        | none => .error (.badFormat "unmatched `\x7d'")
        | some (spec, rest) => do
            let (text, st) ← placeholder false values junk spec st
            let tail ← formatFrom false values junk fuel rest st
            return t ++ text ++ tail := by
  have hne : escape t ++ lbrace :: rest ≠ [] := by simp
  have hcut : cut lbrace (escape t ++ lbrace :: rest) = some (escape t, rest) :=
    cut_append (fun h => ht (mem_escape.mp h)) rest
  have hbrace : emit ⟨[lbrace], rest ++ [nul]⟩ = .ok [lbrace] := emit_of_plain (by decide)
  rw [formatFrom, if_neg hne, hcut]
  simp only [emit_escape ht, bind, Except.bind, hbrace, pure, Except.pure]
  split
  · cases formatFrom false values junk fuel rest.tail st <;> rfl
  · rfl

/-- **The scanner at work**: from a place in the template where a segment begins, it writes the segments. -/
theorem formatFrom_template (hargs : arguments segs = values.drop st.argIndex) (hst : st.hasExplicitIndex = false)
    (hfuel : (template segs).length < fuel) :
    formatFrom false values junk fuel (template segs) st = writeAll junk segs := by
  -- by induction on the rounds, each of which ends at a doubled brace or a placeholder
  induction fuel generalizing segs st with
  | zero => exact absurd hfuel (Nat.not_lt_zero _)
  | succ fuel ih =>
      obtain ⟨t, rest, ht, htemplate, hargs', hwrite, -, hrest⟩ := split_segments junk segs
      rw [htemplate, List.length_append] at hfuel
      rw [htemplate, hwrite]
      rcases hrest with rfl | ⟨r, rest, rfl⟩ | ⟨v, rest, rfl⟩
      · -- no brace is left
        show formatFrom false values junk (fuel + 1) (escape t ++ []) st = .ok (t ++ [])
        rw [List.append_nil, List.append_nil, formatFrom]
        by_cases hnil : escape t = []
        · have htnil : t = [] := List.eq_nil_of_length_eq_zero (by have := length_le_escape t; rw [hnil] at this; simpa using this)
          rw [if_pos hnil, htnil]
        · rw [if_neg hnil, cut_of_not_mem (fun h => ht (mem_escape.mp h))]
          exact emit_escape ht [nul]
      · -- a doubled brace
        have hsplit : template (.literal (lbrace :: r) :: rest) = lbrace :: lbrace :: template (.literal r :: rest) := by
          show escape (lbrace :: r) ++ template rest = _
          rw [escape_cons, escape_lbrace]
          rfl
        rw [hsplit] at hfuel ⊢
        have hargs'' : arguments (.literal r :: rest) = values.drop st.argIndex := hargs'.symm.trans hargs
        have hlen : (template (.literal r :: rest)).length < fuel := by
          simp only [List.length_cons] at hfuel
          omega
        rw [formatFrom_brace ht]
        simp only [List.head?_cons, if_true, List.tail_cons]
        rw [ih hargs'' hst hlen]
        show ((writeAll junk rest).map (r ++ ·)).map _ = ((writeAll junk rest).map (lbrace :: r ++ ·)).map _
        cases writeAll junk rest with
        | error e => rfl
        | ok out => simp [Except.map]
      · -- a placeholder
        have hsplit : template (.placeholder v :: rest) = lbrace :: rbrace :: template rest := rfl
        rw [hsplit] at hfuel ⊢
        have hdrop : v :: arguments rest = values.drop st.argIndex := hargs'.symm.trans hargs
        have hv : values[st.argIndex]? = some v := by
          have hhead := congrArg List.head? hdrop
          rw [List.head?_drop] at hhead
          exact hhead.symm
        have hnext : arguments rest = values.drop (st.argIndex + 1) := by
          have htail := congrArg List.tail hdrop
          rw [List.tail_drop] at htail
          exact htail
        have hlen : (template rest).length < fuel := by
          simp only [List.length_cons] at hfuel
          omega
        have hcut : cut rbrace (rbrace :: template rest) = some ([], template rest) :=
          cut_append List.not_mem_nil _
        have hhead : ¬(rbrace :: template rest).head? = some lbrace := by
          rw [List.head?_cons]
          decide
        have hloop : formatFrom false values junk fuel (template rest)
            { st with argIndex := st.argIndex + 1, hasImplicitIndex := true } = writeAll junk rest := ih hnext hst hlen
        rw [formatFrom_brace ht, if_neg hhead, hcut]
        simp only [placeholder_empty hv hst, bind]
        show _ = (writeAll junk (.placeholder v :: rest)).map (t ++ ·)
        simp only [writeAll, bind]
        cases v.format (.fresh junk) with
        | error e => rfl
        | ok out =>
            simp only [Except.bind, Except.map]
            rw [hloop]
            cases writeAll junk rest with
            | error e => rfl
            | ok tail => simp [pure, Except.pure]

/-- **`sFormat` of a template of segments** writes them one after another. -/
theorem sFormat_template (junk : Junk) (segs : List (Segment Value)) (hnul : nul ∉ template segs) :
    sFormat junk (template segs) (arguments segs) = writeAll junk segs := by
  have htake : (template segs).takeWhile (· ≠ nul) = template segs := by
    rw [List.takeWhile_eq_self_iff]
    intro c hc
    rw [decide_eq_true_eq]
    rintro rfl
    exact hnul hc
  unfold sFormat formatter
  rw [htake]
  exact formatFrom_template rfl rfl (Nat.lt_succ_self _)

/-- Where every value is written, the segments are. -/
theorem writeAll_ok {render : Value → Text} (h : ∀ v ∈ arguments segs, v.format (.fresh junk) = .ok (render v)) :
    writeAll junk segs = .ok (segs.flatMap (Segment.text render)) := by
  induction segs with
  | nil => rfl
  | cons seg segs ih =>
      cases seg with
      | literal t =>
          rw [writeAll, ih h]
          rfl
      | placeholder v =>
          have hv := h v List.mem_cons_self
          have hrest : ∀ w ∈ arguments segs, w.format (.fresh junk) = .ok (render w) := fun w hw =>
            h w (List.mem_cons_of_mem _ hw)
          rw [writeAll, hv, ih hrest]
          rfl

/-- A template has no zero byte when its literals have none. -/
theorem nul_not_mem_template (h : ∀ t, .literal t ∈ segs → nul ∉ t) : nul ∉ template segs := by
  unfold template
  rw [List.mem_flatMap]
  rintro ⟨seg, hseg, hmem⟩
  cases seg with
  | literal t => exact h t hseg (mem_escape.mp hmem)
  | placeholder v =>
      have hbraces : nul ∉ [lbrace, rbrace] := by decide
      exact hbraces hmem

end Format
end Snippets
