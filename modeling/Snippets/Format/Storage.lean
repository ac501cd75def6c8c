import Snippets.Format.Rendering

/-!
# `Format.Storage` — the members of `FormatArg` that nothing sets

Neither the constructor nor an initialiser sets `next_int_key` and `base_prefix`. The first is only read behind
`SetNextIntKey`; the second is read by the conversions to hexadecimal, octal and binary, and `InitSlow` sets it only at a
`#`. So a run of `Format` on integers and strings is independent of what the storage of its `FormatArg`s held exactly when
no placeholder that it reaches converts an integer to one of these bases without a `#` (`independent_iff`).
-/

namespace Snippets
namespace Format

open Lib

variable {junk : Junk} {junks : Nat → Junk} {arg : FormatArg} {fuel : Nat} {s spec : Text} {st : Progress}

/-- A value of the members that are not set. -/
def Junk.zero : Junk := ⟨0, false⟩

/-! ## A run and the values it formats

A run once more, with what storage each `FormatArg` finds as a parameter, and with the calls it makes written
down. -/

/-- An argument: an integer or a string. -/
inductive Scalar
  | integer (n : Integer)
  | string (s : Slice)

/-- The value that is formatted. -/
def Scalar.value : Scalar → Value
  | .integer n => .integer n
  | .string s => .string s

/-- One round of `Formatter::operator()`, up to the placeholder it comes to. -/
inductive Round
  | done (result : Except Failure Text)
  | brace (out rest : Text)
  | placeholder (out spec rest : Text)

/-- One round of the loop over the template: up to the next brace. -/
def scan (s : Text) : Round :=
  if s = [] then .done (.ok [])
  else
    match cut lbrace s with
    | none => .done (emit (.ofString s))
    | some (before, rest) =>
        match emit ⟨before, lbrace :: rest ++ [nul]⟩ with
        | .error e => .done (.error e)
        | .ok out =>
            if rest.head? = some lbrace then
              match emit ⟨[lbrace], rest ++ [nul]⟩ with
              | .error e => .done (.error e)
              | .ok brace => .brace (out ++ brace) rest.tail
            else
              match cut rbrace rest with
              | none => .done (.error (.badFormat "unmatched `\x7d'"))
              | some (spec, rest) => .placeholder out spec rest

/-- The `FormatArg` of a placeholder, and the argument that it is for. -/
def select (values : List Scalar) (junk : Junk) (spec : Text) (st : Progress) :
    Except Failure (FormatArg × Scalar × Progress) := do
  let arg ← FormatArg.init junk spec
  let (piece, arg) ← arg.splitKey
  let (index, arg, st) ← resolve false arg piece st
  if st.hasExplicitIndex ∧ st.hasImplicitIndex then .error (.badFormat "Found both explicit and implicit index")
  else
    match values[index]? with
    | none => .error (.badFormat "Argument index out of range")
    | some v => .ok (arg, v, st)

/-- A call of `FormatValue::Format`, and the specification that its `FormatArg` comes from. -/
structure Call where
  spec : Text
  arg : FormatArg
  value : Scalar

/-- The loop of `Formatter::operator()`, with a value of its own for the members that are not set in every `FormatArg`:
    the calls that are made, and the result. -/
def traced (values : List Scalar) : Nat → (Nat → Junk) → Text → Progress → List Call × Except Failure Text
  | 0, _, _, _ => ([], .error .undefined)
  | fuel + 1, junks, s, st =>
      match scan s with
      | .done result => ([], result)
      | .brace out rest =>
          let run := traced values fuel junks rest st
          (run.1, run.2.map (out ++ ·))
      | .placeholder out spec rest =>
          match select values (junks 0) spec st with
          | .error e => ([], .error e)
          | .ok (arg, v, st) =>
              match v.value.format arg with
              | .error e => ([⟨spec, arg, v⟩], .error e)
              | .ok text =>
                  let run := traced values fuel (fun i => junks (i + 1)) rest st
                  (⟨spec, arg, v⟩ :: run.1, run.2.map (out ++ text ++ ·))

/-- `Format`. -/
def runFormat (junks : Nat → Junk) (template : Text) (values : List Scalar) : List Call × Except Failure Text :=
  let str := template.takeWhile (· ≠ nul)
  traced values (str.length + 1) junks str ⟨false, false, 0⟩

/-- The loop of the source is this round, and then the rest of the template. -/
theorem formatFrom_scan (containerMode : Bool) (values : List Value) : formatFrom containerMode values junk (fuel + 1) s st =
    match scan s with
    | .done result => result
    | .brace out rest => (formatFrom containerMode values junk fuel rest st).map (out ++ ·)
    | .placeholder out spec rest => do
        let (text, st) ← placeholder containerMode values junk spec st
        let tail ← formatFrom containerMode values junk fuel rest st
        return out ++ text ++ tail := by
  rw [formatFrom, scan]
  by_cases hs : s = []
  · rw [if_pos hs, if_pos hs]
  · rw [if_neg hs, if_neg hs]
    cases cut lbrace s with
    | none => rfl
    | some p =>
        obtain ⟨before, rest⟩ := p
        simp only
        cases emit ⟨before, lbrace :: rest ++ [nul]⟩ with
        | error e => rfl
        | ok out =>
            simp only [bind, Except.bind]
            by_cases hbrace : rest.head? = some lbrace
            · rw [if_pos hbrace, if_pos hbrace]
              cases emit ⟨[lbrace], rest ++ [nul]⟩ with
              | error e => rfl
              | ok brace =>
                  simp only
                  cases formatFrom containerMode values junk fuel rest.tail st <;> rfl
            · rw [if_neg hbrace, if_neg hbrace]
              cases cut rbrace rest with
              | none => rfl
              | some q => rfl

/-- The argument of an index, or the failure when there is none. -/
theorem formatAt_map (failure : Failure) (values : List Scalar) (index : Nat) (arg : FormatArg) :
    formatAt failure (values.map Scalar.value) index arg =
      match values[index]? with
      | none => .error failure
      | some v => v.value.format arg := by
  induction values generalizing index with
  | nil => simp [formatAt]
  | cons v values ih =>
      cases index with
      | zero => simp [formatAt]
      | succ index => simpa [formatAt] using ih index

/-- A placeholder selects its argument and then formats it. -/
theorem placeholder_select (values : List Scalar) : placeholder false (values.map Scalar.value) junk spec st = (do
    let (arg, v, st) ← select values junk spec st
    (v.value.format arg).map fun out => (out, st)) := by
  unfold placeholder select
  simp only [formatAt_map, bind, Except.bind]
  cases FormatArg.init junk spec with
  | error e => rfl
  | ok arg =>
      simp only
      cases arg.splitKey with
      | error e => rfl
      | ok p =>
          simp only
          cases resolve false p.2 p.1 st with
          | error e => rfl
          | ok r =>
              simp only
              split
              · rfl
              · cases values[r.1]? <;> rfl

/-- With one value for all of them, this is `sFormat`. -/
theorem traced_const (values : List Scalar) : (traced values fuel (fun _ => junk) s st).2 =
    formatFrom false (values.map Scalar.value) junk fuel s st := by
  -- by induction on the rounds
  induction fuel generalizing s st with
  | zero => rfl
  | succ fuel ih =>
      rw [formatFrom_scan, traced]
      cases scan s with
      | done result => rfl
      | brace out rest =>
          simp only
          rw [ih]
      | placeholder out spec rest =>
          simp only [placeholder_select, bind, Except.bind]
          cases select values junk spec st with
          | error e => rfl
          | ok r =>
              obtain ⟨arg, v, st⟩ := r
              simp only
              cases v.value.format arg with
              | error e => rfl
              | ok text =>
                  simp only [Except.map, ih]
                  cases formatFrom false (values.map Scalar.value) junk fuel rest st <;> rfl

/-- With one storage for all, the run is `Format`. -/
theorem runFormat_const (template : Text) (values : List Scalar) :
    (runFormat (fun _ => junk) template values).2 = sFormat junk template (values.map Scalar.value) := traced_const values

/-! ## What the storage reaches

Each part of `InitSlow` commutes with putting other storage into the argument: it sets members of its own and
reads none of the two. -/

namespace FormatArg

/-- The same with other values in the members that are not set; a base prefix that a `#` asks for stays. -/
def withJunk (arg : FormatArg) (junk : Junk) : FormatArg :=
  { arg with nextIntKey := junk.nextIntKey, basePrefix := arg.basePrefix || junk.basePrefix }

/-- Every stage of `InitSlow` leaves the storage as it is, or sets the base prefix. -/
theorem initAlign_withJunk (p : Text) : (arg.withJunk junk).initAlign p =
    ((arg.initAlign p).1.withJunk junk, (arg.initAlign p).2) := by
  match p with
  | [] => rfl
  | [c] =>
      simp only [initAlign]
      cases formatAlign c <;> rfl
  | c :: c' :: p =>
      simp only [initAlign]
      cases formatAlign c' with
      | some a => rfl
      | none =>
          simp only
          cases formatAlign c <;> rfl

/-- The sign, -/
theorem initSign_withJunk (p : Text) : (arg.withJunk junk).initSign p =
    ((arg.initSign p).1.withJunk junk, (arg.initSign p).2) := by
  cases p with
  | nil => rfl
  | cons c p =>
      simp only [initSign]
      cases formatSign c <;> rfl

/-- the prefix, -/
theorem initPrefix_withJunk (p : Text) : (arg.withJunk junk).initPrefix p =
    ((arg.initPrefix p).1.withJunk junk, (arg.initPrefix p).2) := by
  cases p with
  | nil => rfl
  | cons c p =>
      simp only [initPrefix]
      split <;> rfl

/-- the zeros, -/
theorem initZero_withJunk (p : Text) : (arg.withJunk junk).initZero p =
    (arg.initZero p).map fun r => (r.1.withJunk junk, r.2) := by
  cases p with
  | nil => rfl
  | cons c p =>
      have halign : (arg.withJunk junk).align = arg.align := rfl
      simp only [initZero, halign]
      split
      · split <;> rfl
      · rfl

/-- the width, -/
theorem initWidth_withJunk (p : Text) : (arg.withJunk junk).initWidth p =
    (arg.initWidth p).map fun r => (r.1.withJunk junk, r.2) := by
  unfold initWidth
  split
  · rfl
  · cases lexicalCast (p.takeWhile isDigit) <;> rfl

/-- the separator, -/
theorem initSeparator_withJunk (p : Text) : (arg.withJunk junk).initSeparator p =
    ((arg.initSeparator p).1.withJunk junk, (arg.initSeparator p).2) := by
  cases p with
  | nil => rfl
  | cons c p =>
      simp only [initSeparator]
      split <;> rfl

/-- the dot behind, -/
theorem initTrailingDot_withJunk (p : Text) : (arg.withJunk junk).initTrailingDot p =
    ((arg.initTrailingDot p).1.withJunk junk, (arg.initTrailingDot p).2) := by
  cases p with
  | nil => rfl
  | cons c p =>
      simp only [initTrailingDot]
      split <;> rfl

/-- the precision, -/
theorem initPrecision_withJunk (p : Text) : (arg.withJunk junk).initPrecision p =
    (arg.initPrecision p).map fun r => (r.1.withJunk junk, r.2) := by
  cases p with
  | nil => rfl
  | cons c p =>
      simp only [initPrecision]
      split
      · split
        · rfl
        · cases lexicalCast (p.takeWhile isDigit) with
          | error e => rfl
          | ok n =>
              have hrest : ∀ arg : FormatArg, (({ arg.withJunk junk with precision := n } : FormatArg)) =
                  ({ arg with precision := n } : FormatArg).withJunk junk := fun _ => rfl
              simp only [Except.map, hrest, initTrailingDot_withJunk]
      · rfl

/-- and the letter. -/
theorem initPresentation_withJunk (p : Text) : (arg.withJunk junk).initPresentation p =
    (arg.initPresentation p).map (·.withJunk junk) := by
  match p with
  | [] => rfl
  | [_] => rfl
  | _ :: _ :: _ => rfl

/-- What follows a stage commutes with other storage, if it does behind every result of the stage. -/
theorem bind_withJunk {x : Except Failure (FormatArg × Text)} {f : FormatArg × Text → Except Failure FormatArg}
    (h : ∀ r, f (r.1.withJunk junk, r.2) = (f r).map (·.withJunk junk)) :
    ((x.map fun r => (r.1.withJunk junk, r.2)) >>= f) = (x >>= f).map (·.withJunk junk) := by
  cases x with
  | error e => rfl
  | ok r => exact h r

/-- So does the whole of it, at any specification, -/
theorem initSlow_withJunk (str : Text) : (arg.withJunk junk).initSlow str = (arg.initSlow str).map (·.withJunk junk) := by
  unfold initSlow
  cases cut ':' str with
  | none => rfl
  | some q =>
      obtain ⟨key, p⟩ := q
      -- the stages up to the first that may throw, and then one at a time
      have hkey : ({ arg.withJunk junk with key := key } : FormatArg) = ({ arg with key := key } : FormatArg).withJunk junk := rfl
      simp only [hkey, initAlign_withJunk, initSign_withJunk, initPrefix_withJunk, initZero_withJunk]
      apply bind_withJunk
      intro r
      simp only [initWidth_withJunk]
      apply bind_withJunk
      intro r
      simp only [initSeparator_withJunk, initPrecision_withJunk]
      apply bind_withJunk
      intro r
      exact initPresentation_withJunk r.2

/-- and so the construction of the argument. -/
theorem init_withJunk (junk : Junk) (spec : Text) : init junk spec = (init .zero spec).map (·.withJunk junk) := by
  have hfresh : fresh junk = (fresh .zero).withJunk junk := rfl
  unfold init
  rw [hfresh]
  split
  · rfl
  · exact initSlow_withJunk spec

/-- Splitting the key reads neither member, -/
theorem splitKey_withJunk : (arg.withJunk junk).splitKey = arg.splitKey.map fun r => (r.1, r.2.withJunk junk) := by
  have hmode : (arg.withJunk junk).nextKeyMode = arg.nextKeyMode := rfl
  have hkey : (arg.withJunk junk).key = arg.key := rfl
  unfold splitKey
  rw [hmode, hkey]
  split
  · rfl
  · split
    · rfl
    · split
      · cases cut '[' arg.key <;> rfl
      · cases cut '.' arg.key <;> rfl

end FormatArg

/-- and the index that is looked up does not depend on them. -/
theorem resolve_withJunk (piece : Text) : resolve false (arg.withJunk junk) piece st =
    (resolve false arg piece st).map fun r => (r.1, r.2.1.withJunk junk, r.2.2) := by
  unfold resolve
  rw [if_neg Bool.false_ne_true, if_neg Bool.false_ne_true]
  split
  · rfl
  · simp only [bind, Except.bind]
    cases stoul piece with
    | error e => rfl
    | ok r =>
        simp only
        split <;> rfl

/-- A placeholder's `FormatArg` has the storage it was made in, and is otherwise the same in every run. -/
theorem select_withJunk (values : List Scalar) (junk : Junk) (spec : Text) (st : Progress) :
    select values junk spec st = (select values .zero spec st).map fun r => (r.1.withJunk junk, r.2) := by
  unfold select
  rw [FormatArg.init_withJunk junk]
  simp only [bind, Except.bind]
  cases FormatArg.init .zero spec with
  | error e => rfl
  | ok arg =>
      simp only [Except.map, FormatArg.splitKey_withJunk]
      cases arg.splitKey with
      | error e => rfl
      | ok p =>
          simp only [Except.map, resolve_withJunk]
          cases resolve false p.2 p.1 st with
          | error e => rfl
          | ok r =>
              simp only
              split
              · rfl
              · cases values[r.1]? <;> rfl

/-! ## What reads it

The conversions to hexadecimal, octal and binary read `base_prefix`. They are the only ones, and a `#` has set it
by then. -/

/-- The presentations whose conversions read `base_prefix`. -/
def markPresentations : Text := ['x', 'X', 'o', 'O', 'b', 'B']

/-- The specification has a `#`. -/
def HasHash (spec : Text) : Prop := ∃ arg, FormatArg.init .zero spec = .ok arg ∧ arg.basePrefix = true

/-- The call converts an integer to one of the bases that have a mark, without a `#`. -/
def Call.Exposed (call : Call) : Prop :=
  ¬HasHash call.spec ∧ (∃ n, call.value = .integer n) ∧ call.arg.presentation ∈ markPresentations

/-- The call puts no mark of a base in front of an integer's digits. -/
def Call.Unmarked (call : Call) : Prop :=
  ∀ n p prefixLen, call.value = .integer n → integerDigits call.arg n = .ok (p, prefixLen) → prefixLen = 0

/-- Formatting is independent of what the storage of the `FormatArg`s held. -/
structure Independent (template : Text) (values : List Scalar) : Prop where
  same : ∀ junks junks', (runFormat junks template values).2 = (runFormat junks' template values).2
  unmarked : ∀ junks, ∀ call ∈ (runFormat junks template values).1, ¬HasHash call.spec → call.Unmarked

/-- Digits of another letter do not depend on the storage, nor do those after a `#`. -/
theorem integerDigits_withJunk (n : Integer) (h : arg.presentation ∈ markPresentations → arg.basePrefix = true) :
    integerDigits (arg.withJunk junk) n = integerDigits arg n := by
  by_cases hmark : arg.presentation ∈ markPresentations
  · -- the base prefix is asked for, whatever the storage held
    have hset := h hmark
    have hsame : (arg.withJunk junk).basePrefix = arg.basePrefix := by
      show (arg.basePrefix || junk.basePrefix) = arg.basePrefix
      rw [hset]
      rfl
    have hpresentation : (arg.withJunk junk).presentation = arg.presentation := rfl
    have hmask : ∀ k repr mark, uintToMask (arg.withJunk junk) k repr mark n = uintToMask arg k repr mark n := by
      intro k repr mark
      unfold uintToMask
      rw [hsame]
    have hdec : uintToDec (arg.withJunk junk) n = uintToDec arg n := rfl
    unfold integerDigits uintToHex uintToOct uintToBin
    rw [hpresentation, hdec]
    simp only [hmask]
  · simp only [markPresentations, List.mem_cons, List.not_mem_nil, or_false, not_or] at hmark
    obtain ⟨hx, hX, ho, hO, hb, hB⟩ := hmark
    have hpresentation : (arg.withJunk junk).presentation = arg.presentation := rfl
    have hdec : uintToDec (arg.withJunk junk) n = uintToDec arg n := rfl
    unfold integerDigits
    rw [hpresentation, hdec]
    simp only [hx, hX, ho, hO, hb, hB, or_self, if_false]

/-- Formatting reads the storage for an integer in a base with a mark, and for nothing else. -/
theorem format_withJunk (v : Scalar) (h : (∃ n, v = .integer n) → arg.presentation ∈ markPresentations → arg.basePrefix = true) :
    v.value.format (arg.withJunk junk) = v.value.format arg := by
  cases v with
  | string s =>
      show formatText (arg.withJunk junk) s = formatText arg s
      rfl
  | integer n =>
      show formatInteger (arg.withJunk junk) n = formatInteger arg n
      have hdigits : integerDigits (arg.withJunk junk) n = integerDigits arg n := integerDigits_withJunk n (h ⟨n, rfl⟩)
      unfold formatInteger
      rw [hdigits]
      rfl

/-- A call with another letter writes no mark, -/
theorem unmarked_of_not_mem {call : Call} (h : call.arg.presentation ∉ markPresentations) : call.Unmarked := by
  simp only [markPresentations, List.mem_cons, List.not_mem_nil, or_false, not_or] at h
  obtain ⟨hx, hX, ho, hO, hb, hB⟩ := h
  intro n p prefixLen _ hdigits
  unfold integerDigits at hdigits
  simp only [hx, hX, ho, hO, hb, hB, or_self, if_false] at hdigits
  split at hdigits
  · rw [uintToDec_rendered] at hdigits
    exact (congrArg Prod.snd (Except.ok.inj hdigits)).symm
  · split at hdigits
    · cases hpush : push (Char.ofNat (n.val % 256).toNat) [] with
      | error e =>
          rw [hpush] at hdigits
          cases hdigits
      | ok q =>
          rw [hpush] at hdigits
          exact (congrArg Prod.snd (Except.ok.inj hdigits)).symm
    · cases hdigits

/-- the key does not change the member, -/
theorem basePrefix_splitKey {piece : Text} {arg' : FormatArg} (h : arg.splitKey = .ok (piece, arg')) :
    arg'.basePrefix = arg.basePrefix := by
  unfold FormatArg.splitKey at h
  split at h
  · cases h
    rfl
  · split at h
    · cases h
      rfl
    · split at h
      · split at h
        · cases h
        · cases h
          rfl
      · split at h
        · cases h
          rfl
        · cases h
          rfl

/-- and neither does its lookup. -/
theorem basePrefix_resolve {piece : Text} {r : Nat × FormatArg × Progress} (h : resolve false arg piece st = .ok r) :
    r.2.1.basePrefix = arg.basePrefix := by
  unfold resolve at h
  rw [if_neg Bool.false_ne_true] at h
  split at h
  · cases h
    rfl
  · simp only [bind, Except.bind] at h
    cases hkey : stoul piece with
    | error e =>
        rw [hkey] at h
        cases h
    | ok q =>
        rw [hkey] at h
        simp only at h
        split at h
        · cases h
        · cases h
          rfl

/-- The base prefix of a placeholder in storage of zeros says if there is a `#`. -/
theorem select_hash {values : List Scalar} {v : Scalar} {st' : Progress} (h : select values .zero spec st = .ok (arg, v, st')) :
    arg.basePrefix = true ↔ HasHash spec := by
  unfold select at h
  simp only [bind, Except.bind] at h
  cases hinit : FormatArg.init .zero spec with
  | error e =>
      rw [hinit] at h
      cases h
  | ok arg₀ =>
      rw [hinit] at h
      -- the construction sets the member exactly at a `#`
      have hhash : HasHash spec ↔ arg₀.basePrefix = true := by
        unfold HasHash
        rw [hinit]
        simp
      cases hsplit : arg₀.splitKey with
      | error e =>
          simp only [hsplit] at h
          cases h
      | ok q =>
          simp only [hsplit] at h
          cases hresolve : resolve false q.2 q.1 st with
          | error e =>
              simp only [hresolve] at h
              cases h
          | ok r =>
              simp only [hresolve] at h
              have hkept : r.2.1.basePrefix = arg₀.basePrefix :=
                (basePrefix_resolve hresolve).trans (basePrefix_splitKey hsplit)
              split at h
              · cases h
              · cases hvalue : values[r.1]? with
                | none =>
                    rw [hvalue] at h
                    cases h
                | some v' =>
                    rw [hvalue] at h
                    cases h
                    rw [hhash, hkept]

/-! ## Runs

Runs over different storage go the same way, placeholder by placeholder, as long as no call is exposed; and an
exposed one is told apart by two storages. -/

/-- **A run that exposes nothing.** By induction on the rounds: each placeholder has the same text in any storage. -/
theorem traced_sheltered {values : List Scalar} (h : ∀ call ∈ (traced values fuel (fun _ => .zero) s st).1, ¬call.Exposed) :
    (traced values fuel junks s st).2 = (traced values fuel (fun _ => .zero) s st).2 ∧
      ∀ call ∈ (traced values fuel junks s st).1, ¬HasHash call.spec → call.Unmarked := by
  induction fuel generalizing junks s st with
  | zero => exact ⟨rfl, fun call hcall => nomatch hcall⟩
  | succ fuel ih =>
      rw [traced] at h ⊢
      rw [traced]
      cases hscan : scan s with
      | done result => exact ⟨rfl, fun call hcall => nomatch hcall⟩
      | brace out rest =>
          rw [hscan] at h
          obtain ⟨hsame, hmarks⟩ := @ih junks rest st h
          simp only [hsame]
          exact ⟨trivial, hmarks⟩
      | placeholder out spec rest =>
          rw [hscan] at h
          simp only at h ⊢
          rw [select_withJunk values (junks 0)]
          cases hselect : select values .zero spec st with
          | error e => exact ⟨rfl, fun call hcall => nomatch hcall⟩
          | ok r =>
              obtain ⟨arg, v, st'⟩ := r
              rw [hselect] at h
              have hhash := select_hash hselect
              -- the call is in the trace whether it throws or not
              have hcall : (∃ n, v = .integer n) → arg.presentation ∈ markPresentations → HasHash spec := by
                intro hv hp
                by_contra hnone
                cases hformat : v.value.format arg with
                | error e => exact h ⟨spec, arg, v⟩ (by simp [hformat]) ⟨hnone, hv, hp⟩
                | ok text => exact h ⟨spec, arg, v⟩ (by simp [hformat]) ⟨hnone, hv, hp⟩
              have hformat : v.value.format (arg.withJunk (junks 0)) = v.value.format arg :=
                format_withJunk v fun hv hp => hhash.mpr (hcall hv hp)
              have hunmarked : ¬HasHash spec → Call.Unmarked ⟨spec, arg.withJunk (junks 0), v⟩ := by
                intro hnone
                by_cases hp : arg.presentation ∈ markPresentations
                · rintro n p prefixLen rfl
                  exact absurd (hcall ⟨n, rfl⟩ hp) hnone
                · exact unmarked_of_not_mem hp
              -- from here on the two runs are at the same place with the same text
              simp only [Except.map, hformat]
              cases hresult : v.value.format arg with
              | error e =>
                  simp only [List.mem_singleton, forall_eq, true_and]
                  exact hunmarked
              | ok text =>
                  simp only [hresult, List.mem_cons, forall_eq_or_imp] at h ⊢
                  obtain ⟨hsame, hmarks⟩ := @ih (fun i => junks (i + 1)) rest st' h.2
                  rw [hsame]
                  exact ⟨rfl, hunmarked, hmarks⟩

/-- The call of the first placeholder. -/
theorem head_mem_traced {values : List Scalar} {out rest : Text} {v : Scalar} {st' : Progress}
    (hscan : scan s = .placeholder out spec rest) (hselect : select values .zero spec st = .ok (arg, v, st')) :
    (⟨spec, arg.withJunk (junks 0), v⟩ : Call) ∈ (traced values (fuel + 1) junks s st).1 := by
  rw [traced, hscan]
  simp only
  rw [select_withJunk values (junks 0), hselect]
  simp only [Except.map]
  cases v.value.format (arg.withJunk (junks 0)) with
  | error e => exact List.mem_cons_self
  | ok text => exact List.mem_cons_self

/-- Any call of a run can be made in storage that holds `true`, after the same calls as before. -/
theorem exists_marked {values : List Scalar} {call : Call} (h : call ∈ (traced values fuel (fun _ => .zero) s st).1) :
    ∃ junks, (⟨call.spec, call.arg.withJunk ⟨0, true⟩, call.value⟩ : Call) ∈ (traced values fuel junks s st).1 := by
  induction fuel generalizing s st with
  | zero => cases h
  | succ fuel ih =>
      rw [traced] at h
      cases hscan : scan s with
      | done result =>
          rw [hscan] at h
          cases h
      | brace out rest =>
          rw [hscan] at h
          obtain ⟨junks, hcall⟩ := ih h
          refine ⟨junks, ?_⟩
          rw [traced, hscan]
          exact hcall
      -- this placeholder's call, or a later one
      | placeholder out spec rest =>
          rw [hscan] at h
          cases hselect : select values .zero spec st with
          | error e =>
              simp only [hselect] at h
              cases h
          | ok r =>
              obtain ⟨arg, v, st'⟩ := r
              simp only [hselect] at h
              have hfirst : (⟨spec, arg.withJunk ⟨0, true⟩, v⟩ : Call) ∈ (traced values (fuel + 1) (fun _ => ⟨0, true⟩) s st).1 :=
                head_mem_traced hscan hselect
              cases hresult : v.value.format arg with
              | error e =>
                  simp only [hresult, List.mem_singleton] at h
                  rw [h]
                  exact ⟨_, hfirst⟩
              | ok text =>
                  simp only [hresult, List.mem_cons] at h
                  rcases h with h | h
                  · rw [h]
                    exact ⟨_, hfirst⟩
                  · obtain ⟨junks, hcall⟩ := ih h
                    -- zeros for this placeholder, and then the storage of the rest
                    refine ⟨fun i => if i = 0 then .zero else junks (i - 1), ?_⟩
                    rw [traced, hscan]
                    simp only [if_true, hselect, hresult]
                    exact List.mem_cons_of_mem _ hcall

/-- **When formatting is independent of the storage.** -/
theorem independent_iff (template : Text) (values : List Scalar) : Independent template values ↔
    ∀ call ∈ (runFormat (fun _ => .zero) template values).1, ¬call.Exposed := by
  constructor
  · rintro ⟨-, hmarks⟩ call hcall ⟨hnone, ⟨n, hn⟩, hp⟩
    -- the same call in storage where the prefix is set has a mark
    obtain ⟨junks, hmarked⟩ := exists_marked hcall
    have hpresentation : call.arg.presentation ∈ integerPresentations := by
      have hsub : markPresentations ⊆ integerPresentations := by simp [markPresentations, integerPresentations]
      exact hsub hp
    have hrendered : RenderedDigits (call.arg.withJunk ⟨0, true⟩) n := renderedDigits n hpresentation
    obtain ⟨ds, -, -, hdigits⟩ := hrendered
    have hzero := hmarks junks _ hmarked hnone n _ _ hn hdigits
    have hset : (call.arg.withJunk ⟨0, true⟩).basePrefix = true := Bool.or_true _
    have hmark : (markPresentations.all fun c => (baseMark c).length ≠ 0) = true := by decide
    unfold markText at hzero
    rw [hset] at hzero
    have hempty : (baseMark call.arg.presentation).length = 0 := hzero
    simpa [hempty] using List.all_eq_true.mp hmark _ hp
  · intro h
    refine ⟨fun junks junks' => ?_, fun junks => (traced_sheltered h).2⟩
    exact (traced_sheltered h).1.trans (traced_sheltered h).1.symm

/-- The template `{:x}` for 42, with a byte in the storage of `base_prefix` that is true. -/
theorem not_independent_hex : ¬Independent [lbrace, ':', 'x', rbrace] [.integer ⟨.int, 42, by decide⟩] ∧
    sFormat ⟨0, false⟩ [lbrace, ':', 'x', rbrace] [.integer ⟨.int, 42, by decide⟩] = .ok ['2', 'a'] ∧
    sFormat ⟨0, true⟩ [lbrace, ':', 'x', rbrace] [.integer ⟨.int, 42, by decide⟩] = .ok ['0', 'x', '2', 'a'] := by
  have hfalse : sFormat ⟨0, false⟩ [lbrace, ':', 'x', rbrace] [.integer ⟨.int, 42, by decide⟩] = .ok ['2', 'a'] := by
    decide +kernel
  have htrue : sFormat ⟨0, true⟩ [lbrace, ':', 'x', rbrace] [.integer ⟨.int, 42, by decide⟩] = .ok ['0', 'x', '2', 'a'] := by
    decide +kernel
  refine ⟨?_, hfalse, htrue⟩
  rintro ⟨hsame, -⟩
  have heq := hsame (fun _ => ⟨0, false⟩) (fun _ => ⟨0, true⟩)
  rw [runFormat_const, runFormat_const] at heq
  exact absurd (hfalse.symm.trans (heq.trans htrue)) (by decide)

end Format
end Snippets
