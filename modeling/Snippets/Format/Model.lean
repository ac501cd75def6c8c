import Snippets.Lib.Bytes

/-!
# `Format.Model` — `Format/main.cc`

`Format`, `sFormat`, `vFormat` and `svFormat`: a template with `{}` placeholders, and the values for them. What is written
to the output is the text of a successful run; an exception, a failing `assert` or a use of memory that does not belong
to the text is a `Failure`.

A `Slice` is read together with the memory behind its end, because the output callback looks one character past a `}`.
The members of `FormatArg` that neither its constructor nor an initialiser sets have some value of their own (`Junk`).
Values of type `double` and `float`, which go through `snprintf`, are left out. The arguments of a call are fewer than
`unsigned` can count. Negation of the least value of a type wraps around.
-/

namespace Snippets
namespace Format

open Lib

abbrev Text := List Char

def nul : Char := '\x00'
def lbrace : Char := '\x7b'
def rbrace : Char := '\x7d'

inductive Failure
  | badFormat (msg : String)
  | badLexicalCast
  | invalidArgument
  | outOfRange
  | assertion
  | undefined
deriving DecidableEq

/-- `alpha::Slice`, with what lies behind it in memory. -/
structure Slice where
  text : Text
  beyond : Text
deriving DecidableEq

/-- A string that ends with a NUL, as `std::string` and string literals do. -/
def Slice.ofString (t : Text) : Slice := ⟨t, [nul]⟩

/-- `strchr` and `memchr`: what is before the first `c`, and what is behind it. -/
def cut (c : Char) : Text → Option (Text × Text)
  | [] => none
  | x :: xs => if x = c then some ([], xs) else (cut c xs).map fun p => (x :: p.1, p.2)

def isDigit (c : Char) : Bool := '0' ≤ c && c ≤ '9'

/-- The number that decimal digits stand for. -/
def digitsValue (ds : Text) : Nat := ds.foldl (fun n c => 10 * n + (c.toNat - '0'.toNat)) 0

/-- `boost::lexical_cast<int>` of decimal digits. -/
def lexicalCast (ds : Text) : Except Failure Int :=
  if digitsValue ds < 2 ^ 31 then .ok (digitsValue ds) else .error .badLexicalCast

def isSpace (c : Char) : Bool := c = ' ' || c = '\t' || c = '\n' || c = '\x0b' || c = '\x0c' || c = '\r'

/-- The sign that a number may start with. -/
def splitSign : Text → Bool × Text
  | '-' :: rest => (true, rest)
  | '+' :: rest => (false, rest)
  | rest => (false, rest)

/-- `std::stoul(s, &e, 10)`: the number, and `e`. -/
def stoul (s : Text) : Except Failure (Nat × Nat) :=
  let (negative, rest) := splitSign (s.dropWhile isSpace)
  let digits := rest.takeWhile isDigit
  if digits = [] then .error .invalidArgument
  else if 2 ^ 64 ≤ digitsValue digits then .error .outOfRange
  else .ok (if negative then (2 ^ 64 - digitsValue digits) % 2 ^ 64 else digitsValue digits,
    s.length - (rest.dropWhile isDigit).length)

/-! ## `FormatArg` -/

inductive NextKeyMode
  | none
  | int
  | string
deriving DecidableEq

inductive Align
  | default
  | left
  | right
  | padAfterSign
  | center
deriving DecidableEq

inductive Sign
  | default
  | plusOrMinus
  | minus
  | spaceOrMinus
deriving DecidableEq

structure FormatArg where
  nextIntKey : Nat
  key : Text
  nextKey : Text
  nextKeyMode : NextKeyMode
  fill : Char
  align : Align
  sign : Sign
  basePrefix : Bool
  width : Int
  thousandsSeparator : Bool
  precision : Int
  trailingDot : Bool
  presentation : Char
deriving DecidableEq

/-- The members that are not initialised. -/
structure Junk where
  nextIntKey : Nat
  basePrefix : Bool

/-- `FormatAlign`; `none` is `kInvalid`. -/
def formatAlign (c : Char) : Option Align :=
  if c = '<' then some .left
  else if c = '>' then some .right
  else if c = '=' then some .padAfterSign
  else if c = '^' then some .center
  else none

/-- `FormatSign`; `none` is `kInvalid`. -/
def formatSign (c : Char) : Option Sign :=
  if c = '+' then some .plusOrMinus
  else if c = '-' then some .minus
  else if c = ' ' then some .spaceOrMinus
  else none

namespace FormatArg

/-- The constructor, before `InitSlow`. -/
def fresh (junk : Junk) : FormatArg where
  nextIntKey := junk.nextIntKey
  key := []
  nextKey := []
  nextKeyMode := .none
  fill := nul
  align := .default
  sign := .default
  basePrefix := junk.basePrefix
  width := -1
  thousandsSeparator := false
  precision := -1
  trailingDot := false
  presentation := nul

/-- `[fill] align`. -/
def initAlign (arg : FormatArg) : Text → FormatArg × Text
  | c :: c' :: p =>
      match formatAlign c' with
      | some a => ({ arg with fill := c, align := a }, p)
      | none =>
          match formatAlign c with
          | some a => ({ arg with align := a }, c' :: p)
          | none => (arg, c :: c' :: p)
  | [c] =>
      match formatAlign c with
      | some a => ({ arg with align := a }, [])
      | none => (arg, [c])
  | [] => (arg, [])

def initSign (arg : FormatArg) : Text → FormatArg × Text
  | c :: p =>
      match formatSign c with
      | some s => ({ arg with sign := s }, p)
      | none => (arg, c :: p)
  | [] => (arg, [])

def initPrefix (arg : FormatArg) : Text → FormatArg × Text
  | c :: p => if c = '#' then ({ arg with basePrefix := true }, p) else (arg, c :: p)
  | [] => (arg, [])

/-- A `0` before the width. -/
def initZero (arg : FormatArg) : Text → Except Failure (FormatArg × Text)
  | c :: p =>
      if c = '0' then
        if arg.align ≠ .default then .error (.badFormat "alignment specified twice")
        else .ok ({ arg with fill := '0', align := .padAfterSign }, p)
      else .ok (arg, c :: p)
  | [] => .ok (arg, [])

def initWidth (arg : FormatArg) (p : Text) : Except Failure (FormatArg × Text) :=
  if p.takeWhile isDigit = [] then .ok (arg, p)
  else (lexicalCast (p.takeWhile isDigit)).map fun w => ({ arg with width := w }, p.dropWhile isDigit)

def initSeparator (arg : FormatArg) : Text → FormatArg × Text
  | c :: p => if c = ',' then ({ arg with thousandsSeparator := true }, p) else (arg, c :: p)
  | [] => (arg, [])

/-- A second `.` behind the precision. -/
def initTrailingDot (arg : FormatArg) : Text → FormatArg × Text
  | c :: p => if c = '.' then ({ arg with trailingDot := true }, p) else (arg, c :: p)
  | [] => (arg, [])

def initPrecision (arg : FormatArg) : Text → Except Failure (FormatArg × Text)
  | c :: p =>
      if c = '.' then
        if p.takeWhile isDigit = [] then .ok ({ arg with trailingDot := true }, p)
        else (lexicalCast (p.takeWhile isDigit)).map fun n =>
          initTrailingDot { arg with precision := n } (p.dropWhile isDigit)
      else .ok (arg, c :: p)
  | [] => .ok (arg, [])

def initPresentation (arg : FormatArg) : Text → Except Failure FormatArg
  | [] => .ok arg
  | [c] => .ok { arg with presentation := c }
  | _ :: _ :: _ => .error (.badFormat "extra characters in format string")

/-- `InitSlow`. Each part looks at the text only where there is some left, so a part that finds none is the early
    `return` of the source. -/
def initSlow (arg : FormatArg) (str : Text) : Except Failure FormatArg :=
  match cut ':' str with
  | none => .ok { arg with key := str }
  | some (key, p) => do
      let (arg, p) := initAlign { arg with key := key } p
      let (arg, p) := initSign arg p
      let (arg, p) := initPrefix arg p
      let (arg, p) ← initZero arg p
      let (arg, p) ← initWidth arg p
      let (arg, p) := initSeparator arg p
      let (arg, p) ← initPrecision arg p
      initPresentation arg p

/-- `FormatArg(s)`. -/
def init (junk : Junk) (s : Text) : Except Failure FormatArg :=
  if s = [] then .ok (fresh junk) else initSlow (fresh junk) s

def splitKey (arg : FormatArg) : Except Failure (Text × FormatArg) :=
  if arg.nextKeyMode = .string then .ok (arg.nextKey, { arg with nextKeyMode := .none })
  else if arg.key = [] then .ok ([], arg)
  else if arg.key.getLast? = some ']' then
    match cut '[' arg.key with
    | none => .error (.badFormat "unmatched `]'")
    | some (piece, rest) => .ok (piece, { arg with key := rest.dropLast })
  else
    match cut '.' arg.key with
    | none => .ok (arg.key, { arg with key := [] })
    | some (piece, rest) => .ok (piece, { arg with key := rest })

def splitIntKey (arg : FormatArg) : Except Failure (Nat × FormatArg) :=
  if arg.nextKeyMode = .int then .ok (arg.nextIntKey, { arg with nextKeyMode := .none })
  else do
    let (piece, arg) ← arg.splitKey
    let (key, e) ← stoul piece
    if e ≠ piece.length then .error (.badFormat "Key must be integer type")
    else .ok (key % 2 ^ 32, arg)

/-- `SetNextKey`. -/
def setNextKey (arg : FormatArg) (s : Text) : Except Failure FormatArg :=
  if arg.nextKeyMode = .int then .error .assertion else .ok { arg with nextKey := s, nextKeyMode := .string }

/-- `SetNextIntKey`. -/
def setNextIntKey (arg : FormatArg) (key : Nat) : FormatArg := { arg with nextIntKey := key, nextKeyMode := .int }

end FormatArg

/-! ## Output -/

/-- The callback `output` of `Formatter::operator()`: a doubled `}` becomes one. -/
def emitFrom : Nat → Text → Text → Except Failure Text
  | 0, _, _ => .error .undefined
  | fuel + 1, s, beyond =>
      if s = [] then .ok []
      else
        match cut rbrace s with
        | none => .ok s
        | some (before, rest) =>
            match (rest ++ beyond).head? with
            | none => .error .undefined
            | some c =>
                if c ≠ rbrace then .error (.badFormat "single `\x7d'")
                else
                  match rest with
                  -- the second `}` is behind the end, and so is the rest of the loop
                  | [] => .error .undefined
                  | _ :: rest => (emitFrom fuel rest beyond).map fun out => before ++ rbrace :: out

def emit (s : Slice) : Except Failure Text := emitFrom (s.text.length + 1) s.text s.beyond

/-! ## `FormatString` and `FormatNumber` -/

section Output

variable (output : Slice → Except Failure Text)

/-- The lambda `pad`; what is behind the padding in its buffer is not set. -/
def padTo (fill : Char) (size : Int) : Except Failure Text :=
  if size < 0 then .error .assertion else output ⟨List.replicate (min size 128).toNat fill, []⟩

/-- `FormatString`. -/
def formatStringTo (arg : FormatArg) (s : Slice) : Except Failure Text := do
  let fill := if arg.fill = nul then ' ' else arg.fill
  let paddingSize := toInt32 (arg.width - toInt32 s.text.length)
  match arg.align with
  | .default | .left =>
      let out ← output s
      let padding ← padTo output fill (max 0 paddingSize)
      return out ++ padding
  | .right | .padAfterSign =>
      let padding ← padTo output fill (max 0 paddingSize)
      let out ← output s
      return padding ++ out
  | .center =>
      let before ← padTo output fill (max 0 (paddingSize.tdiv 2))
      let out ← output s
      let after ← padTo output fill (max 0 (toInt32 (paddingSize - paddingSize.tdiv 2)))
      return before ++ out ++ after

/-- `FormatNumber`. -/
def formatNumberTo (arg : FormatArg) (prefixLen : Nat) (s : Slice) : Except Failure Text :=
  if toInt32 s.text.length < prefixLen then .error .assertion
  else if arg.align = .default then formatStringTo output { arg with align := .right } s
  else if prefixLen ≠ 0 ∧ arg.align = .padAfterSign then do
    let out ← output ⟨s.text.take prefixLen, s.text.drop prefixLen ++ s.beyond⟩
    let rest ← formatStringTo output { arg with width := max (toInt32 (arg.width - prefixLen)) 0 }
      ⟨s.text.drop prefixLen, s.beyond⟩
    return out ++ rest
  else formatStringTo output arg s

end Output

/-- Both at `Formatter`'s callback. -/
def formatString : FormatArg → Slice → Except Failure Text := formatStringTo emit

def formatNumber : FormatArg → Nat → Slice → Except Failure Text := formatNumberTo emit

/-! ## Integers -/

/-- An integral type other than `bool`. -/
structure IntType where
  bits : Nat
  signed : Bool
  standard : bits = 8 ∨ bits = 16 ∨ bits = 32 ∨ bits = 64

namespace IntType

def lo (ty : IntType) : Int := if ty.signed then -(2 ^ (ty.bits - 1)) else 0

def hi (ty : IntType) : Int := if ty.signed then 2 ^ (ty.bits - 1) else 2 ^ ty.bits

/-- Conversion of a number to the type. -/
def wrap (ty : IntType) (n : Int) : Int :=
  if ty.signed ∧ 2 ^ (ty.bits - 1) ≤ n % 2 ^ ty.bits then n % 2 ^ ty.bits - 2 ^ ty.bits else n % 2 ^ ty.bits

def int : IntType := ⟨32, true, by decide⟩

end IntType

/-- A value of an integral type. -/
structure Integer where
  ty : IntType
  val : Int
  range : ty.lo ≤ val ∧ val < ty.hi

/-- `static_cast<UT>(val >= 0 ? val : -val)`. -/
def Integer.magnitude (n : Integer) : Nat := ((if 0 ≤ n.val then n.val else -n.val) % 2 ^ n.ty.bits).toNat

/-- `*--p = c`, in the buffer of 67 characters. -/
def push (c : Char) (p : Text) : Except Failure Text :=
  if p.length < 67 then .ok (c :: p) else .error .undefined

/-- The separator after a digit that is not the last one. -/
def pushSeparator (sep : Bool) (idx v : Nat) (p : Text) : Except Failure Text :=
  if v ≠ 0 ∧ sep ∧ idx ≠ 0 ∧ idx % 3 = 0 then push ',' p else .ok p

/-- The loop of `UIntToDec`. -/
def decLoop (sep : Bool) : Nat → Nat → Nat → Text → Except Failure Text
  | 0, _, _, _ => .error .undefined
  | fuel + 1, v, idx, p =>
      if v = 0 then .ok p
      else do
        let p ← push (Char.ofNat ('0'.toNat + v % 10)) p
        let p ← pushSeparator sep idx (v / 10) p
        decLoop sep fuel (v / 10) (idx + 1) p

/-- The loop of `UIntToHex`, `UIntToOct` and `UIntToBin`: `k` bits at a time. -/
def maskLoop (k : Nat) (repr : Text) : Nat → Nat → Text → Except Failure Text
  | 0, _, _ => .error .undefined
  | fuel + 1, v, p =>
      if v = 0 then .ok p
      else do
        let p ← push (repr.getD (v % 2 ^ k) nul) p
        maskLoop k repr fuel (v / 2 ^ k) p

/-- `if (val == 0) *--p = '0'`. -/
def pushZero (n : Integer) (p : Text) : Except Failure Text := if n.val = 0 then push '0' p else .ok p

/-- `UIntToDec`, with the length of the prefix. -/
def uintToDec (arg : FormatArg) (n : Integer) : Except Failure (Text × Nat) := do
  let p ← decLoop arg.thousandsSeparator (n.ty.bits + 1) n.magnitude 1 []
  let p ← pushZero n p
  return (p, 0)

/-- Digits in a base that is a power of two, and the base's mark in front of them if it is asked for. -/
def uintToMask (arg : FormatArg) (k : Nat) (repr mark : Text) (n : Integer) : Except Failure (Text × Nat) := do
  let p ← maskLoop k repr (n.ty.bits + 1) n.magnitude []
  let p ← pushZero n p
  if arg.basePrefix then
    let p ← mark.foldrM push p
    return (p, mark.length)
  else return (p, 0)

def lowerReprHex : Text := ['0', '1', '2', '3', '4', '5', '6', '7', '8', '9', 'a', 'b', 'c', 'd', 'e', 'f']
def upperReprHex : Text := ['0', '1', '2', '3', '4', '5', '6', '7', '8', '9', 'A', 'B', 'C', 'D', 'E', 'F']
def reprOct : Text := ['0', '1', '2', '3', '4', '5', '6', '7']
def lowerReprBin : Text := ['0', '1', 'b']
def upperReprBin : Text := ['0', '1', 'B']

def uintToHex (arg : FormatArg) (repr : Text) (n : Integer) : Except Failure (Text × Nat) :=
  uintToMask arg 4 repr ['0', 'x'] n

def uintToOct (arg : FormatArg) (repr : Text) (n : Integer) : Except Failure (Text × Nat) :=
  uintToMask arg 3 repr ['0'] n

def uintToBin (arg : FormatArg) (repr : Text) (n : Integer) : Except Failure (Text × Nat) :=
  uintToMask arg 1 repr ['0', repr.getD 2 nul] n

/-- The digits, by `arg.presentation`. -/
def integerDigits (arg : FormatArg) (n : Integer) : Except Failure (Text × Nat) :=
  if arg.presentation = nul ∨ arg.presentation = 'd' ∨ arg.presentation = 'n' then uintToDec arg n
  else if arg.presentation = 'x' then uintToHex arg lowerReprHex n
  else if arg.presentation = 'X' then uintToHex arg upperReprHex n
  else if arg.presentation = 'o' ∨ arg.presentation = 'O' then uintToOct arg reprOct n
  else if arg.presentation = 'b' then uintToBin arg lowerReprBin n
  else if arg.presentation = 'B' then uintToBin arg upperReprBin n
  else if arg.presentation = 'c' then (push (Char.ofNat (n.val % 256).toNat) []).map fun p => (p, 0)
  else .error .assertion

/-- The sign, by `arg.sign`. -/
def integerSign (arg : FormatArg) (n : Integer) (p : Text) (prefixLen : Nat) : Except Failure (Text × Nat) :=
  match arg.sign with
  | .default | .minus => if n.val < 0 then (push '-' p).map fun p => (p, prefixLen + 1) else .ok (p, prefixLen)
  | .plusOrMinus => (push (if n.val < 0 then '-' else '+') p).map fun p => (p, prefixLen + 1)
  | .spaceOrMinus => (push (if n.val < 0 then '-' else ' ') p).map fun p => (p, prefixLen + 1)

/-- `FormatValue` of an integer. -/
def formatInteger (arg : FormatArg) (n : Integer) : Except Failure Text := do
  let (p, prefixLen) ← integerDigits arg n
  let (p, prefixLen) ← integerSign arg n p prefixLen
  formatNumber arg prefixLen ⟨p, []⟩

/-! ## Values -/

/-- `FormatValue` of a string. -/
def formatText (arg : FormatArg) (s : Slice) : Except Failure Text :=
  if arg.precision ≠ -1 then
    formatString arg ⟨s.text.take arg.precision.toNat, s.text.drop arg.precision.toNat ++ s.beyond⟩
  else formatString arg s

/-- An argument. A map has its keys and its values in the same order. -/
inductive Value
  | integer (n : Integer)
  | string (s : Slice)
  | boolean (b : Bool)
  | null
  | tuple (vs : List Value)
  | sequence (vs : List Value)
  | intMap (ty : IntType) (keys : List Int) (vs : List Value)
  | stringMap (keys : List Text) (vs : List Value)

/-- `FormatValue<int>(val_)` of a `bool`. -/
def boolInteger (b : Bool) : Integer := ⟨.int, if b then 1 else 0, by cases b <;> decide⟩

mutual

/-- `FormatValue<T>::Format`. -/
def Value.format : Value → FormatArg → Except Failure Text
  | .integer n, arg => formatInteger arg n
  | .string s, arg => formatText arg s
  | .boolean b, arg =>
      if arg.presentation = nul then formatString arg (.ofString (if b then "true".toList else "false".toList))
      else formatInteger arg (boolInteger b)
  | .null, _ => emit (.ofString "(null)".toList)
  | .tuple vs, arg => do
      let (index, arg) ← arg.splitIntKey
      formatAt (.badFormat "Format Tuple: index out of range") vs index arg
  | .sequence vs, arg => do
      let (index, arg) ← arg.splitIntKey
      formatAt .outOfRange vs index arg
  | .intMap ty keys vs, arg => do
      let (index, arg) ← arg.splitIntKey
      match keys.idxOf? (ty.wrap index) with
      | none => .error .outOfRange
      | some i => formatAt .outOfRange vs i arg
  | .stringMap keys vs, arg => do
      let (piece, arg) ← arg.splitKey
      match keys.idxOf? piece with
      | none => .error .outOfRange
      | some i => formatAt .outOfRange vs i arg

/-- `FormatFrom`, `DoFormatFrom` and the containers' `at`: the value with an index, or a failure. -/
def formatAt (failure : Failure) : List Value → Nat → FormatArg → Except Failure Text
  | [], _, _ => .error failure
  | v :: _, 0, arg => v.format arg
  | _ :: vs, index + 1, arg => formatAt failure vs index arg

end

/-! ## `Formatter` -/

/-- The cursor of `operator()`, apart from the place in the template. -/
structure Progress where
  hasImplicitIndex : Bool
  hasExplicitIndex : Bool
  argIndex : Nat
deriving DecidableEq

/-- Which argument a placeholder asks for. -/
def resolve (containerMode : Bool) (arg : FormatArg) (piece : Text) (st : Progress) :
    Except Failure (Nat × FormatArg × Progress) :=
  if containerMode then
    if piece = [] then
      .ok (0, arg.setNextIntKey st.argIndex, { st with argIndex := st.argIndex + 1, hasImplicitIndex := true })
    else (arg.setNextKey piece).map fun arg => (0, arg, { st with hasExplicitIndex := true })
  else if piece = [] then .ok (st.argIndex, arg, { st with argIndex := st.argIndex + 1, hasImplicitIndex := true })
  else do
    let (index, e) ← stoul piece
    if e ≠ piece.length then .error (.badFormat "Index must be integer")
    else .ok (index % 2 ^ 32, arg, { st with hasExplicitIndex := true })

/-- A placeholder: what stands between its braces is `spec`. -/
def placeholder (containerMode : Bool) (values : List Value) (junk : Junk) (spec : Text) (st : Progress) :
    Except Failure (Text × Progress) := do
  let arg ← FormatArg.init junk spec
  let (piece, arg) ← arg.splitKey
  let (index, arg, st) ← resolve containerMode arg piece st
  if st.hasExplicitIndex ∧ st.hasImplicitIndex then
    .error (.badFormat "Found both explicit and implicit index")
  else (formatAt (.badFormat "Argument index out of range") values index arg).map fun out => (out, st)

/-- The loop of `operator()`, from a place in the template on. -/
def formatFrom (containerMode : Bool) (values : List Value) (junk : Junk) : Nat → Text → Progress → Except Failure Text
  | 0, _, _ => .error .undefined
  | fuel + 1, s, st =>
      if s = [] then .ok []
      else
        match cut lbrace s with
        | none => emit (.ofString s)
        | some (before, rest) => do
            let out ← emit ⟨before, lbrace :: rest ++ [nul]⟩
            if rest.head? = some lbrace then
              let brace ← emit ⟨[lbrace], rest ++ [nul]⟩
              let tail ← formatFrom containerMode values junk fuel rest.tail st
              return out ++ brace ++ tail
            else
              match cut rbrace rest with
              | none => .error (.badFormat "unmatched `\x7d'")
              | some (spec, rest) =>
                  let (text, st) ← placeholder containerMode values junk spec st
                  let tail ← formatFrom containerMode values junk fuel rest st
                  return out ++ text ++ tail

/-- `Formatter::operator()` for the template that a `const char *` points to. -/
def formatter (containerMode : Bool) (junk : Junk) (template : Text) (values : List Value) : Except Failure Text :=
  let str := template.takeWhile (· ≠ nul)
  formatFrom containerMode values junk (str.length + 1) str ⟨false, false, 0⟩

/-- `sFormat`, and what `Format` writes. -/
def sFormat (junk : Junk) (template : Text) (values : List Value) : Except Failure Text :=
  formatter false junk template values

/-- `svFormat`, and what `vFormat` writes. -/
def svFormat (junk : Junk) (template : Text) (value : Value) : Except Failure Text := formatter true junk template [value]

end Format
end Snippets
