import Mathlib.Data.Rat.Cast.Order
import Mathlib.Data.List.Nodup
import Mathlib.Data.List.Perm.Subperm
import Mathlib.Data.List.TakeWhile

/-!
# `LConf.Model` — reading a Lua table into a tree of nodes

`read_table` reads the elements under `1, 2, …` until there is none, and then goes over all entries and skips the keys that it
has seen. A Lua table is a list of entries with distinct keys, in the order in which `lua_next` enumerates them; the Lua stack
is taken as big enough. `lua_tostring` returns a C string, so what follows a zero byte in a Lua string is not read.
-/

namespace Snippets
namespace LConf

/-! ## Lua values -/

/-- A `lua_Number`. -/
inductive LuaNumber
  | finite (x : ℚ)
  | inf
  | negInf
  | nan
deriving DecidableEq

/-- `x > n`, for an unsigned `n`. -/
def LuaNumber.gt : LuaNumber → Nat → Bool
  | .finite x, n => (n : ℚ) < x
  | .inf, _ => true
  | .negInf, _ | .nan, _ => false

/-- The bytes of a C string. -/
abbrev CString := { s : List UInt8 // 0 ∉ s }

/-- A string and its terminator: `string(const char*)`. -/
def cstr (s : List UInt8) : List UInt8 := s.takeWhile (· ≠ 0)

inductive LuaKey
  | string (s : List UInt8)
  | number (x : LuaNumber)
deriving DecidableEq

inductive LuaValue
  | string (s : List UInt8)
  | number (x : LuaNumber)
  | table (entries : List (LuaKey × LuaValue))

abbrev Entry := LuaKey × LuaValue

/-- The key that `lua_rawgeti` looks for. -/
def LuaKey.ofNat (n : Nat) : LuaKey := .number (.finite n)

/-- `lua_rawgeti`; `none` is `nil`. -/
def rawgeti (entries : List Entry) (idx : Nat) : Option LuaValue :=
  (entries.find? fun e => e.1 = LuaKey.ofNat idx).map Prod.snd

/-! ## Nodes -/

/-- `ScalarNode` and `TableNode`. -/
inductive Node
  | scalar (name value : List UInt8)
  | table (name : List UInt8) (arrayPartLen : Nat) (children : List Node)

def Node.name : Node → List UInt8
  | .scalar name _ | .table name _ _ => name

/-! ## Reading -/

section Read

-- `lua_tostring` of a number
variable (tostring : LuaNumber → CString)

/-- `lua_tostring` of a key, with all bytes of a string. -/
def LuaKey.text : LuaKey → List UInt8
  | .string s => s
  | .number x => tostring x

/-- An element of the array part. -/
def readElement (readTable : List Entry → List UInt8 → Option Node) : LuaValue → Option Node
  | .string s => some (.scalar [] (cstr s))
  | .number x => some (.scalar [] (tostring x))
  | .table entries => readTable entries []

/-- `ReadNode`. -/
def readNode (readTable : List Entry → List UInt8 → Option Node) (key : LuaKey) (value : LuaValue) : Option Node :=
  let name := cstr (key.text tostring)
  match value with
  | .table entries => readTable entries name
  | .string s => some (.scalar name (cstr s))
  | .number x => some (.scalar name (tostring x))

/-- The first loop of `read_table`: the index at which it stops, and the children. -/
def arrayLoop (read : LuaValue → Option Node) (entries : List Entry) : Nat → Nat → List Node → Option (Nat × List Node)
  | 0, _, _ => none
  | fuel + 1, idx, children =>
      match rawgeti entries idx with
      | none => some (idx, children)
      | some value =>
          match read value with
          | none => none
          | some node => arrayLoop read entries fuel (idx + 1) (children ++ [node])

/-- Whether the second loop reads the entry under a key: a number up to `n` counts as read. -/
def LuaKey.isHash (n : Nat) : LuaKey → Bool
  | .number x => x.gt n
  | .string _ => true

/-- The second loop, after an array part of length `n`. -/
def hashLoop (read : LuaKey → LuaValue → Option Node) (n : Nat) : List Entry → List Node → Option (List Node)
  | [], children => some children
  | (key, value) :: entries, children =>
      if key.isHash n then
        match read key value with
        | none => none
        | some node => hashLoop read n entries (children ++ [node])
      else hashLoop read n entries children

/-- `read_table`, down to a depth. -/
def readTable : Nat → List Entry → List UInt8 → Option Node
  | 0, _, _ => none
  | depth + 1, entries, name =>
      match arrayLoop (readElement tostring (readTable depth)) entries (entries.length + 1) 1 [] with
      | none => none
      | some (idx, array) =>
          (hashLoop (readNode tostring (readTable depth)) (idx - 1) entries array).map fun children =>
            .table (cstr name) array.length children

end Read

end LConf
end Snippets
