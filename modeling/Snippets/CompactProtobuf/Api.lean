import Snippets.CompactProtobuf.Encoder
import Snippets.CompactProtobuf.Bounds

/-!
# `CompactProtobuf.Api` — the accessors of `Message`

`Helper::DecodeField` and its decoders, and the calls that read and change a message under field names. The sixteen
accessors look up the field, decode it when that has not been done, and then read, replace, append or remove a value; they
differ in the type of the field and in the member of `Value`.

A failing assert has no result, and neither has a decoder that returns `false`: `TryDecodeField`, which calls it, asserts.
-/

namespace Snippets

open Lib

namespace CompactProtobuf

/-- What a call depends on besides the messages: the descriptors, what its values find in memory, and the conversions of
    `double` to `float` and back, on bit patterns. -/
structure Env where
  pool : Pool
  junk : Junk
  narrow : UInt64 → UInt32
  widen : UInt32 → UInt64

/-- Another call: its values find something else. -/
@[reducible] def Env.withJunk (env : Env) (junk : Junk) : Env := { env with junk := junk }

/-! ## Types -/

/-- The types of `CPPTYPE_INT32` to `CPPTYPE_UINT64`, `CPPTYPE_BOOL` and `CPPTYPE_ENUM`. -/
def FieldType.isInteger : FieldType → Bool
  | .int32 | .int64 | .uint32 | .uint64 | .bool | .enum | .sint32 | .sint64 | .fixed32 | .fixed64 | .sfixed32 | .sfixed64 => true
  | .double | .float | .string | .bytes | .message | .group => false

/-- `CPPTYPE_DOUBLE` and `CPPTYPE_FLOAT`. -/
def FieldType.isReal : FieldType → Bool
  | .double | .float => true
  | _ => false

/-- `CPPTYPE_STRING`. -/
def FieldType.isString : FieldType → Bool
  | .string | .bytes => true
  | _ => false

/-- `CPPTYPE_MESSAGE`. -/
def FieldType.isMessage : FieldType → Bool
  | .message | .group => true
  | _ => false

/-- The members of `Value` that hold the value of a field. -/
inductive Member
  | varint
  | f
  | d
  | s
  | m
deriving DecidableEq

/-- The switch over the types, with `none` for `TYPE_GROUP`. -/
def FieldType.member : FieldType → Option Member
  | .int32 | .int64 | .uint32 | .uint64 | .bool | .enum | .sint32 | .sint64 => some .varint
  | .fixed32 | .sfixed32 | .float => some .f
  | .fixed64 | .sfixed64 | .double => some .d
  | .string | .bytes => some .s
  | .message => some .m
  | .group => none

/-- `GetWireType`. -/
def getFieldWireType (fd : FieldDescriptor) : Option WireType :=
  if fd.packed then some .kLengthDelimited
  else
    match fd.type.member with
    | some .varint => some .kVarint
    | some .f => some .k32Bits
    | some .d => some .k64Bits
    | some .s | some .m => some .kLengthDelimited
    | none => none

/-! ## Decoding -/

/-- `ZigzagDecode`. -/
def zigzagDecode (val : Nat) : Nat := if val &&& 0x1 = 0 then val >>> 1 else toSize (-((val >>> 1 : Nat) : Int) - 1)

/-- The loops over `field->values`. -/
def decodeEach (decode : Value → Option Value) (f : Field) : Option Field :=
  (f.values.mapM decode).map fun values => { f with decoded := true, values := values }

def decodeVarint (junk : Junk) (mem : Mem) (f : Field) : Option Field :=
  decodeEach (fun v => some { v with primitive := (parseVarint mem (startState junk v.encoded)).v.primitive }) f

def decodeVarintWithZigZag (junk : Junk) (mem : Mem) (type : FieldType) (f : Field) : Option Field :=
  (decodeVarint junk mem f).bind <| decodeEach fun v =>
    if type = .sint32 ∨ type = .sint64 then some { v with primitive := zigzagDecode v.primitive } else none

def decodeFixed (mem : Mem) (type : FieldType) (f : Field) : Option Field :=
  decodeEach (fun v =>
    match type with
    | .fixed64 | .sfixed64 | .double => some { v with primitive := ofLe (mem.read v.encoded.start 8) }
    | .fixed32 | .sfixed32 | .float => some (v.setF (ofLe (mem.read v.encoded.start 4)))
    | _ => none) f

/-- A length below zero is a huge `size_t`, for which `assign` throws. -/
def decodeString (junk : Junk) (mem : Mem) (type : FieldType) (f : Field) : Option Field :=
  decodeEach (fun v =>
    match type with
    | .string | .bytes =>
        let len := (parseVarintInternal mem (startState junk v.encoded)).2
        if v.encoded.start + len ≤ v.encoded.endAddr then
          some { v with s := mem.read ((v.encoded.start + len : Nat) : Int) (v.encoded.endAddr - (v.encoded.start + len)) }
        else none
    | _ => none) f

/-- The loop of `DecodeMessage`. -/
def decodeMessages (env : Env) (messageType : Nat) : World → List Value → Option (World × List Value)
  | w, [] => some (w, [])
  | w, v :: values =>
      match (newMessage messageType).init env.pool (env.junk.inside w.messages.length) w.mem (embeddedSlice v) with
      | some (true, m) =>
          (decodeMessages env messageType { w with messages := w.messages ++ [m] } values).map fun r =>
            (r.1, { v with m := some w.messages.length } :: r.2)
      | _ => none

/-- The switch in the loop of `DecodePacked`, up to the value in `state.v`. -/
def parsePackedValue (mem : Mem) (type : FieldType) (st : ParserState) : Option ParserState :=
  match type with
  | .sint32 | .sint64 =>
      let st := parseVarint mem st
      some { st with v := { st.v with primitive := zigzagDecode st.v.primitive } }
  | .int32 | .uint32 | .bool | .enum | .int64 | .uint64 => some (parseVarint mem st)
  | .fixed32 | .sfixed32 | .float =>
      match parse32Bits mem st with
      | (.kOk, st) => some st
      | _ => none
  | .fixed64 | .sfixed64 | .double =>
      match parse64Bits mem st with
      | (.kOk, st) => some st
      | _ => none
  | _ => none

/-- What is copied from `state.v`. -/
def storePacked (type : FieldType) (parsed v : Value) : Value :=
  match type with
  | .fixed32 | .sfixed32 | .float => v.setF parsed.f
  | _ => { v with primitive := parsed.primitive }

/-- The loop of `DecodePacked`: the first element goes to the value that is there. -/
def decodePackedLoop (junk : Junk) (mem : Mem) (type : FieldType) : Nat → Nat → ParserState → List Value → Option (List Value)
  | fuel, idx, st, values =>
      if st.cur < st.slice.endAddr then
        match fuel with
        | 0 => none
        | fuel + 1 =>
            match parsePackedValue mem type st with
            | none => none
            | some st =>
                let values :=
                  if idx = 0 then values.map (storePacked type st.v)
                  else values ++ [storePacked type st.v (newValue (junk (.element idx)))]
                decodePackedLoop junk mem type fuel (idx + 1) st values
      else some values

def decodePacked (junk : Junk) (mem : Mem) (type : FieldType) (f : Field) : Option Field :=
  match f.values with
  | [v] =>
      (decodePackedLoop junk mem type (2 ^ 64) 0 (startState junk (embeddedSlice v)) [v]).map fun values =>
        { f with decoded := true, values := values }
  | _ => none

/-- `DecodeField`. -/
def decodeField (env : Env) (w : World) (f : Field) : Option (World × Field) :=
  match f.fieldDescriptor with
  | none => none
  | some fd =>
      if fd.packed then (decodePacked env.junk w.mem fd.type f).map fun f => (w, f)
      else
        match fd.type with
        | .int32 | .int64 | .uint32 | .uint64 | .bool | .enum => (decodeVarint env.junk w.mem f).map fun f => (w, f)
        | .sint32 | .sint64 => (decodeVarintWithZigZag env.junk w.mem fd.type f).map fun f => (w, f)
        | .fixed32 | .fixed64 | .sfixed32 | .sfixed64 | .double | .float => (decodeFixed w.mem fd.type f).map fun f => (w, f)
        | .string | .bytes => (decodeString env.junk w.mem fd.type f).map fun f => (w, f)
        | .message =>
            (decodeMessages env fd.messageType w f.values).map fun r => (r.1, { f with decoded := true, values := r.2 })
        | .group => none

/-! ## Values -/

/-- `DecodeUInt64`: the low half, and the high half that goes to `*hi`. -/
def decodeUInt64 (val : Nat) : Nat × Nat := (val &&& 0xffffffff, (val >>> 32) &&& 0xffffffff)

/-- The argument of `SetInteger` and `AddInteger`. -/
def joinWords (low hi : UInt32) : Nat := (hi.toNat <<< 32) % 2 ^ 64 ||| low.toNat

/-- `Helper::SetInteger`. -/
def setIntegerValue (type : FieldType) (val : Nat) (v : Value) : Option Value :=
  match type with
  | .sint32 | .int32 | .uint32 | .bool | .enum | .int64 | .uint64 | .sint64 => some { v with primitive := val }
  | .sfixed32 | .fixed32 => some (v.setF val)
  | .fixed64 | .sfixed64 => some { v with primitive := val }
  | _ => none

/-- `Helper::SetReal`. -/
def setRealValue (env : Env) (type : FieldType) (val : UInt64) (v : Value) : Option Value :=
  match type with
  | .float => some (v.setF (env.narrow val).toNat)
  | .double => some { v with primitive := val.toNat }
  | _ => none

/-- `Helper::SetString`. -/
def setStringValue (type : FieldType) (val : List UInt8) (v : Value) : Option Value :=
  if type = .bytes ∨ type = .string then some { v with s := val } else none

/-- `RetrieveIntegerValue`. -/
def retrieveIntegerValue (f : Field) (idx : Nat) : Option Nat :=
  match f.fieldDescriptor, f.values[idx]? with
  | some fd, some v =>
      match fd.type with
      | .int32 | .uint32 | .bool | .enum | .int64 | .uint64 | .sint32 | .sint64 => some v.primitive
      | .sfixed32 | .fixed32 => some v.f
      | .fixed64 | .sfixed64 => some v.primitive
      | _ => none
  | _, _ => none

/-- `RetrieveRealValue`. -/
def retrieveRealValue (env : Env) (f : Field) (idx : Nat) : Option UInt64 :=
  match f.fieldDescriptor, f.values[idx]? with
  | some fd, some v =>
      match fd.type with
      | .double => some (UInt64.ofNat v.primitive)
      | .float => some (env.widen (UInt32.ofNat v.f))
      | _ => none
  | _, _ => none

/-! ## Fields -/

/-- `AddKnownField`, up to the insertion. -/
def knownField (fd : FieldDescriptor) : Option Field :=
  (getFieldWireType fd).map fun wireType => ⟨true, false, fd.number, wireType, some fd, []⟩

/-- `CheckInteger`, `CheckReal`, `CheckString` and `CheckMessage`. -/
def Descriptor.check (d : Descriptor) (kind : FieldType → Bool) (name : String) : Option FieldDescriptor :=
  (d.findFieldByName name).filter fun fd => kind fd.type

def checkValidIndex (f : Field) (fd : FieldDescriptor) (idx : Nat) : Bool := !(fd.isRepeated && f.values.length ≤ idx)

/-- Change the fields of a message. -/
def World.change (w : World) (p : MessagePtr) (g : FieldMap → FieldMap) : World :=
  { w with messages := w.messages.modify p fun m => { m with fields := g m.fields } }

/-- Put a field in the place of the one with its number. -/
def World.store (w : World) (p : MessagePtr) (f : Field) : World := w.change p fun fields => fields.modify f.id fun _ => f

/-- `TryDecodeField`, on a field of a message. -/
def World.tryDecodeField (env : Env) (w : World) (p : MessagePtr) (f : Field) : Option (World × Field) :=
  if f.decoded then some (w, f) else (decodeField env w f).map fun r => (r.1.store p r.2, r.2)

/-- What every accessor begins with: the descriptor of the field, and the field. -/
def World.lookup (env : Env) (w : World) (p : MessagePtr) (kind : FieldType → Bool) (name : String) :
    Option (FieldDescriptor × Option Field) := do
  let m ← w.messages[p]?
  let fd ← (env.pool m.descriptor).check kind name
  return (fd, m.fields.find fd.number)

/-- What an accessor does with an index: `CheckValidIndex`, `TryDecodeField`, and index 0 for a field that is not repeated. -/
def World.access (env : Env) (w : World) (p : MessagePtr) (fd : FieldDescriptor) (f : Field) (idx : Nat) :
    Option (World × Field × Nat) := do
  guard (checkValidIndex f fd idx)
  let (w, f) ← w.tryDecodeField env p f
  return (w, f, if fd.isRepeated then idx else 0)

/-! ## `Get` -/

section Get

variable {β : Type} (env : Env) (w : World) (p : MessagePtr)

/-- `GetInteger`, `GetReal`, `GetString` and `GetMessage`. -/
def World.get (kind : FieldType → Bool) (default : FieldDescriptor → Option β) (read : Field → Nat → Option β) (name : String)
    (idx : Nat) : Option (World × β) := do
  match ← w.lookup env p kind name with
  | (fd, none) => return (w, ← default fd)
  | (fd, some f) =>
      let (w, f, idx) ← w.access env p fd f idx
      return (w, ← read f idx)

/-- The text of a value. -/
def readString (f : Field) (idx : Nat) : Option (List UInt8) := f.values[idx]?.map Value.s

def readMessage (f : Field) (idx : Nat) : Option (Option MessagePtr) := f.values[idx]?.map Value.m

/-- The default of an empty repeated field is asserted away. -/
def World.getInteger : String → Nat → Option (World × Nat × Nat) :=
  w.get env p FieldType.isInteger
    (fun fd => if fd.isRepeated then none else some (decodeUInt64 fd.defaultInteger))
    (fun f idx => (retrieveIntegerValue f idx).map decodeUInt64)

def World.getReal : String → Nat → Option (World × UInt64) :=
  w.get env p FieldType.isReal (fun fd => some (UInt64.ofNat fd.defaultReal)) (retrieveRealValue env)

def World.getString : String → Nat → Option (World × List UInt8) :=
  w.get env p FieldType.isString (fun fd => some fd.defaultString) readString

/-- The result `none` is a null pointer. -/
def World.getMessage : String → Nat → Option (World × Option MessagePtr) :=
  w.get env p FieldType.isMessage (fun _ => some none) readMessage

/-- `GetFieldSize`. -/
def World.getFieldSize (name : String) : Option (World × Nat) := do
  match ← w.lookup env p (fun _ => true) name with
  | (_, none) => return (w, 0)
  | (_, some f) =>
      let (w, f) ← w.tryDecodeField env p f
      return (w, f.values.length)

/-- `has_field(name)`. -/
def World.hasField (name : String) : Bool :=
  match w.lookup env p (fun _ => true) name with
  | some (_, some _) => true
  | _ => false

end Get

/-! ## `Set`, `Add` and `Delete` -/

section Change

variable {β : Type} (env : Env) (w : World) (p : MessagePtr)

/-- A field that is not there is added, with one value. -/
def World.addField (fd : FieldDescriptor) (v : Value) : Option World := do
  let f ← knownField fd
  return w.change p (FieldMap.insert { f with values := [v] })

/-- `SetInteger`, `SetReal` and `SetString`: `fresh` sets a new value, `stored` one that is there. -/
def World.set (kind : FieldType → Bool) (fresh stored : FieldType → Value → Option Value) (name : String) (idx : Nat) :
    Option World := do
  match ← w.lookup env p kind name with
  | (fd, none) =>
      let v ← fresh fd.type (newValue (env.junk .made))
      w.addField p fd v
  | (fd, some f) =>
      let (w, f, idx) ← w.access env p fd f idx
      let v ← f.values[idx]?
      let v ← stored fd.type v
      return w.store p { f with values := f.values.set idx v }

def World.setInteger (name : String) (idx : Nat) (low hi : UInt32) : Option World :=
  let val := joinWords low hi
  w.set env p FieldType.isInteger (fun type => setIntegerValue type val) (fun type => setIntegerValue type val) name idx

def World.setReal (name : String) (idx : Nat) (val : UInt64) : Option World :=
  w.set env p FieldType.isReal (fun type => setRealValue env type val) (fun type => setRealValue env type val) name idx

/-- A value that is there is assigned to without a look at the type. -/
def World.setString (name : String) (idx : Nat) (val : List UInt8) : Option World :=
  w.set env p FieldType.isString (fun type => setStringValue type val) (fun _ v => some { v with s := val }) name idx

/-- `AddInteger`, `AddReal`, `AddString` and `AddMessage`; `make` makes the value. -/
def World.add (kind : FieldType → Bool) (make : World → FieldDescriptor → Option (World × Value)) (name : String) :
    Option (World × Value) := do
  match ← w.lookup env p kind name with
  | (fd, none) =>
      let (w, v) ← make w fd
      return (← w.addField p fd v, v)
  | (fd, some f) =>
      guard fd.isRepeated
      let (w, f) ← w.tryDecodeField env p f
      let (w, v) ← make w fd
      return (w.store p { f with values := f.values ++ [v] }, v)

/-- A new value that a setter sets. -/
def makeValue (env : Env) (set : FieldType → Value → Option Value) (w : World) (fd : FieldDescriptor) : Option (World × Value) :=
  (set fd.type (newValue (env.junk .made))).map fun v => (w, v)

/-- `MakeMessage`, in a new value. -/
def makeMessage (env : Env) (w : World) (fd : FieldDescriptor) : Option (World × Value) := do
  guard (fd.type = .message)
  return ({ w with messages := w.messages ++ [newMessage fd.messageType] }, { newValue (env.junk .made) with m := some w.messages.length })

def World.addInteger (name : String) (low hi : UInt32) : Option World :=
  (w.add env p FieldType.isInteger (makeValue env fun type => setIntegerValue type (joinWords low hi)) name).map Prod.fst

def World.addReal (name : String) (val : UInt64) : Option World :=
  (w.add env p FieldType.isReal (makeValue env fun type => setRealValue env type val) name).map Prod.fst

def World.addString (name : String) (val : List UInt8) : Option World :=
  (w.add env p FieldType.isString (makeValue env fun type => setStringValue type val) name).map Prod.fst

def World.addMessage (name : String) : Option (World × Option MessagePtr) :=
  (w.add env p FieldType.isMessage (makeMessage env) name).map fun r => (r.1, r.2.m)

/-- `DeleteInteger`, `DeleteReal`, `DeleteString` and `DeleteMessage`: a field without values is erased. -/
def World.delete (kind : FieldType → Bool) (read : Field → Nat → Option β) (name : String) (idx : Nat) : Option (World × β) := do
  match ← w.lookup env p kind name with
  | (_, none) => none
  | (fd, some f) =>
      let (w, f, idx) ← w.access env p fd f idx
      let val ← read f idx
      -- `Field::Delete`
      guard (idx < f.values.length)
      let f := { f with values := f.values.eraseIdx idx }
      return (if f.values.isEmpty then w.change p fun fields => fields.erase f.id else w.store p f, val)

def World.deleteInteger : String → Nat → Option (World × Nat × Nat) :=
  w.delete env p FieldType.isInteger fun f idx => (retrieveIntegerValue f idx).map decodeUInt64

/-- The whole union, whatever the type. -/
def World.deleteReal : String → Nat → Option (World × UInt64) :=
  w.delete env p FieldType.isReal fun f idx => f.values[idx]?.map fun v => UInt64.ofNat v.primitive

def World.deleteString : String → Nat → Option (World × List UInt8) := w.delete env p FieldType.isString readString

def World.deleteMessage : String → Nat → Option (World × Option MessagePtr) := w.delete env p FieldType.isMessage readMessage

end Change

end CompactProtobuf
end Snippets
