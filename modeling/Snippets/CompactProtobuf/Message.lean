import Mathlib.Data.List.Nodup
import Snippets.CompactProtobuf.Wire

/-!
# `CompactProtobuf.Message` — descriptors, field maps and lazy parsing

The data model of `compact_protobuf.h` and the one-level parser `Helper::ParseMessageLazy` with `Message::Init`.
Descriptors belong to `google::protobuf`; what is used of them is a record, with what that library guarantees as
fields: unique numbers in `1 .. 2^29 - 1`, unique names, and `packed` only on repeated scalar fields.

A failing `assert`, and a loop that never ends, have no result (`none`). The parse loop is run for `2^64`
iterations: its course depends on the 64-bit `pos` alone, so a run that long repeats itself for ever.
-/

namespace Snippets

open Lib

namespace CompactProtobuf

/-! ## Descriptors -/

/-- `FieldDescriptor::Type`. -/
inductive FieldType
  | int32 | int64 | uint32 | uint64 | bool | enum | sint32 | sint64
  | fixed32 | fixed64 | sfixed32 | sfixed64 | double | float
  | string | bytes | message | group
deriving DecidableEq

/-- Types that may be packed: everything but strings, messages and groups. -/
def FieldType.packable : FieldType → Bool
  | .string | .bytes | .message | .group => false
  | _ => true

inductive Label
  | optional
  | required
  | repeated
deriving DecidableEq

structure FieldDescriptor where
  name : String
  number : Nat
  type : FieldType
  label : Label
  packed : Bool
  messageType : Nat
  defaultInteger : Nat
  defaultReal : Nat
  defaultString : List UInt8
  number_pos : 1 ≤ number
  number_lt : number < 2 ^ 29
  packed_repeated : packed = true → label = .repeated ∧ type.packable = true

/-! The facts that a field with the number 1, 2 or 3 is built from. -/

theorem firstNumber_pos : 1 ≤ 1 := le_refl 1

theorem firstNumber_lt : 1 < 2 ^ 29 := by decide

theorem secondNumber_pos : 1 ≤ 2 := by decide

theorem secondNumber_lt : 2 < 2 ^ 29 := by decide

theorem thirdNumber_pos : 1 ≤ 3 := by decide

theorem thirdNumber_lt : 3 < 2 ^ 29 := by decide

/-- A field that is not packed may have any label and type. -/
theorem unpacked_repeated {label : Label} {type : FieldType} (h : false = true) : label = .repeated ∧ type.packable = true :=
  Bool.noConfusion h

theorem packed_uint64 (_ : true = true) : Label.repeated = .repeated ∧ FieldType.uint64.packable = true := ⟨rfl, rfl⟩

def FieldDescriptor.isRepeated (fd : FieldDescriptor) : Bool := fd.label == .repeated

structure Descriptor where
  fields : List FieldDescriptor
  nodup_number : (fields.map FieldDescriptor.number).Nodup
  nodup_name : (fields.map FieldDescriptor.name).Nodup

/-- The message types of a descriptor pool. -/
abbrev Pool := Nat → Descriptor

def Descriptor.findFieldByNumber (d : Descriptor) (id : Int) : Option FieldDescriptor :=
  d.fields.find? fun fd => (fd.number : Int) = id

def Descriptor.findFieldByName (d : Descriptor) (name : String) : Option FieldDescriptor :=
  d.fields.find? fun fd => fd.name = name

/-! ## Fields -/

structure Field where
  decoded : Bool
  unknown : Bool
  id : Int
  wireType : WireType
  fieldDescriptor : Option FieldDescriptor
  values : List Value

/-- `Field::FastAppend`: only the encoded slice is copied, and for a length-delimited field `len`. -/
def Field.fastAppend (found : Found) (f : Field) (value : Value) : Field :=
  let v := { newValue found with encoded := value.encoded }
  let v := if f.wireType = .kLengthDelimited then { v with primitive := value.primitive } else v
  { f with values := f.values ++ [v] }

/-- `boost::ptr_map<int, Field>`, kept in the order of the keys. -/
abbrev FieldMap := List Field

namespace FieldMap

def find (fields : FieldMap) (id : Int) : Option Field := List.find? (fun f => f.id = id) fields

/-- Insertion under a key that is not there yet. -/
def insert (f : Field) : FieldMap → FieldMap
  | [] => [f]
  | g :: fields => if f.id < g.id then f :: g :: fields else g :: insert f fields

/-- Change the field with this key in place. -/
def modify (fields : FieldMap) (id : Int) (change : Field → Field) : FieldMap :=
  List.map (fun f => if f.id = id then change f else f) fields

def erase (fields : FieldMap) (id : Int) : FieldMap := List.filter (fun f => f.id ≠ id) fields

/-- `dst.transfer(src.find(id), src)`: nothing happens when the key is taken. -/
def transfer (id : Int) (dst src : FieldMap) : FieldMap × FieldMap :=
  match find src id with
  | none => (dst, src)
  | some f => if (find dst id).isSome then (dst, src) else (insert f dst, erase src id)

end FieldMap

/-! ## `ParseMessageLazy` -/

/-- The `fill fields` half of the loop body. -/
def fillField (junk : Junk) (d : Descriptor) (fields : FieldMap) (st : ParserState) : Option FieldMap :=
  match fields.find st.fieldId with
  | none =>
      -- no entry for this field id
      let fieldDescriptor := d.findFieldByNumber st.fieldId
      let field : Field := ⟨false, fieldDescriptor.isNone, st.fieldId, st.wireType, fieldDescriptor, []⟩
      some (FieldMap.insert (field.fastAppend (junk (.parsed st.cur)) st.v) fields)
  | some field =>
      if field.unknown then some (fields.modify st.fieldId (Field.fastAppend (junk (.parsed st.cur)) · st.v))
      else
        match field.fieldDescriptor with
        | none => none
        | some fd =>
            if fd.label = .repeated then some (fields.modify st.fieldId (Field.fastAppend (junk (.parsed st.cur)) · st.v))
            else if field.values.length = 1 then
              -- for optional or required field, we only save the new one
              some (fields.modify st.fieldId fun f => Field.fastAppend (junk (.parsed st.cur)) { f with values := [] } st.v)
            else none

/-- One iteration that ends with `kOk`, from a state in which the loop goes on. -/
def parseStep (junk : Junk) (mem : Mem) (d : Descriptor) (s : ParserState × FieldMap) :
    Option (ParserState × FieldMap) :=
  if s.1.cur < s.1.slice.endAddr then
    match parseRecord mem s.1 with
    | (.kOk, st) => (fillField junk d s.2 st).map fun fields => (st, fields)
    | _ => none
  else none

/-- The loop of `ParseMessageLazy`. -/
def parseLoop (junk : Junk) (mem : Mem) (d : Descriptor) :
    Nat → ParserState → FieldMap → Option (ParserStatus × FieldMap)
  | fuel, st, fields =>
      if st.cur < st.slice.endAddr then
        match fuel with
        | 0 => none
        | fuel + 1 =>
            match parseRecord mem st with
            | (.kOk, st) =>
                match fillField junk d fields st with
                | some fields => parseLoop junk mem d fuel st fields
                | none => none
            | (status, _) => some (status, fields)
      else some (.kOk, fields)

def checkAllRequiredField (fields : FieldMap) (d : Descriptor) : Bool :=
  d.fields.all fun fd => fd.label ≠ .required || (fields.find fd.number).isSome

/-- A `ParserState` at the start of a slice; its other members are not initialised. -/
def startState (junk : Junk) (slice : Slice) : ParserState := ⟨slice, 0, 0, .kVarint, newValue (junk (.state slice.start))⟩

def parseMessageLazy (junk : Junk) (mem : Mem) (d : Descriptor) (slice : Slice) (fields : FieldMap) :
    Option (Bool × FieldMap) :=
  if slice.start ≤ slice.endAddr then
    match parseLoop junk mem d (2 ^ 64) (startState junk slice) fields with
    | some (.kOk, fields) => if checkAllRequiredField fields d then some (true, fields) else none
    | some (_, fields) => some (false, fields)
    | none => none
  else none

/-! ## Messages -/

structure Message where
  descriptor : Nat
  fields : FieldMap
  unknownFields : Option FieldMap

/-- `Message::Message(descriptor)`. -/
def newMessage (descriptor : Nat) : Message := ⟨descriptor, [], none⟩

/-- The second half of `Message::Init`: unknown fields move to their own map. -/
def splitUnknown (m : Message) : Message :=
  let unknownKeys := (m.fields.filter Field.unknown).map Field.id
  let target := if unknownKeys.isEmpty then m.unknownFields else some (m.unknownFields.getD [])
  match target with
  | none => m
  | some target =>
      let (target, fields) := unknownKeys.foldl (fun s key => FieldMap.transfer key s.1 s.2) (target, m.fields)
      { m with fields := fields, unknownFields := some target }

/-- `Message::Init`. -/
def Message.init (pool : Pool) (junk : Junk) (mem : Mem) (m : Message) (slice : Slice) : Option (Bool × Message) :=
  match parseMessageLazy junk mem (pool m.descriptor) slice m.fields with
  | some (true, fields) => some (true, splitUnknown { m with fields := fields })
  | some (false, fields) => some (false, { m with fields := fields })
  | none => none

/-- The slice `FromString` parses: `len` bytes at `data`. -/
def stringSlice (data len : Nat) : Slice := ⟨data, toSize (data + len)⟩

end CompactProtobuf
end Snippets
