import Snippets.CompactProtobuf.Api

/-!
# `CompactProtobuf.Calls` — the calls of a message as data

A run of a client is a list of calls. What a call returns is what is seen of it: a pointer to an embedded message is seen as
the message, since where it lies does not matter, and of the message only what has been set (`Message.shown`).
-/

namespace Snippets

open Lib

namespace CompactProtobuf

/-! ## What is seen of a message -/

/-- The member of `Value` that the values of a field are kept in, once decoded. -/
def Field.member (f : Field) : Option Member := f.fieldDescriptor.bind fun fd => fd.type.member

/-- What has been set in a value of a field that is not decoded. -/
def Value.encodedPart (wire : WireType) (v : Value) : Value :=
  ⟨v.encoded, if wire = .kLengthDelimited then v.primitive else 0, none, []⟩

/-- What has been set in a value of a decoded field. Of an embedded message it is only seen that it is there. -/
def Value.decodedPart (member : Option Member) (v : Value) : Value :=
  match member with
  | some .varint | some .d => ⟨⟨0, 0⟩, v.primitive, none, []⟩
  | some .f => ⟨⟨0, 0⟩, v.f, none, []⟩
  | some .s => ⟨⟨0, 0⟩, 0, none, v.s⟩
  | some .m => ⟨⟨0, 0⟩, 0, v.m.map fun _ => 0, []⟩
  | none => ⟨⟨0, 0⟩, 0, none, []⟩

/-- A field with nothing in its values but what has been set. -/
def Field.shown (f : Field) : Field :=
  { f with values := f.values.map (if f.decoded then Value.decodedPart f.member else Value.encodedPart f.wireType) }

def Message.shown (m : Message) : Message :=
  { m with fields := List.map Field.shown m.fields, unknownFields := m.unknownFields.map (List.map Field.shown) }

/-! ## Calls -/

/-- The calls of one message. -/
inductive Call
  | fromString (data len : Nat)
  | getInteger (name : String) (idx : Nat)
  | getReal (name : String) (idx : Nat)
  | getString (name : String) (idx : Nat)
  | getMessage (name : String) (idx : Nat)
  | getFieldSize (name : String)
  | setInteger (name : String) (idx : Nat) (low hi : UInt32)
  | setReal (name : String) (idx : Nat) (val : UInt64)
  | setString (name : String) (idx : Nat) (val : List UInt8)
  | addInteger (name : String) (low hi : UInt32)
  | addReal (name : String) (val : UInt64)
  | addString (name : String) (val : List UInt8)
  | addMessage (name : String)
  | deleteInteger (name : String) (idx : Nat)
  | deleteReal (name : String) (idx : Nat)
  | deleteString (name : String) (idx : Nat)
  | deleteMessage (name : String) (idx : Nat)

/-- What a call returns. -/
inductive Seen
  | done
  | parsed (ok : Bool)
  | integer (low hi : Nat)
  | real (val : UInt64)
  | string (s : List UInt8)
  | message (m : Option Message)
  | size (n : Nat)

/-- A pointer to a message is seen as the message. -/
def World.see (w : World) (q : Option MessagePtr) : Seen := .message ((q.bind fun q => w.messages[q]?).map Message.shown)

def Call.exec (env : Env) (p : MessagePtr) : Call → World → Option (World × Seen)
  | .fromString data len, w => (w.fromString env.pool env.junk p data len).map fun r => (r.1, .parsed r.2)
  | .getInteger name idx, w => (w.getInteger env p name idx).map fun r => (r.1, .integer r.2.1 r.2.2)
  | .getReal name idx, w => (w.getReal env p name idx).map fun r => (r.1, .real r.2)
  | .getString name idx, w => (w.getString env p name idx).map fun r => (r.1, .string r.2)
  | .getMessage name idx, w => (w.getMessage env p name idx).map fun r => (r.1, r.1.see r.2)
  | .getFieldSize name, w => (w.getFieldSize env p name).map fun r => (r.1, .size r.2)
  | .setInteger name idx low hi, w => (w.setInteger env p name idx low hi).map fun w => (w, .done)
  | .setReal name idx val, w => (w.setReal env p name idx val).map fun w => (w, .done)
  | .setString name idx val, w => (w.setString env p name idx val).map fun w => (w, .done)
  | .addInteger name low hi, w => (w.addInteger env p name low hi).map fun w => (w, .done)
  | .addReal name val, w => (w.addReal env p name val).map fun w => (w, .done)
  | .addString name val, w => (w.addString env p name val).map fun w => (w, .done)
  | .addMessage name, w => (w.addMessage env p name).map fun r => (r.1, r.1.see r.2)
  | .deleteInteger name idx, w => (w.deleteInteger env p name idx).map fun r => (r.1, .integer r.2.1 r.2.2)
  | .deleteReal name idx, w => (w.deleteReal env p name idx).map fun r => (r.1, .real r.2)
  | .deleteString name idx, w => (w.deleteString env p name idx).map fun r => (r.1, .string r.2)
  | .deleteMessage name idx, w => (w.deleteMessage env p name idx).map fun r => (r.1, r.1.see r.2)

/-- The calls that build a message. -/
def Call.builds : Call → Bool
  | .setInteger _ _ _ _ | .setReal _ _ _ | .setString _ _ _ | .addInteger _ _ _ | .addReal _ _ | .addString _ _
  | .addMessage _ => true
  | _ => false

/-- The calls that read a message. -/
def Call.reads : Call → Bool
  | .getInteger _ _ | .getReal _ _ | .getString _ _ | .getMessage _ _ | .getFieldSize _ => true
  | _ => false

/-- A call of the given sort on one of the messages from `p` on, whatever its values find in memory. -/
def CallStep (env : Env) (sort : Call → Bool) (p : MessagePtr) (w : World) (c : MessagePtr × Call) (w' : World) : Prop :=
  p ≤ c.1 ∧ sort c.2 = true ∧ ∃ junk seen, c.2.exec (env.withJunk junk) c.1 w = some (w', seen)

end CompactProtobuf
end Snippets
