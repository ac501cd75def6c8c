import Snippets.CompactProtobuf.Load

/-!
# `CompactProtobuf.Encoder` — `pb_parser/src/protobuf_encoder.cc`

`EncoderBuffer` is an unbounded byte sequence, so every encoder returns the bytes it appends. A result has two
layers: the outer `none` is a failing assert (or a recursion that does not end), the inner `none` the `false` of a
missing required field.

Embedded messages are reached through pointers. `EncodeMessage` follows them as deep as there are messages; deeper
than that the pointers run in a circle, and the recursion of the source does not end.
-/

namespace Snippets

open Lib

namespace CompactProtobuf

/-- Memory and the messages that live in it. -/
structure World where
  mem : Mem
  messages : List Message

/-- What an encoder appends. -/
abbrev Encoded := Option (Option (List UInt8))

/-- Run an encoder over a list, until one fails. -/
def encodeAll {α : Type} (encode : α → Encoded) : List α → Encoded
  | [] => some (some [])
  | x :: xs =>
      match encode x with
      | some (some bytes) => (encodeAll encode xs).map (Option.map (bytes ++ ·))
      | r => r

/-! ## Varints and fixed-width values -/

/-- The `do` loop of `EncodeVarint`; the counter is how often `len <= 10` still holds. -/
def encodeVarintLoop : Nat → Nat → List UInt8
  | 0, _ => []
  | n + 1, val =>
      let byte := UInt8.ofNat (val &&& 0x7f)
      let val := val >>> 7
      if val ≠ 0 then (byte ||| 0x80) :: encodeVarintLoop n val else [byte]

/-- `EncodeVarint(uint64_t, EncoderBuffer*)`. -/
def encodeVarint (val : Nat) : List UInt8 := encodeVarintLoop 11 val

/-- `ZigZagEncode`. -/
def zigZagEncode (value : Value) (type : FieldType) : Option Nat :=
  match type with
  | .sint32 =>
      let val := value.primitive % 2 ^ 32
      some ((val <<< 1 % 2 ^ 32) ^^^ (val >>> 31))
  | .sint64 => some ((value.primitive <<< 1 % 2 ^ 64) ^^^ (value.primitive >>> 63))
  | _ => none

/-- `EncodeVarint(const Value&, Type, EncoderBuffer*)`. -/
def encodeVarintValue (type : FieldType) (value : Value) : Encoded :=
  match type with
  | .sint32 | .sint64 => (zigZagEncode value type).map fun val => some (encodeVarint val)
  | .int32 | .int64 | .uint32 | .uint64 | .enum => some (some (encodeVarint value.primitive))
  | .bool => some (some (encodeVarint (if value.primitive = 0 then 0 else 1)))
  | _ => none

def encode32Bit (value : Value) : List UInt8 := toLe 4 value.f

def encode64Bit (value : Value) : List UInt8 := toLe 8 value.primitive

/-- One element of `EncodePackedField`. -/
def encodePackedValue (type : FieldType) (value : Value) : Encoded :=
  match type with
  | .sint32 | .sint64 | .int32 | .int64 | .uint32 | .uint64 | .bool | .enum => encodeVarintValue type value
  | .fixed32 | .sfixed32 | .float => some (some (encode32Bit value))
  | .fixed64 | .sfixed64 | .double => some (some (encode64Bit value))
  | .string | .bytes | .message | .group => none

/-! ## Fields -/

/-- `tag_buf`: the id as a `uint32_t`, shifted, with the wire type. -/
def tagBytes (f : Field) : List UInt8 :=
  encodeVarint (((f.id % 2 ^ 32).toNat <<< 3) % 2 ^ 32 ||| f.wireType.code)

/-- `buf->Append(value.encoded)`. -/
def appendSlice (mem : Mem) (slice : Slice) : Encoded :=
  if slice.start ≤ slice.endAddr then some (some (mem.read slice.start (slice.endAddr - slice.start))) else none

/-- Every value under the tag of the field. -/
def encodeTagged (f : Field) (encode : Value → Encoded) : Encoded :=
  encodeAll (fun value => (encode value).map (Option.map (tagBytes f ++ ·))) f.values

/-- `EncodeVarint(size, &len_buf)` followed by the data. -/
def delimit (data : List UInt8) : List UInt8 := encodeVarint data.length ++ data

/-- The fields of `unknown_fields`, and fields that were never decoded, are copied. -/
def encodeRaw (mem : Mem) (f : Field) : Encoded := encodeTagged f fun value => appendSlice mem value.encoded

/-- One iteration of the first loop of `EncodeMessage`; `embedded` encodes an embedded message. -/
def encodeField (mem : Mem) (embedded : MessagePtr → Encoded) (f : Field) : Encoded :=
  if !f.decoded then encodeRaw mem f
  else
    match f.fieldDescriptor with
    | none => none
    | some fd =>
        match f.wireType with
        | .kLengthDelimited =>
            if fd.packed then
              -- repeated packed
              (encodeAll (encodePackedValue fd.type) f.values).map (Option.map fun packed =>
                tagBytes f ++ delimit packed)
            else if fd.type = .message then
              encodeTagged f fun value =>
                match value.m with
                | none => none
                | some m => (embedded m).map (Option.map delimit)
            else encodeTagged f fun value => some (some (delimit value.s))
        | .kVarint => encodeTagged f (encodeVarintValue fd.type)
        | .k64Bits => encodeTagged f fun value => some (some (encode64Bit value))
        | .k32Bits => encodeTagged f fun value => some (some (encode32Bit value))

/-- `EncodeMessage(const FieldMap&, const FieldMap*, EncoderBuffer*)`. -/
def encodeFields (mem : Mem) (embedded : MessagePtr → Encoded) (m : Message) : Encoded :=
  match encodeAll (encodeField mem embedded) m.fields with
  | some (some known) => (encodeAll (encodeRaw mem) (m.unknownFields.getD [])).map (Option.map (known ++ ·))
  | r => r

/-- `EncodeMessage(const Message*, EncoderBuffer*)`. -/
def encodeMessage (pool : Pool) (w : World) : Nat → MessagePtr → Encoded
  | 0, _ => none
  | depth + 1, p =>
      match w.messages[p]? with
      | none => none
      | some m =>
          if checkAllRequiredField m.fields (pool m.descriptor) then
            encodeFields w.mem (encodeMessage pool w depth) m
          else some none

/-! ## `FromString` and `ToString` -/

/-- `Message::FromString`: the string is `len` bytes at `data`. -/
def World.fromString (pool : Pool) (junk : Junk) (w : World) (p : MessagePtr) (data len : Nat) : Option (World × Bool) :=
  match w.messages[p]? with
  | none => none
  | some m =>
      (m.init pool junk w.mem (stringSlice data len)).map fun r => ({ w with messages := w.messages.set p r.2 }, r.1)

/-- `Message::ToString`: `some none` is its `false`. -/
def World.toString (pool : Pool) (w : World) (p : MessagePtr) : Encoded :=
  encodeMessage pool w (w.messages.length + 1) p

/-! ## What the encoders append -/

variable {α : Type} {encode : α → Encoded}

@[simp] theorem encodeAll_nil : encodeAll encode [] = some (some []) := rfl

theorem encodeAll_cons_of_some {x : α} {xs : List α} {bytes rest : List UInt8} (hx : encode x = some (some bytes))
    (hxs : encodeAll encode xs = some (some rest)) : encodeAll encode (x :: xs) = some (some (bytes ++ rest)) := by
  unfold encodeAll
  rw [hx, hxs]
  rfl

theorem encodeAll_congr {encode' : α → Encoded} {xs : List α} (h : ∀ x ∈ xs, encode x = encode' x) :
    encodeAll encode xs = encodeAll encode' xs := by
  induction xs with
  | nil => rfl
  | cons x xs ih =>
      unfold encodeAll
      rw [h x List.mem_cons_self, ih fun y hy => h y (List.mem_cons_of_mem _ hy)]

/-- When every element has bytes, so has the list. -/
theorem encodeAll_eq {xs : List α} {bytes : α → List UInt8} (h : ∀ x ∈ xs, encode x = some (some (bytes x))) :
    encodeAll encode xs = some (some (xs.map bytes).flatten) := by
  induction xs with
  | nil => rfl
  | cons x xs ih =>
      apply encodeAll_cons_of_some (h x List.mem_cons_self)
      apply ih
      intro y hy
      exact h y (List.mem_cons_of_mem _ hy)

/-- `Append` of a slice copies the bytes it holds. -/
theorem Placed.appendSlice {mem : Mem} {slice : Slice} {bs : List UInt8} (h : Placed mem slice bs) :
    CompactProtobuf.appendSlice mem slice = some (some bs) := by
  have hend := h.endAddr
  unfold CompactProtobuf.appendSlice
  rw [if_pos (by omega), hend, Nat.add_sub_cancel_left, Mem.holds_iff_read.mp h.holds]

/-- A field that was not decoded is copied. -/
theorem encodeField_undecoded {mem : Mem} {f : Field} (embedded : MessagePtr → Encoded) (hdec : f.decoded = false) :
    encodeField mem embedded f = encodeRaw mem f := by
  unfold encodeField
  rw [hdec]
  rfl

theorem length_le_delimit (data : List UInt8) : data.length ≤ (delimit data).length := by
  unfold delimit
  rw [List.length_append]
  exact Nat.le_add_left _ _

theorem encodeVarintLoop_eq (n v : Nat) : encodeVarintLoop n v = Varint.digits n v := by
  induction n generalizing v with
  | zero => rfl
  | succ n ih =>
      have hand : v &&& 0x7f = v % 128 := Nat.and_two_pow_sub_one_eq_mod v 7
      have hshift : v >>> 7 = v / 128 := Nat.shiftRight_eq_div_pow v 7
      unfold encodeVarintLoop Varint.digits
      simp only [hand, hshift, ih]
      by_cases hv : v < 128
      · have hzero : v / 128 = 0 := by omega
        have hmod : v % 128 = v := by omega
        rw [if_pos hv, hzero, hmod]
        simp
      · have hne : v / 128 ≠ 0 := by omega
        rw [if_neg hv, if_pos hne]
        -- the continuation bit is free in a seven-bit group
        have hor : UInt8.ofNat (v % 128) ||| 0x80 = UInt8.ofNat (v % 128 + 128) := by
          apply UInt8.toNat_inj.mp
          rw [UInt8.toNat_or, Varint.toNat_ofNat_of_lt (by omega), Varint.toNat_ofNat_of_lt (by omega)]
          have hlt : v % 128 < 2 ^ 7 := by omega
          have h := Nat.two_pow_add_eq_or_of_lt hlt 1
          rw [Nat.or_comm] at h
          rw [Nat.add_comm]
          exact h.symm
        rw [hor]

/-- `EncodeVarint` of a 64-bit word is its shortest varint, of at most ten bytes. -/
theorem encodeVarint_varint10 {v : Nat} (hv : v < 2 ^ 64) :
    Varint10 (encodeVarint v) ∧ Varint.value (encodeVarint v) = v := by
  have h10 : v < 128 ^ (9 + 1) := lt_trans hv (by decide)
  have heq : encodeVarint v = Varint.digits 10 v := by
    unfold encodeVarint
    rw [encodeVarintLoop_eq]
    exact Varint.digits_succ_of_lt h10
  rw [heq]
  exact ⟨⟨Varint.digits_complete h10, Varint.digits_length_le 10 v⟩, Varint.value_digits h10⟩

/-- The varint at the front of a string. -/
theorem varintVal_encode {x : Nat} (hx : x < 2 ^ 64) (rest : List UInt8) : varintVal (encodeVarint x ++ rest) = x := by
  obtain ⟨h10, hvalue⟩ := encodeVarint_varint10 hx
  rw [varintVal_complete h10.1 h10.2, hvalue, Nat.mod_eq_of_lt hx]

theorem varintLen_encode {x : Nat} (hx : x < 2 ^ 64) (rest : List UInt8) :
    varintLen (encodeVarint x ++ rest) = (encodeVarint x).length := by
  obtain ⟨h10, -⟩ := encodeVarint_varint10 hx
  exact varintLen_complete h10.1 h10.2

/-- A varint shows where it ends. -/
theorem encodeVarint_append_inj {x y : Nat} {rest rest' : List UInt8} (hx : x < 2 ^ 64) (hy : y < 2 ^ 64)
    (h : encodeVarint x ++ rest = encodeVarint y ++ rest') : x = y ∧ rest = rest' := by
  have hval := congrArg varintVal h
  rw [varintVal_encode hx, varintVal_encode hy] at hval
  subst hval
  exact ⟨rfl, List.append_cancel_left h⟩

end CompactProtobuf
end Snippets
