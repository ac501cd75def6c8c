import Snippets.CompactProtobuf.Decoding

/-!
# `CompactProtobuf.Replaced` — a field whose value a record has replaced

A record that is read for a field that is not repeated takes the place of its value. The field keeps its header, and what it
holds then is a value with the slice of the record and no decoded member set (`Field.unset`). In a field that was not decoded
this goes unnoticed when the payload bytes are the same and are decoded alike; in a decoded one, when the value that was there
is read and written as one that was never set (`keptField_iff`).
-/

namespace Snippets

open Lib

namespace CompactProtobuf

variable {env : Env} {w : World} {fd : FieldDescriptor} {f f' : Field} {u v : Value} {mem : Mem}

/-! ## What is the same -/

/-- The field as an accessor finds it. -/
def World.opened (env : Env) (w : World) (f : Field) : Option Field :=
  if f.decoded then some f else (decodeField env w f).map Prod.snd

/-- What the four accessors read at an index. -/
def Field.reading (env : Env) (f : Field) (idx : Nat) :
    Option Nat × Option UInt64 × Option (List UInt8) × Option (Option MessagePtr) :=
  (retrieveIntegerValue f idx, retrieveRealValue env f idx, readString f idx, readMessage f idx)

/-- Two fields that hold as many values, have the same size, are read alike and are written alike. -/
structure KeptField (env : Env) (w : World) (f f' : Field) : Prop where
  header : f' = { f with values := f'.values }
  count : f'.values.length = f.values.length
  size : (w.opened env f').map (·.values.length) = (w.opened env f).map (·.values.length)
  reading : ∀ idx, (w.opened env f').map (Field.reading env · idx) = (w.opened env f).map (Field.reading env · idx)
  bytes : ∀ embedded, encodeField w.mem embedded f' = encodeField w.mem embedded f

theorem KeptField.id_eq (h : KeptField env w f f') : f'.id = f.id := by rw [h.header]

theorem KeptField.refl : KeptField env w f f := ⟨rfl, rfl, rfl, fun _ => rfl, fun _ => rfl⟩

/-! ## The value that a record leaves -/

/-- The value that a record leaves in a field. -/
def Field.unset (junk : Junk) (st : ParserState) (f : Field) : Value :=
  let v := { newValue (junk (.parsed st.cur)) with encoded := st.v.encoded }
  if f.wireType = .kLengthDelimited then { v with primitive := st.v.primitive } else v

/-- A field whose value is replaced. -/
def Field.replaced (junk : Junk) (st : ParserState) (f : Field) : Field :=
  Field.fastAppend (junk (.parsed st.cur)) { f with values := [] } st.v

theorem replaced_eq (junk : Junk) (st : ParserState) (f : Field) : f.replaced junk st = { f with values := [f.unset junk st] } := rfl

/-! ## Values that are read and written alike -/

/-- What the four accessors read of two values in a field of this type. -/
def ReadAlike (env : Env) (type : FieldType) (v u : Value) : Prop :=
  u.s = v.s ∧ u.m = v.m ∧
    match type with
    | .int32 | .int64 | .uint32 | .uint64 | .bool | .enum | .sint32 | .sint64 | .fixed64 | .sfixed64 => u.primitive = v.primitive
    | .fixed32 | .sfixed32 => u.f = v.f
    | .double => UInt64.ofNat u.primitive = UInt64.ofNat v.primitive
    | .float => env.widen (UInt32.ofNat u.f) = env.widen (UInt32.ofNat v.f)
    | .string | .bytes | .message | .group => True

/-- What is written of the bits of two values; a wire type that the parser has read need not be that of the type. -/
def WrittenAlike (wireType : WireType) (v u : Value) : Prop :=
  match wireType with
  | .k64Bits => encode64Bit u = encode64Bit v
  | .k32Bits => encode32Bit u = encode32Bit v
  | .kVarint | .kLengthDelimited => True

/-- What a value is decoded to, in a field that is not packed. -/
def World.decodeValue (env : Env) (w : World) (f : Field) (v : Value) : Option Value :=
  (decodeField env w { f with values := [v] }).bind fun r => r.2.values.head?

/-- A field with the value `v` holds what `u` would bring: the payload bytes, decoded alike, as long as it was not decoded,
    and the members that are read and written if it was. -/
def HoldsAlready (env : Env) (w : World) (fd : FieldDescriptor) (f : Field) (v u : Value) : Prop :=
  if f.decoded then ReadAlike env fd.type v u ∧ WrittenAlike f.wireType v u
  else appendSlice w.mem u.encoded = appendSlice w.mem v.encoded ∧
    Option.Rel (ReadAlike env fd.type) (w.decodeValue env f v) (w.decodeValue env f u)

/-! ## Reading -/

theorem reading_single_iff (hfd : f.fieldDescriptor = some fd) :
    (∀ idx, Field.reading env { f with values := [u] } idx = Field.reading env { f with values := [v] } idx) ↔
      ReadAlike env fd.type v u := by
  -- there is nothing behind the one value
  have hnone : ∀ (x : Value) (idx : Nat), Field.reading env { f with values := [x] } (idx + 1) = (none, none, none, none) := by
    intro x idx
    simp [Field.reading, retrieveIntegerValue, retrieveRealValue, readString, readMessage]
  have hzero : Field.reading env { f with values := [u] } 0 = Field.reading env { f with values := [v] } 0 ↔
      ReadAlike env fd.type v u := by
    unfold Field.reading retrieveIntegerValue retrieveRealValue readString readMessage ReadAlike
    cases htype : fd.type <;> simp [hfd, htype] <;> tauto
  rw [← hzero]
  constructor
  · intro h
    exact h 0
  · rintro h (_ | idx)
    · exact h
    · rw [hnone, hnone]

/-- A field that is not packed is opened by decoding its one value. -/
theorem opened_single (w : World) (v : Value) (hdec : f.decoded = false) (hfd : f.fieldDescriptor = some fd)
    (hpacked : fd.packed = false) : w.opened env { f with values := [v] } =
      (w.decodeValue env f v).map fun x => { f with decoded := true, values := [x] } := by
  unfold World.opened World.decodeValue
  rw [if_neg (by rw [hdec]; exact Bool.false_ne_true)]
  cases hr : decodeField env w { f with values := [v] } with
  | none => rfl
  | some r =>
      obtain ⟨w₁, g⟩ := r
      obtain ⟨hheader, -, hlen⟩ := decodeField_spec (p := 0) (f := { f with values := [v] }) hfd hr
      rw [hpacked, if_neg Bool.false_ne_true] at hlen
      obtain ⟨x, hx⟩ := List.length_eq_one_iff.mp hlen
      show some g = (g.values.head?).map _
      rw [hheader, hx]
      rfl

/-! ## Writing -/

theorem encodeTagged_single (f : Field) (encode : Value → Encoded) (v : Value) :
    encodeTagged { f with values := [v] } encode = (encode v).map (Option.map (tagBytes f ++ ·)) := by
  unfold encodeTagged
  rcases hv : encode v with _ | _ | bytes
  · simp [encodeAll, hv]
  · simp [encodeAll, hv]
  · simp only [encodeAll, hv, Option.map_some, List.append_nil]
    rfl

/-- The tag is the same, so that what is behind it must be. -/
theorem encodeTagged_single_iff {encode : Value → Encoded} : encodeTagged { f with values := [u] } encode =
    encodeTagged { f with values := [v] } encode ↔ encode u = encode v := by
  rw [encodeTagged_single, encodeTagged_single]
  rcases encode u with _ | _ | bytes <;> rcases encode v with _ | _ | bytes' <;> simp

/-- How a decoded field that is not packed writes a value: the wire type decides, not the type. -/
def writeValue (embedded : MessagePtr → Encoded) (fd : FieldDescriptor) (wireType : WireType) (v : Value) : Encoded :=
  match wireType with
  | .kVarint => encodeVarintValue fd.type v
  | .k64Bits => some (some (encode64Bit v))
  | .k32Bits => some (some (encode32Bit v))
  | .kLengthDelimited =>
      if fd.type = .message then
        match v.m with
        | none => none
        | some m => (embedded m).map (Option.map delimit)
      else some (some (delimit v.s))

theorem encodeField_eq_writeValue {embedded : MessagePtr → Encoded} (hdec : f.decoded = true) (hfd : f.fieldDescriptor = some fd)
    (hpacked : fd.packed = false) : encodeField mem embedded f = encodeTagged f (writeValue embedded fd f.wireType) := by
  have hundecoded : ¬(!f.decoded) = true := by simp [hdec]
  unfold encodeField writeValue
  rw [if_neg hundecoded, hfd]
  cases f.wireType <;> simp only [hpacked, Bool.false_eq_true, if_false]
  split <;> rfl

/-- Values that are read alike are written alike, but for the bits under a wire type that is not that of the type. -/
theorem writeValue_iff (hread : ReadAlike env fd.type v u) (wireType : WireType) :
    (∀ embedded, writeValue embedded fd wireType u = writeValue embedded fd wireType v) ↔ WrittenAlike wireType v u := by
  obtain ⟨hs, hm, hnumber⟩ := hread
  unfold writeValue WrittenAlike
  cases wireType with
  | kVarint =>
      refine iff_of_true (fun _ => ?_) trivial
      unfold encodeVarintValue zigZagEncode
      revert hnumber
      cases fd.type <;> intro hnumber <;> first | rfl | simp only [hnumber]
  | kLengthDelimited => exact iff_of_true (fun _ => by rw [hs, hm]) trivial
  | k64Bits => simp
  | k32Bits => simp

theorem encodeField_single_iff (hdec : f.decoded = true) (hfd : f.fieldDescriptor = some fd) (hpacked : fd.packed = false)
    (hread : ReadAlike env fd.type v u) :
    (∀ embedded, encodeField mem embedded { f with values := [u] } = encodeField mem embedded { f with values := [v] }) ↔
      WrittenAlike f.wireType v u := by
  rw [← writeValue_iff hread]
  refine forall_congr' fun embedded => ?_
  have hwritten : ∀ x : Value, encodeField mem embedded { f with values := [x] } =
      encodeTagged { f with values := [x] } (writeValue embedded fd f.wireType) := by
    intro x
    rw [encodeField_eq_writeValue (f := { f with values := [x] }) hdec hfd hpacked]
  rw [hwritten, hwritten, encodeTagged_single_iff]

/-! ## The field -/

theorem keptField_single_iff (hfd : f.fieldDescriptor = some fd) (hpacked : fd.packed = false) :
    KeptField env w { f with values := [v] } { f with values := [u] } ↔ HoldsAlready env w fd f v u := by
  unfold HoldsAlready
  by_cases hdec : f.decoded = true
  · -- nothing is to be decoded
    have hopened : ∀ x : Value, w.opened env { f with values := [x] } = some { f with values := [x] } := by
      intro x
      unfold World.opened
      rw [if_pos hdec]
    rw [if_pos hdec]
    constructor
    · intro h
      have hreading : ∀ idx, Field.reading env { f with values := [u] } idx = Field.reading env { f with values := [v] } idx := by
        intro idx
        have hidx := h.reading idx
        rw [hopened, hopened] at hidx
        exact Option.some.inj hidx
      have hread := (reading_single_iff hfd).mp hreading
      exact ⟨hread, (encodeField_single_iff hdec hfd hpacked hread).mp h.bytes⟩
    · rintro ⟨hread, hwritten⟩
      refine ⟨rfl, rfl, ?_, ?_, (encodeField_single_iff hdec hfd hpacked hread).mpr hwritten⟩
      · rw [hopened, hopened]
        rfl
      · intro idx
        rw [hopened, hopened]
        exact congrArg some ((reading_single_iff hfd).mpr hread idx)
  · -- the slices are copied, and decoded when an accessor comes
    rw [Bool.not_eq_true] at hdec
    have hopened : ∀ x : Value, w.opened env { f with values := [x] } =
        (w.decodeValue env f x).map fun y => { f with decoded := true, values := [y] } :=
      fun x => opened_single w x hdec hfd hpacked
    have hraw : ∀ (embedded : MessagePtr → Encoded) (x : Value), encodeField w.mem embedded { f with values := [x] } =
        encodeTagged { f with values := [x] } fun x => appendSlice w.mem x.encoded :=
      fun embedded x => encodeField_undecoded (f := { f with values := [x] }) embedded hdec
    rw [if_neg (by rw [hdec]; exact Bool.false_ne_true)]
    constructor
    · intro h
      have hbytes := h.bytes fun _ => none
      rw [hraw, hraw, encodeTagged_single_iff] at hbytes
      refine ⟨hbytes, ?_⟩
      have hreading := h.reading
      cases hv : w.decodeValue env f v with
      | none =>
          cases hu : w.decodeValue env f u with
          | none => exact Option.Rel.none
          | some y =>
              have hfirst := hreading 0
              rw [hopened, hopened, hv, hu] at hfirst
              cases hfirst
      | some x =>
          cases hu : w.decodeValue env f u with
          | none =>
              have hfirst := hreading 0
              rw [hopened, hopened, hv, hu] at hfirst
              cases hfirst
          | some y =>
              refine Option.Rel.some ((reading_single_iff (f := { f with decoded := true }) hfd).mp fun idx => ?_)
              have hidx := hreading idx
              rw [hopened, hopened, hv, hu] at hidx
              exact Option.some.inj hidx
    · rintro ⟨hbytes, hdecoded⟩
      generalize hv : w.decodeValue env f v = x at hdecoded
      generalize hu : w.decodeValue env f u = y at hdecoded
      refine ⟨rfl, rfl, ?_, ?_, ?_⟩
      · rw [hopened, hopened, hv, hu]
        cases hdecoded <;> rfl
      · intro idx
        rw [hopened, hopened, hv, hu]
        cases hdecoded with
        | none => rfl
        | some hread => exact congrArg some ((reading_single_iff (f := { f with decoded := true }) hfd).mpr hread idx)
      · intro embedded
        rw [hraw, hraw, encodeTagged_single_iff]
        exact hbytes

/-- **A replaced value goes unnoticed** exactly if it was the only one, and the field holds already what comes. -/
theorem keptField_iff (hfd : f.fieldDescriptor = some fd) (hpacked : fd.packed = false) :
    KeptField env w f { f with values := [u] } ↔ ∃ v, f.values = [v] ∧ HoldsAlready env w fd f v u := by
  have hsame : ∀ v, f.values = [v] → { f with values := [v] } = f := by
    intro v hv
    rw [← hv]
  constructor
  · intro h
    obtain ⟨v, hv⟩ := List.length_eq_one_iff.mp h.count.symm
    rw [← hsame v hv] at h
    exact ⟨v, hv, (keptField_single_iff hfd hpacked).mp h⟩
  · rintro ⟨v, hv, h⟩
    have hkept := (keptField_single_iff hfd hpacked).mpr h
    rw [hsame v hv] at hkept
    exact hkept

end CompactProtobuf
end Snippets
