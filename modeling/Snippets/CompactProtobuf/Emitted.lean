import Snippets.CompactProtobuf.Built
import Snippets.CompactProtobuf.PassThrough

/-!
# `CompactProtobuf.Emitted` — what is written out for a message that was built

Every field of a built message is written out as records with its number (`Emits`): one for each value, or one for all values
of a packed field. `encodeMessage_emits` says so for the whole message, provided that its bytes are fewer than `2^64`.
-/

namespace Snippets

open Lib

namespace CompactProtobuf

variable {env : Env} {w : World} {p q : MessagePtr} {m : Message} {fd : FieldDescriptor} {f : Field} {v : Value}
  {mem : Mem} {embedded : MessagePtr → Encoded} {type : FieldType}

/-! ## Records -/

/-- The record with the shortest tag. -/
def tagged (fd : FieldDescriptor) (wire : WireType) (pre payload : List UInt8) (h : PayloadOk wire pre payload) : Record :=
  have hlt : fd.number * 8 + wire.code < 2 ^ 64 := by
    have h₁ := fd.number_lt
    have h₂ := wire.code_lt
    omega
  { number := fd.number
    wire := wire
    tag := encodeVarint (fd.number * 8 + wire.code)
    pre := pre
    payload := payload
    number_pos := fd.number_pos
    number_lt := fd.number_lt
    tag_ok := (encodeVarint_varint10 hlt).1
    tag_value := by rw [(encodeVarint_varint10 hlt).2, Nat.mod_eq_of_lt hlt]
    payload_ok := h }

/-- A string under its length. -/
theorem payloadOk_delimit {body : List UInt8} (h : body.length < 2 ^ 64) :
    PayloadOk .kLengthDelimited (encodeVarint body.length) (delimit body) := by
  obtain ⟨h10, hvalue⟩ := encodeVarint_varint10 h
  refine PayloadOk.delimited h10 ?_
  rw [hvalue, Nat.mod_eq_of_lt h]

/-! ## Values -/

/-- The word that is written out for a varint: a `bool` is 0 or 1. -/
def wordOf (type : FieldType) (v : Value) : Nat := if type = .bool then (if v.primitive = 0 then 0 else 1) else v.primitive

theorem wordOf_lt (type : FieldType) (h : v.primitive < 2 ^ 64) : wordOf type v < 2 ^ 64 := by
  unfold wordOf
  split
  · split <;> decide
  · exact h

/-- The payload, and its length prefix, that a value is written out as. -/
def Carries (embedded : MessagePtr → Encoded) (type : FieldType) (v : Value) (pre payload : List UInt8) : Prop :=
  match type.member with
  | some .varint => payload = encodeVarint (wordOf type v)
  | some .f => payload = encode32Bit v
  | some .d => payload = encode64Bit v
  | some .s => payload = delimit v.s ∧ pre = encodeVarint v.s.length
  | some .m => ∃ q body, v.m = some q ∧ embedded q = some (some body) ∧ payload = delimit body ∧ pre = encodeVarint body.length
  | none => False

/-- The types that the round trip is about. -/
def FieldType.plain (type : FieldType) : Bool := type ≠ .sint32 ∧ type ≠ .sint64 ∧ type ≠ .group

theorem encodeVarintValue_eq (hplain : type.plain = true) (hmember : type.member = some .varint) :
    encodeVarintValue type v = some (some (encodeVarint (wordOf type v))) := by
  cases type <;> first | rfl | exact absurd hplain (by decide) | exact absurd hmember (by decide)

/-! ## Fields -/

/-- The records of a field. -/
structure Emits (embedded : MessagePtr → Encoded) (fd : FieldDescriptor) (f : Field) (rs : List Record) : Prop where
  nonempty : rs ≠ []
  number : ∀ r ∈ rs, r.number = fd.number
  wire : ∀ r ∈ rs, r.wire = f.wireType
  values : if fd.packed then ∃ r packed, rs = [r] ∧ encodeAll (encodePackedValue fd.type) f.values = some (some packed) ∧
      r.payload = delimit packed ∧ r.pre = encodeVarint packed.length
    else List.Forall₂ (fun v r => Carries embedded fd.type v r.pre r.payload) f.values rs

theorem bytes_tagged (hid : f.id = fd.number) {pre payload : List UInt8} (h : PayloadOk f.wireType pre payload) :
    (tagged fd f.wireType pre payload h).bytes = tagBytes f ++ payload := by
  rw [tagBytes_eq hid fd.number_lt]
  rfl

/-- A loop over the values that writes each under the tag. -/
theorem encodeTagged_emits {encode : Value → Encoded} {values : List Value} (hid : f.id = fd.number)
    (h : ∀ v ∈ values, ∃ payload, encode v = some (some payload) ∧ (payload.length < 2 ^ 64 →
      ∃ pre, PayloadOk f.wireType pre payload ∧ Carries embedded fd.type v pre payload)) :
    ∃ bytes, encodeAll (fun value => (encode value).map (Option.map (tagBytes f ++ ·))) values = some (some bytes) ∧
      (bytes.length < 2 ^ 64 → ∃ rs : List Record, bytesOf rs = bytes ∧ (∀ r ∈ rs, r.number = fd.number) ∧
        (∀ r ∈ rs, r.wire = f.wireType) ∧ List.Forall₂ (fun v r => Carries embedded fd.type v r.pre r.payload) values rs) := by
  induction values with
  | nil =>
      refine ⟨[], rfl, ?_⟩
      intro _
      exact ⟨[], rfl, fun r hr => absurd hr List.not_mem_nil, fun r hr => absurd hr List.not_mem_nil, List.Forall₂.nil⟩
  | cons v values ih =>
      obtain ⟨payload, hencode, hpayload⟩ := h v List.mem_cons_self
      obtain ⟨rest, hrest, hrecords⟩ := ih fun u hu => h u (List.mem_cons_of_mem _ hu)
      have hfirst : (encode v).map (Option.map (tagBytes f ++ ·)) = some (some (tagBytes f ++ payload)) := by
        rw [hencode]
        rfl
      refine ⟨_, encodeAll_cons_of_some hfirst hrest, ?_⟩
      intro hlt
      rw [List.length_append, List.length_append] at hlt
      obtain ⟨pre, hok, hcarries⟩ := hpayload (by omega)
      obtain ⟨rs, hbytes, hnumber, hwire, hvalues⟩ := hrecords (by omega)
      refine ⟨tagged fd f.wireType pre payload hok :: rs, ?_, ?_, ?_, List.Forall₂.cons hcarries hvalues⟩
      · rw [bytesOf_cons, bytes_tagged hid, hbytes]
      · intro r hr
        rcases List.mem_cons.mp hr with rfl | hr
        · rfl
        · exact hnumber r hr
      · intro r hr
        rcases List.mem_cons.mp hr with rfl | hr
        · rfl
        · exact hwire r hr

/-- The bytes of one packed value. -/
theorem encodePackedValue_some (hpackable : type.packable = true) (v : Value) :
    ∃ bytes, encodePackedValue type v = some (some bytes) := by
  cases type <;> first | exact ⟨_, rfl⟩ | exact absurd hpackable (by decide)

theorem encodeAll_some {α : Type} {encode : α → Encoded} {xs : List α} (h : ∀ x ∈ xs, ∃ bytes, encode x = some (some bytes)) :
    ∃ bytes, encodeAll encode xs = some (some bytes) := by
  induction xs with
  | nil => exact ⟨[], rfl⟩
  | cons x xs ih =>
      obtain ⟨bytes, hx⟩ := h x List.mem_cons_self
      obtain ⟨rest, hrest⟩ := ih fun y hy => h y (List.mem_cons_of_mem _ hy)
      exact ⟨bytes ++ rest, encodeAll_cons_of_some hx hrest⟩

theorem member_message (h : type.member = some .m) : type = .message := by
  cases type <;> first | rfl | exact absurd h (by decide)

/-- What a value of a decoded field that is not packed is written out as. -/
def valueEncoder (embedded : MessagePtr → Encoded) (type : FieldType) (value : Value) : Encoded :=
  match type.member with
  | some .varint => encodeVarintValue type value
  | some .f => some (some (encode32Bit value))
  | some .d => some (some (encode64Bit value))
  | some .s => some (some (delimit value.s))
  | some .m =>
      match value.m with
      | none => none
      | some m => (embedded m).map (Option.map delimit)
  | none => none

/-- A decoded field that is not packed is written out value by value. -/
theorem encodeField_eq {mem : Mem} (hdec : f.decoded = true) (hfd : f.fieldDescriptor = some fd)
    (hwire : getFieldWireType fd = some f.wireType) (hpacked : fd.packed = false) :
    encodeField mem embedded f = encodeTagged f (valueEncoder embedded fd.type) := by
  rw [getFieldWireType_unpacked hpacked] at hwire
  unfold encodeField
  simp only [hdec, hfd, hpacked, Bool.not_true, Bool.false_eq_true, if_false]
  cases htype : fd.type <;> rw [htype] at hwire <;> first | cases hwire | (rw [← Option.some.inj hwire]; rfl)

/-- A decoded packed field is written out as one string. -/
theorem encodeField_packed {mem : Mem} (hdec : f.decoded = true) (hfd : f.fieldDescriptor = some fd)
    (hwire : f.wireType = .kLengthDelimited) (hpacked : fd.packed = true) :
    encodeField mem embedded f =
      (encodeAll (encodePackedValue fd.type) f.values).map (Option.map fun packed => tagBytes f ++ delimit packed) := by
  unfold encodeField
  simp only [hdec, hfd, hwire, hpacked, Bool.not_true, Bool.false_eq_true, if_false, if_true]

/-- The record of that string. -/
theorem packed_record {packed : List UInt8} (hid : f.id = fd.number) (hwire : f.wireType = .kLengthDelimited)
    (hlt : (tagBytes f ++ delimit packed).length < 2 ^ 64) :
    ∃ r : Record, bytesOf [r] = tagBytes f ++ delimit packed ∧ r.number = fd.number ∧ r.wire = f.wireType ∧
      r.pre = encodeVarint packed.length ∧ r.payload = delimit packed := by
  have hlen : packed.length < 2 ^ 64 := by
    have hle := length_le_delimit packed
    rw [List.length_append] at hlt
    omega
  have hok : PayloadOk f.wireType (encodeVarint packed.length) (delimit packed) := by
    rw [hwire]
    exact payloadOk_delimit hlen
  refine ⟨tagged fd f.wireType _ _ hok, ?_, rfl, rfl, rfl, rfl⟩
  rw [bytesOf_cons, bytes_tagged hid, bytesOf_nil, List.append_nil]

/-- What a value of a built field is written out as. -/
theorem valueEncoder_carries (hf : BuiltField w p fd f) (hplain : fd.type.plain = true) (hpacked : fd.packed = false)
    (hembedded : ∀ v ∈ f.values, ∀ q, fd.type = .message → v.m = some q → ∃ body, embedded q = some (some body))
    (hv : v ∈ f.values) :
    ∃ payload, valueEncoder embedded fd.type v = some (some payload) ∧ (payload.length < 2 ^ 64 →
      ∃ pre, PayloadOk f.wireType pre payload ∧ Carries embedded fd.type v pre payload) := by
  have hwire := hf.wireType
  rw [getFieldWireType_unpacked hpacked] at hwire
  unfold valueEncoder Carries
  cases hmember : fd.type.member with
  | none =>
      rw [hmember] at hwire
      cases hwire
  | some member =>
      rw [hmember] at hwire
      cases member with
      | varint =>
          rw [← Option.some.inj hwire]
          refine ⟨_, encodeVarintValue_eq hplain hmember, ?_⟩
          intro _
          have hlt := wordOf_lt fd.type ((hf.values v hv).word (Or.inl hmember))
          exact ⟨[], PayloadOk.varint (encodeVarint_varint10 hlt).1, rfl⟩
      | f =>
          rw [← Option.some.inj hwire]
          exact ⟨_, rfl, fun _ => ⟨[], PayloadOk.bits32 (toLe_length _ _), rfl⟩⟩
      | d =>
          rw [← Option.some.inj hwire]
          exact ⟨_, rfl, fun _ => ⟨[], PayloadOk.bits64 (toLe_length _ _), rfl⟩⟩
      | s =>
          rw [← Option.some.inj hwire]
          refine ⟨_, rfl, ?_⟩
          intro hlt
          exact ⟨_, payloadOk_delimit (Nat.lt_of_le_of_lt (length_le_delimit _) hlt), rfl, rfl⟩
      | m =>
          have htype := member_message hmember
          rw [← Option.some.inj hwire]
          obtain ⟨q, m, hq, -⟩ := (hf.values v hv).message htype
          obtain ⟨body, hbody⟩ := hembedded v hv q htype hq
          refine ⟨delimit body, ?_, ?_⟩
          · rw [hq]
            dsimp only
            rw [hbody]
            rfl
          · intro hlt
            have hlen : body.length < 2 ^ 64 := Nat.lt_of_le_of_lt (length_le_delimit _) hlt
            exact ⟨_, payloadOk_delimit hlen, q, body, hq, hbody, rfl, rfl⟩

/-- **A built field is written out as records.** -/
theorem encodeField_emits (mem : Mem) (hf : BuiltField w p fd f) (hplain : fd.type.plain = true)
    (hembedded : ∀ v ∈ f.values, ∀ q, fd.type = .message → v.m = some q → ∃ body, embedded q = some (some body)) :
    ∃ bytes, encodeField mem embedded f = some (some bytes) ∧
      (bytes.length < 2 ^ 64 → ∃ rs, Emits embedded fd f rs ∧ bytesOf rs = bytes) := by
  cases hpacked : fd.packed with
  | false =>
      obtain ⟨bytes, hbytes, hrecords⟩ := encodeTagged_emits hf.id fun v hv => valueEncoder_carries hf hplain hpacked hembedded hv
      refine ⟨bytes, (encodeField_eq hf.decoded hf.fieldDescriptor hf.wireType hpacked).trans hbytes, ?_⟩
      intro hlt
      obtain ⟨rs, hrs, hnumber, hwire, hcarries⟩ := hrecords hlt
      refine ⟨rs, ⟨?_, hnumber, hwire, ?_⟩, hrs⟩
      · intro hnil
        have hlen := hcarries.length_eq
        rw [hnil] at hlen
        exact hf.nonempty (List.length_eq_zero_iff.mp hlen)
      · rw [hpacked]
        exact hcarries
  | true =>
      have hwire := wireType_of_packed hf.wireType hpacked
      obtain ⟨packed, hencode⟩ := encodeAll_some fun v (_ : v ∈ f.values) =>
        encodePackedValue_some (fd.packed_repeated hpacked).2 v
      refine ⟨tagBytes f ++ delimit packed, ?_, ?_⟩
      · rw [encodeField_packed hf.decoded hf.fieldDescriptor hwire hpacked, hencode]
        rfl
      · intro hlt
        obtain ⟨r, hbytes, hnumber, hrwire, hpre, hpayload⟩ := packed_record hf.id hwire hlt
        refine ⟨[r], ⟨List.cons_ne_nil _ _, ?_, ?_, ?_⟩, hbytes⟩
        · intro s hs
          rw [List.mem_singleton.mp hs]
          exact hnumber
        · intro s hs
          rw [List.mem_singleton.mp hs]
          exact hrwire
        · rw [if_pos hpacked]
          exact ⟨r, packed, rfl, hencode, hpayload, hpre⟩

/-! ## Messages -/

/-- The records of the fields of a message, field by field. -/
def FieldsEmit (_env : Env) (w : World) (embedded : MessagePtr → Encoded) (p : MessagePtr) (d : Descriptor) (fields : FieldMap)
    (rss : List (List Record)) : Prop :=
  List.Forall₂ (fun f rs => ∃ fd ∈ d.fields, BuiltField w p fd f ∧ Emits embedded fd f rs) fields rss

/-- The messages from `p` on are built, no required field is missing, and all types are plain. -/
structure Whole (env : Env) (p : MessagePtr) (w : World) : Prop where
  built : Built env p w
  required : ∀ q m, p ≤ q → w.messages[q]? = some m → checkAllRequiredField m.fields (env.pool m.descriptor) = true
  plain : ∀ q m, p ≤ q → w.messages[q]? = some m → ∀ fd ∈ (env.pool m.descriptor).fields, fd.type.plain = true

theorem encodeAll_emits {d : Descriptor} {fields : FieldMap} (mem : Mem)
    (hfields : ∀ f ∈ fields, ∃ fd ∈ d.fields, BuiltField w p fd f) (hplain : ∀ fd ∈ d.fields, fd.type.plain = true)
    (hembedded : ∀ q m, p < q → w.messages[q]? = some m → ∃ body, embedded q = some (some body)) :
    ∃ bytes, encodeAll (encodeField mem embedded) fields = some (some bytes) ∧
      (bytes.length < 2 ^ 64 → ∃ rss, bytesOf rss.flatten = bytes ∧ FieldsEmit env w embedded p d fields rss) := by
  induction fields with
  | nil => exact ⟨[], rfl, fun _ => ⟨[], rfl, List.Forall₂.nil⟩⟩
  | cons f fields ih =>
      obtain ⟨fd, hfd, hbuilt⟩ := hfields f List.mem_cons_self
      have hpointers : ∀ v ∈ f.values, ∀ q, fd.type = .message → v.m = some q → ∃ body, embedded q = some (some body) := by
        intro v hv q htype hq
        obtain ⟨q', m, hq', hlt, hm, -⟩ := (hbuilt.values v hv).message htype
        rw [hq] at hq'
        cases hq'
        exact hembedded q m hlt hm
      obtain ⟨first, hfirst, hrecords⟩ := encodeField_emits mem hbuilt (hplain fd hfd) hpointers
      obtain ⟨rest, hrest, hrss⟩ := ih fun g hg => hfields g (List.mem_cons_of_mem _ hg)
      refine ⟨first ++ rest, encodeAll_cons_of_some hfirst hrest, ?_⟩
      intro hlt
      rw [List.length_append] at hlt
      obtain ⟨rs, hemits, hbytes⟩ := hrecords (by omega)
      obtain ⟨rss, hbytes', hall⟩ := hrss (by omega)
      refine ⟨rs :: rss, ?_, List.Forall₂.cons ⟨fd, hfd, hbuilt, hemits⟩ hall⟩
      rw [List.flatten_cons, bytesOf_append, hbytes, hbytes']

/-- A message is written out when those embedded in it are. -/
theorem Whole.encodeMessage_step (h : Whole env p w) {depth : Nat} {q : MessagePtr} {m : Message} (hp : p ≤ q)
    (hm : w.messages[q]? = some m)
    (hembedded : ∀ r n, q < r → w.messages[r]? = some n → ∃ body, encodeMessage env.pool w depth r = some (some body)) :
    ∃ bytes, encodeMessage env.pool w (depth + 1) q = some (some bytes) ∧ (bytes.length < 2 ^ 64 →
      ∃ rss, bytesOf rss.flatten = bytes ∧
        FieldsEmit env w (encodeMessage env.pool w depth) q (env.pool m.descriptor) m.fields rss) := by
  have hbuilt := h.built q m hp hm
  obtain ⟨bytes, hbytes, hrecords⟩ := encodeAll_emits w.mem hbuilt.fields (h.plain q m hp hm) hembedded
  refine ⟨bytes, ?_, hrecords⟩
  unfold encodeMessage encodeFields
  simp only [hm, h.required q m hp hm, if_true, hbytes, hbuilt.unknownFields, Option.getD_none, encodeAll_nil,
    Option.map_some, List.append_nil]

/-- **A whole message is written out**, as the records of its fields. -/
theorem Whole.encodeMessage_emits (h : Whole env p w) (depth : Nat) {q : MessagePtr} {m : Message} (hp : p ≤ q)
    (hm : w.messages[q]? = some m) (hdepth : w.messages.length ≤ q + (depth + 1)) :
    ∃ bytes, encodeMessage env.pool w (depth + 1) q = some (some bytes) ∧ (bytes.length < 2 ^ 64 →
      ∃ rss, bytesOf rss.flatten = bytes ∧
        FieldsEmit env w (encodeMessage env.pool w depth) q (env.pool m.descriptor) m.fields rss) := by
  induction depth generalizing q m with
  | zero =>
      apply h.encodeMessage_step hp hm
      -- no message comes after the last one
      intro r n hlt hn
      have hr := (List.getElem?_eq_some_iff.mp hn).1
      have hle : w.messages.length ≤ r := Nat.le_trans hdepth hlt
      exact absurd hr (Nat.not_lt_of_le hle)
  | succ depth ih =>
      apply h.encodeMessage_step hp hm
      intro r n hlt hn
      have hle : w.messages.length ≤ r + (depth + 1) := by
        apply Nat.le_trans hdepth
        rw [← Nat.add_assoc, Nat.add_right_comm]
        exact Nat.add_le_add_right hlt _
      obtain ⟨body, hbody, -⟩ := ih (Nat.le_of_lt (Nat.lt_of_le_of_lt hp hlt)) hn hle
      exact ⟨body, hbody⟩

end CompactProtobuf
end Snippets
