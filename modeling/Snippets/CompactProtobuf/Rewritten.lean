import Snippets.CompactProtobuf.Sound

/-!
# `CompactProtobuf.Rewritten` — what is written out for a sound message

A field that was not decoded is copied, and the values of a decoded one are encoded anew. Either way it is written out as
records with its number (`SoundField.records`), and the message as the records of its fields (`Sound.records`), whatever its
embedded messages are written out as.
-/

namespace Snippets

open Lib

namespace CompactProtobuf

variable {env : Env} {w : World} {p : MessagePtr} {m : Message} {d : Descriptor} {fd : FieldDescriptor} {f : Field} {v : Value}
  {mem : Mem} {type : FieldType} {t : Nat} {embedded : MessagePtr → Encoded} {fields : FieldMap} {bytes : List UInt8}

/-! ## Fields that are copied

A copied value is the bytes between its slice's ends behind a new tag, which are the payload it was parsed from. -/

/-- The record under its minimal tag. -/
def Record.minimal (r : Record) : Record :=
  have hlt : r.number * 8 + r.wire.code < 2 ^ 64 := by
    have h₁ := r.number_lt
    have h₂ := r.wire.code_lt
    omega
  { r with
    tag := r.minimalTag
    tag_ok := (encodeVarint_varint10 hlt).1
    tag_value := by
      unfold Record.minimalTag
      rw [(encodeVarint_varint10 hlt).2, Nat.mod_eq_of_lt hlt] }

/-- A field that is copied is written out as records. -/
theorem encodeRaw_records {n : Nat} (hid : f.id = n) (hn : n < 2 ^ 29) (hvalues : ∀ v ∈ f.values, HoldsPayload mem n f.wireType v) :
    ∃ rs, encodeRaw mem f = some (some (bytesOf rs)) ∧ rs.length = f.values.length ∧ ∀ r ∈ rs, r.number = n := by
  unfold encodeRaw encodeTagged
  generalize f.values = values at hvalues
  induction values with
  | nil => exact ⟨[], rfl, rfl, fun r hr => absurd hr List.not_mem_nil⟩
  | cons v values ih =>
      obtain ⟨rs, hrest, hlen, hnumber⟩ := ih fun u hu => hvalues u (List.mem_cons_of_mem _ hu)
      obtain ⟨r, hr, hwire, hheld⟩ := hvalues v List.mem_cons_self
      have hfirst : (appendSlice mem v.encoded).map (Option.map (tagBytes f ++ ·)) = some (some r.minimal.bytes) := by
        rw [hheld.placed.appendSlice, tagBytes_eq hid hn, ← hr, ← hwire]
        rfl
      refine ⟨r.minimal :: rs, ?_, ?_, ?_⟩
      · rw [bytesOf_cons]
        exact encodeAll_cons_of_some hfirst hrest
      · rw [List.length_cons, List.length_cons, hlen]
      · intro s hs
        rcases List.mem_cons.mp hs with rfl | hs
        · exact hr
        · exact hnumber s hs

/-! ## Fields that are encoded anew

The encoder of each type writes a payload of the wire type of the field. -/

/-- The word of a varint. -/
theorem encodeVarintValue_inv {payload : List UInt8} (hmember : type.member = some .varint) (hword : WordOk type v)
    (h : encodeVarintValue type v = some (some payload)) : ∃ x, x < 2 ^ 64 ∧ payload = encodeVarint x := by
  have hlt := hword (Or.inl hmember)
  unfold encodeVarintValue at h
  cases type <;> dsimp only at h <;> try exact absurd hmember (by decide)
  case int32 | int64 | uint32 | uint64 | enum =>
    cases h
    exact ⟨_, hlt, rfl⟩
  case bool =>
    cases h
    refine ⟨_, ?_, rfl⟩
    split <;> decide
  case sint32 =>
    cases h
    refine ⟨_, Nat.xor_lt_two_pow ?_ ?_, rfl⟩
    · exact lt_trans (Nat.mod_lt _ (Nat.two_pow_pos 32)) (by decide)
    · rw [Nat.shiftRight_eq_div_pow]
      omega
  case sint64 =>
    cases h
    refine ⟨_, Nat.xor_lt_two_pow ?_ ?_, rfl⟩
    · exact Nat.mod_lt _ (Nat.two_pow_pos 64)
    · rw [Nat.shiftRight_eq_div_pow]
      omega

/-- What the encoder of a value writes is a payload. -/
theorem valueEncoder_payload {wire : WireType} {payload : List UInt8} (hwire : getFieldWireType fd = some wire)
    (hpacked : fd.packed = false) (hword : WordOk fd.type v) (h : valueEncoder embedded fd.type v = some (some payload))
    (hlt : payload.length < 2 ^ 64) : ∃ pre, PayloadOk wire pre payload := by
  have hdelimit : ∀ {body : List UInt8}, payload = delimit body → ∃ pre, PayloadOk .kLengthDelimited pre payload := by
    rintro body rfl
    exact ⟨_, payloadOk_delimit (Nat.lt_of_le_of_lt (length_le_delimit _) hlt)⟩
  rw [getFieldWireType_unpacked hpacked] at hwire
  unfold valueEncoder at h
  cases hmember : fd.type.member with
  | none =>
      rw [hmember] at hwire
      cases hwire
  | some member =>
      rw [hmember] at hwire h
      cases member with
      | varint =>
          cases hwire
          obtain ⟨x, hx, rfl⟩ := encodeVarintValue_inv hmember hword h
          exact ⟨[], PayloadOk.varint (encodeVarint_varint10 hx).1⟩
      | f =>
          cases hwire
          cases h
          exact ⟨[], PayloadOk.bits32 (toLe_length _ _)⟩
      | d =>
          cases hwire
          cases h
          exact ⟨[], PayloadOk.bits64 (toLe_length _ _)⟩
      | s =>
          cases hwire
          cases h
          exact hdelimit rfl
      | m =>
          cases hwire
          dsimp only at h
          split at h
          next => cases h
          next q _ =>
            obtain ⟨o, ho, heq⟩ := Option.map_eq_some_iff.mp h
            obtain ⟨body, rfl, hbody⟩ := Option.map_eq_some_iff.mp heq
            exact hdelimit hbody.symm

/-- The values of a decoded field under its tag are records. -/
theorem encodeTagged_records {encode : Value → Encoded} (hid : f.id = fd.number)
    (hpayload : ∀ v ∈ f.values, ∀ payload, encode v = some (some payload) → payload.length < 2 ^ 64 →
      ∃ pre, PayloadOk f.wireType pre payload)
    (h : encodeTagged f encode = some (some bytes)) (hlt : bytes.length < 2 ^ 64) :
    ∃ rs, bytesOf rs = bytes ∧ (∀ r ∈ rs, r.number = fd.number) ∧
      List.Forall₂ (fun v r => encode v = some (some r.payload)) f.values rs := by
  unfold encodeTagged at h
  generalize f.values = values at h hpayload
  induction values generalizing bytes with
  | nil =>
      cases h
      exact ⟨[], rfl, fun r hr => absurd hr List.not_mem_nil, List.Forall₂.nil⟩
  | cons v values ih =>
      obtain ⟨front, rest, hfront, hrest, rfl⟩ := encodeAll_cons_inv h
      obtain ⟨o, ho, heq⟩ := Option.map_eq_some_iff.mp hfront
      obtain ⟨payload, rfl, rfl⟩ := Option.map_eq_some_iff.mp heq
      rw [List.length_append, List.length_append] at hlt
      obtain ⟨pre, hok⟩ := hpayload v List.mem_cons_self payload ho (by omega)
      have hltrest : rest.length < 2 ^ 64 := by omega
      obtain ⟨rs, hbytes, hnumber, hvalues⟩ := ih hltrest hrest fun u hu => hpayload u (List.mem_cons_of_mem _ hu)
      refine ⟨tagged fd f.wireType pre payload hok :: rs, ?_, ?_, List.Forall₂.cons ho hvalues⟩
      · rw [bytesOf_cons, bytes_tagged hid, hbytes]
      · intro r hr
        rcases List.mem_cons.mp hr with rfl | hr
        · rfl
        · exact hnumber r hr

/-! ## Fields

Either way the field is written out as records of its number. -/

/-- The records that a field is written out as. -/
structure FieldRecords (embedded : MessagePtr → Encoded) (fd : FieldDescriptor) (f : Field) (rs : List Record) : Prop where
  nonempty : rs ≠ []
  number : ∀ r ∈ rs, r.number = fd.number
  payloads : f.decoded = true →
    if fd.packed then ∃ r packed, rs = [r] ∧ encodeAll (encodePackedValue fd.type) f.values = some (some packed) ∧
      r.payload = delimit packed ∧ r.pre = encodeVarint packed.length ∧ r.wire = .kLengthDelimited
    else List.Forall₂ (fun v r => valueEncoder embedded fd.type v = some (some r.payload)) f.values rs

/-- **A sound field is written out as records.** -/
theorem SoundField.records (h : SoundField mem fd f) (hencode : encodeField mem embedded f = some (some bytes))
    (hlt : bytes.length < 2 ^ 64) : ∃ rs, bytesOf rs = bytes ∧ FieldRecords embedded fd f rs := by
  have hne : ∀ {rs : List Record}, rs.length = f.values.length → rs ≠ [] := by
    rintro rs hlen rfl
    exact h.nonempty (List.length_eq_zero_iff.mp hlen.symm)
  cases hdec : f.decoded with
  | false =>
      have hvalues : ∀ v ∈ f.values, HoldsPayload mem fd.number f.wireType v := by
        intro v hv
        have hvalue := h.values v hv
        rw [hdec, if_neg Bool.false_ne_true] at hvalue
        exact hvalue
      obtain ⟨rs, hraw, hlen, hnumber⟩ := encodeRaw_records h.id fd.number_lt hvalues
      rw [encodeField_undecoded embedded hdec, hraw] at hencode
      cases hencode
      refine ⟨rs, rfl, hne hlen, hnumber, ?_⟩
      intro htrue
      rw [hdec] at htrue
      cases htrue
  | true =>
      cases hpacked : fd.packed with
      | false =>
          rw [encodeField_eq hdec h.fieldDescriptor h.wireType hpacked] at hencode
          obtain ⟨rs, hbytes, hnumber, hvalues⟩ := encodeTagged_records h.id
            (fun v hv payload hv' => valueEncoder_payload h.wireType hpacked (h.words hdec v hv) hv') hencode hlt
          refine ⟨rs, hbytes, hne hvalues.length_eq.symm, hnumber, ?_⟩
          intro _
          rw [if_neg (by rw [hpacked]; exact Bool.false_ne_true)]
          exact hvalues
      | true =>
          have hwire := wireType_of_packed h.wireType hpacked
          rw [encodeField_packed hdec h.fieldDescriptor hwire hpacked] at hencode
          obtain ⟨o, ho, heq⟩ := Option.map_eq_some_iff.mp hencode
          obtain ⟨packed, rfl, rfl⟩ := Option.map_eq_some_iff.mp heq
          obtain ⟨r, hbytes, hnumber, hrwire, hpre, hpayload⟩ := packed_record h.id hwire hlt
          refine ⟨[r], hbytes, List.cons_ne_nil _ _, ?_, ?_⟩
          · intro s hs
            rw [List.mem_singleton.mp hs]
            exact hnumber
          · intro _
            rw [if_pos hpacked]
            exact ⟨r, packed, rfl, ho, hpayload, hpre, hrwire.trans hwire⟩

/-! ## Messages

Field by field, so as records under the numbers of the descriptor, in their order. -/

/-- A list of fields, each of which is written as records. -/
theorem encodeAll_records {Q : Field → List Record → Prop} {encode : Field → Encoded}
    (hfield : ∀ f ∈ fields, ∀ bytes, encode f = some (some bytes) → bytes.length < 2 ^ 64 → ∃ rs, bytesOf rs = bytes ∧ Q f rs)
    (h : encodeAll encode fields = some (some bytes)) (hlt : bytes.length < 2 ^ 64) :
    ∃ rss, bytesOf rss.flatten = bytes ∧ List.Forall₂ Q fields rss := by
  induction fields generalizing bytes with
  | nil =>
      cases h
      exact ⟨[], rfl, List.Forall₂.nil⟩
  | cons f fields ih =>
      obtain ⟨front, rest, hfront, hrest, rfl⟩ := encodeAll_cons_inv h
      rw [List.length_append] at hlt
      have hltrest : rest.length < 2 ^ 64 := by omega
      obtain ⟨rs, hrs, hq⟩ := hfield f List.mem_cons_self front hfront (by omega)
      obtain ⟨rss, hrss, hall⟩ := ih (fun g hg => hfield g (List.mem_cons_of_mem _ hg)) hrest hltrest
      refine ⟨rs :: rss, ?_, List.Forall₂.cons hq hall⟩
      rw [List.flatten_cons, bytesOf_append, hrs, hrss]

/-- **A sound message is written out as records**: under the number of a field are those of the field. -/
theorem SoundMessage.records (h : SoundMessage env mem t m) (hencode : encodeFields mem embedded m = some (some bytes))
    (hlt : bytes.length < 2 ^ 64) : ∃ rs, bytesOf rs = bytes ∧ ∀ fd ∈ (env.pool t).fields,
      (m.fields.find fd.number = none ∧ numbered fd.number rs = []) ∨
        ∃ f, m.fields.find fd.number = some f ∧ SoundField mem fd f ∧ FieldRecords embedded fd f (numbered fd.number rs) := by
  unfold encodeFields at hencode
  split at hencode
  next known hknown =>
    obtain ⟨o, ho, heq⟩ := Option.map_eq_some_iff.mp hencode
    obtain ⟨rest, rfl, rfl⟩ := Option.map_eq_some_iff.mp heq
    rw [List.length_append] at hlt
    obtain ⟨rss, hrss, hall⟩ := encodeAll_records
      (Q := fun f rs => ∃ fd ∈ (env.pool t).fields, SoundField mem fd f ∧ FieldRecords embedded fd f rs)
      (fun f hf bytes hbytes hlt => by
        obtain ⟨fd, hfd, hsound⟩ := h.fields f hf
        obtain ⟨rs, hrs, hrecords⟩ := hsound.records hbytes hlt
        exact ⟨rs, hrs, fd, hfd, hsound, hrecords⟩) hknown (by omega)
    obtain ⟨uss, huss, hunknown⟩ := encodeAll_records
      (Q := fun _ rs => ∀ r ∈ rs, (env.pool t).findFieldByNumber r.number = none)
      (fun f hf bytes hbytes _ => by
        obtain ⟨n, hsound⟩ := h.unknownFields f hf
        obtain ⟨rs, hraw, -, hnumber⟩ := encodeRaw_records hsound.id hsound.lt hsound.values
        rw [hraw] at hbytes
        cases hbytes
        refine ⟨rs, rfl, ?_⟩
        intro r hr
        rw [hnumber r hr]
        exact hsound.unknown) ho (by omega)
    refine ⟨rss.flatten ++ uss.flatten, by rw [bytesOf_append, hrss, huss], ?_⟩
    intro fd hfd
    -- an unknown record has not the number of a field
    have hnone : numbered fd.number uss.flatten = [] := by
      apply List.filter_eq_nil_iff.mpr
      intro r hr hnum
      obtain ⟨us, hus, hru⟩ := List.mem_flatten.mp hr
      obtain ⟨f, -, hf⟩ := exists_of_mem_right hunknown hus
      have hfound := hf r hru
      rw [of_decide_eq_true hnum, Descriptor.findFieldByNumber_eq hfd] at hfound
      cases hfound
    have hsplit : numbered fd.number (rss.flatten ++ uss.flatten) = numbered fd.number rss.flatten := by
      unfold numbered at hnone ⊢
      rw [List.filter_append, hnone, List.append_nil]
    rw [hsplit]
    exact numbered_of_fields (Q := fun fd f rs => SoundField mem fd f ∧ FieldRecords embedded fd f rs) h.sorted
      (fun _ _ _ h => ⟨h.1.id, h.2.number⟩) hall hfd
  next hne => exact absurd hencode (hne bytes)

/-- **What `ToString` returns for a sound message**, and that a message parsed from it has all required fields. -/
theorem Sound.records (h : Sound env p t w) (hout : w.toString env.pool p = some (some bytes)) (hlt : bytes.length < 2 ^ 64) :
    ∃ m rs embedded, w.messages[p]? = some m ∧ SoundMessage env w.mem t m ∧ bytesOf rs = bytes ∧
      (∀ fd ∈ (env.pool t).fields, fd.label = .required → ∃ r ∈ rs, r.number = fd.number) ∧
      ∀ fd ∈ (env.pool t).fields, (m.fields.find fd.number = none ∧ numbered fd.number rs = []) ∨
        ∃ f, m.fields.find fd.number = some f ∧ SoundField w.mem fd f ∧ FieldRecords embedded fd f (numbered fd.number rs) := by
  obtain ⟨m, hm, hsound⟩ := h
  unfold World.toString encodeMessage at hout
  rw [hm] at hout
  dsimp only at hout
  split at hout
  next hcheck =>
    obtain ⟨rs, hrs, hrecords⟩ := hsound.records hout hlt
    refine ⟨m, rs, _, hm, hsound, hrs, ?_, hrecords⟩
    intro fd hfd hlabel
    rw [hsound.descriptor] at hcheck
    have hfound := List.all_eq_true.mp hcheck fd hfd
    rcases hrecords fd hfd with ⟨hnone, -⟩ | ⟨f, -, -, hfr⟩
    · rw [hnone] at hfound
      simp [hlabel] at hfound
    · obtain ⟨r, hr⟩ := List.exists_mem_of_ne_nil _ hfr.nonempty
      obtain ⟨hmem, hnum⟩ := List.mem_filter.mp hr
      exact ⟨r, hmem, of_decide_eq_true hnum⟩
  next => cases hout

end CompactProtobuf
end Snippets
