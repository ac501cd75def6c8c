import Snippets.CompactProtobuf.Bounds

/-!
# `CompactProtobuf.Load` — parsing a sequence of well-formed records

A `Record` is a tag and a payload that are well formed for its wire type; the bytes of a message are the bytes of
its records. `Loaded` says what the map of fields holds after a sequence of records: one field per number, with the
slices of that number's payloads in order. `parse_records` is the run of the whole loop.
-/

namespace Snippets

open Lib

namespace CompactProtobuf

/-! ## Records

The tag, the payload and the bytes before its content, as well formed as the parser asks. -/

/-- A varint of at most ten bytes. -/
def Varint10 (bs : List UInt8) : Prop := Varint.Complete bs ∧ bs.length ≤ 10

/-- A payload that is well formed for its wire type; `pre` is the length prefix of a length-delimited one. -/
inductive PayloadOk : WireType → List UInt8 → List UInt8 → Prop
  | varint {bs : List UInt8} (h : Varint10 bs) : PayloadOk .kVarint [] bs
  | bits64 {bs : List UInt8} (h : bs.length = 8) : PayloadOk .k64Bits [] bs
  | bits32 {bs : List UInt8} (h : bs.length = 4) : PayloadOk .k32Bits [] bs
  | delimited {pre body : List UInt8} (h : Varint10 pre) (hlen : Varint.value pre % 2 ^ 64 = body.length) :
      PayloadOk .kLengthDelimited pre (pre ++ body)

/-- A record of the wire format. -/
structure Record where
  number : Nat
  wire : WireType
  tag : List UInt8
  pre : List UInt8
  payload : List UInt8
  number_pos : 1 ≤ number
  number_lt : number < 2 ^ 29
  tag_ok : Varint10 tag
  tag_value : Varint.value tag % 2 ^ 64 = number * 8 + wire.code
  payload_ok : PayloadOk wire pre payload

/-- The bytes of a record, -/
def Record.bytes (r : Record) : List UInt8 := r.tag ++ r.payload

/-- The bytes of a sequence of records. -/
def bytesOf (rs : List Record) : List UInt8 := (rs.map Record.bytes).flatten

/-- of none, -/
@[simp] theorem bytesOf_nil : bytesOf [] = [] := rfl

/-- of several -/
@[simp] theorem bytesOf_cons (r : Record) (rs : List Record) : bytesOf (r :: rs) = r.bytes ++ bytesOf rs := rfl

/-- and of two parts. -/
theorem bytesOf_append (rs ss : List Record) : bytesOf (rs ++ ss) = bytesOf rs ++ bytesOf ss := by
  unfold bytesOf
  rw [List.map_append, List.flatten_append]

/-- A wire type has three bits, -/
theorem WireType.code_lt (w : WireType) : w.code < 8 := by cases w <;> decide

/-- which the parser reads off the tag, -/
theorem getWireType_tag (n : Nat) (w : WireType) : getWireType (n * 8 + w.code) = some w := by
  have hand : (n * 8 + w.code) &&& 0x7 = w.code := by
    have h : (n * 8 + w.code) &&& 0x7 = (n * 8 + w.code) % 8 := Nat.and_two_pow_sub_one_eq_mod _ 3
    have := w.code_lt
    omega
  unfold getWireType
  rw [hand]
  cases w <;> rfl

/-- with the number above them. -/
theorem getFieldId_tag {n : Nat} (hn : n < 2 ^ 29) (w : WireType) : getFieldId (n * 8 + w.code) = n := by
  have hshift : (n * 8 + w.code) >>> 3 = n := by
    have := w.code_lt
    rw [Nat.shiftRight_eq_div_pow]
    omega
  unfold getFieldId
  rw [hshift, toInt32_of_range (by omega) (by omega)]

/-- No payload is empty, -/
theorem PayloadOk.length_pos {w : WireType} {pre payload : List UInt8} (h : PayloadOk w pre payload) :
    0 < payload.length := by
  cases h with
  | varint h => exact h.1.length_pos
  | bits64 h => omega
  | bits32 h => omega
  | delimited h hlen => rw [List.length_append]; have := h.1.length_pos; omega

/-- and a record is as long as its two parts. -/
theorem Record.bytes_length (r : Record) : r.bytes.length = r.tag.length + r.payload.length := List.length_append

/-! ## One record

The tag is parsed, and then the payload by its wire type. The parser stands behind the record afterwards, with
the payload's slice in its hands. -/

variable {junk : Junk} {mem : Mem} {slice : Slice} {d : Descriptor} {st st' : ParserState}

/-- The value a record hands over: the slice of its payload at address `a`. -/
def payloadSlice (a : Nat) (r : Record) : Slice := ⟨a, a + r.payload.length⟩

/-- A well-formed payload parses to itself. -/
theorem parseValueLazy_payload {w : WireType} {pre payload before after : List UInt8} (hpay : PayloadOk w pre payload)
    (hp : Placed mem slice (before ++ (payload ++ after))) (st : ParserState) (hs : st.slice = slice)
    (hpos : st.pos = before.length) (hw : st.wireType = w) :
    ∃ st', parseValueLazy mem st = (.kOk, st') ∧ st'.slice = slice ∧ st'.pos = before.length + payload.length ∧
      st'.fieldId = st.fieldId ∧ st'.wireType = w ∧
      st'.v.encoded = ⟨slice.start + before.length, slice.start + before.length + payload.length⟩ ∧
      (w = .kLengthDelimited → st'.v.primitive = pre.length) := by
  have hend := hp.endAddr
  have hroom := hp.room
  have hle : st.pos ≤ (before ++ (payload ++ after)).length + 1 := by
    rw [hpos, List.length_append]
    omega
  have hdrop : (before ++ (payload ++ after)).drop st.pos = payload ++ after := by rw [hpos, List.drop_left]
  simp only [List.length_append] at hend
  unfold parseValueLazy
  rw [hw]
  cases hpay with
  -- a varint ends where its last byte is
  | varint h =>
      refine ⟨_, rfl, ?_⟩
      rw [hp.parseVarintLazy_eq st hs hle, hdrop, lazyLen_complete h.1 h.2, hpos]
      refine ⟨hs, rfl, rfl, hw, ?_, fun hne => by cases hne⟩
      show Slice.mk _ _ = _
      rw [Nat.add_assoc]
  | bits64 h =>
      rcases hp.parseFixedLazy_eq st hs hle 8 (le_refl 8) with ⟨-, hok⟩ | ⟨hlt, -⟩
      · refine ⟨_, hok, hs, ?_, rfl, hw, ?_, fun hne => by cases hne⟩
        · show st.pos + 8 = _
          rw [hpos, h]
        · show Slice.mk _ _ = _
          rw [hpos, h]
      · simp only [List.length_append] at hlt
        omega
  | bits32 h =>
      rcases hp.parseFixedLazy_eq st hs hle 4 (by omega) with ⟨-, hok⟩ | ⟨hlt, -⟩
      · refine ⟨_, hok, hs, ?_, rfl, hw, ?_, fun hne => by cases hne⟩
        · show st.pos + 4 = _
          rw [hpos, h]
        · show Slice.mk _ _ = _
          rw [hpos, h]
      · simp only [List.length_append] at hlt
        omega
  -- a length is read first, and then that many bytes are passed over
  | @delimited _ body h hlen =>
      have hsum : (pre ++ body).length = pre.length + body.length := List.length_append
      have hl : varintLen ((before ++ (pre ++ body ++ after)).drop st.pos) = pre.length := by
        rw [hdrop, List.append_assoc, varintLen_complete h.1 h.2]
      have hv : varintVal ((before ++ (pre ++ body ++ after)).drop st.pos) = body.length := by
        rw [hdrop, List.append_assoc, varintVal_complete h.1 h.2, hlen]
      have he : toSize ((slice.start : Int) + st.pos + pre.length + body.length) =
          slice.start + before.length + (pre ++ body).length := by
        rw [List.length_append, hpos, toSize_of_range (by omega) (by omega)]
        omega
      have hcase := hp.parseLengthDelimitedLazy_eq st hs hle
      simp only [hl, hv, he] at hcase
      rcases hcase with ⟨-, hok⟩ | ⟨hlt, -⟩
      · refine ⟨_, hok, hs, ?_, rfl, hw, ?_, fun _ => rfl⟩
        · show toSize _ = _
          rw [List.length_append, hpos, toSize_of_range (by omega) (by omega)]
          omega
        · show Slice.mk _ _ = _
          rw [hpos]
      · rw [List.length_append] at hlt
        omega

/-- **A well-formed record parses to itself.** -/
theorem parseRecord_record {before after : List UInt8} (r : Record) (hp : Placed mem slice (before ++ (r.bytes ++ after)))
    (hs : st.slice = slice) (hpos : st.pos = before.length) :
    ∃ st', parseRecord mem st = (.kOk, st') ∧ st'.slice = slice ∧ st'.pos = before.length + r.bytes.length ∧
      st'.fieldId = r.number ∧ st'.wireType = r.wire ∧
      st'.v.encoded = payloadSlice (slice.start + before.length + r.tag.length) r ∧
      (r.wire = .kLengthDelimited → st'.v.primitive = r.pre.length) := by
  have htag : 0 < r.tag.length := r.tag_ok.1.length_pos
  have hlen := r.bytes_length
  generalize hbs : before ++ (r.bytes ++ after) = bs at hp
  have hlt : st.pos < bs.length := by
    rw [← hbs, hpos, List.length_append, List.length_append]
    omega
  -- the tag lies at the position
  have hdrop : bs.drop st.pos = r.tag ++ (r.payload ++ after) := by
    rw [← hbs, hpos, List.drop_left]
    unfold Record.bytes
    rw [List.append_assoc]
  have htl : varintLen (bs.drop st.pos) = r.tag.length := by rw [hdrop, varintLen_complete r.tag_ok.1 r.tag_ok.2]
  have htv : varintVal (bs.drop st.pos) = r.number * 8 + r.wire.code := by
    rw [hdrop, varintVal_complete r.tag_ok.1 r.tag_ok.2, r.tag_value]
  obtain ⟨w, hw, hok⟩ : ∃ w, getWireType (varintVal (bs.drop st.pos)) = some w ∧
      parseTag mem st = (.kOk, afterTag bs st w) := by
    rcases hp.parseTag_eq hs hlt with h | ⟨hnone, -⟩
    · exact h
    · rw [htv, getWireType_tag] at hnone
      cases hnone
  obtain rfl : r.wire = w := by
    rw [htv, getWireType_tag] at hw
    exact Option.some.inj hw
  -- and the payload right behind it
  have hp' : Placed mem slice ((before ++ r.tag) ++ (r.payload ++ after)) := by
    have : (before ++ r.tag) ++ (r.payload ++ after) = bs := by
      rw [← hbs]
      unfold Record.bytes
      simp only [List.append_assoc]
    rw [this]
    exact hp
  have hpos₁ : (afterTag bs st r.wire).pos = (before ++ r.tag).length := by
    show st.pos + varintLen _ = _
    rw [htl, hpos, List.length_append]
  have hid₁ : (afterTag bs st r.wire).fieldId = r.number := by
    show getFieldId (varintVal _) = _
    rw [htv, getFieldId_tag r.number_lt]
  obtain ⟨st', hval, h₁, h₂, h₃, h₄, h₅, h₆⟩ := parseValueLazy_payload r.payload_ok hp' (afterTag bs st r.wire) hs hpos₁ rfl
  refine ⟨st', ?_, h₁, ?_, h₃.trans hid₁, h₄, ?_, h₆⟩
  · unfold parseRecord
    rw [hok]
    exact hval
  · rw [h₂, List.length_append, hlen]
    omega
  · rw [h₅, List.length_append]
    unfold payloadSlice
    simp only [Nat.add_assoc]

/-! ## A sequence of records

What the fields hold, from the records so far: all of a number's payloads in a field that keeps them, and
otherwise the last one. -/

/-- The records with this number, in order. -/
def numbered (n : Nat) (rs : List Record) : List Record := rs.filter fun r => r.number = n

/-- One more record of its number, -/
theorem numbered_append (n : Nat) (rs : List Record) (r : Record) :
    numbered n (rs ++ [r]) = if r.number = n then numbered n rs ++ [r] else numbered n rs := by
  unfold numbered
  rw [List.filter_append]
  by_cases h : r.number = n
  · rw [if_pos h, List.filter_singleton]
    simp [h]
  · rw [if_neg h, List.filter_singleton]
    simp [h]

/-- A field keeps every record, unless it is known and not repeated. -/
def Descriptor.keepsAll (d : Descriptor) (n : Nat) : Bool :=
  match d.findFieldByNumber n with
  | none => true
  | some fd => fd.isRepeated

/-- An unknown field keeps all, -/
theorem Descriptor.keepsAll_none {n : Nat} (h : d.findFieldByNumber n = none) : d.keepsAll n = true := by
  unfold keepsAll
  rw [h]

/-- and a known one does when it is repeated. -/
theorem Descriptor.keepsAll_some {n : Nat} {fd : FieldDescriptor} (h : d.findFieldByNumber n = some fd) :
    d.keepsAll n = fd.isRepeated := by
  unfold keepsAll
  rw [h]

/-- The records with this number that are kept: all of them, or the last. -/
def keptOf (d : Descriptor) (rs : List Record) (n : Nat) : List Record :=
  if d.keepsAll n then numbered n rs else (numbered n rs).getLast?.toList

/-- What is kept has the number. -/
theorem mem_kept {d : Descriptor} {rs : List Record} {n : Nat} {r : Record} (h : r ∈ keptOf d rs n) : r ∈ numbered n rs := by
  unfold keptOf at h
  split at h
  · exact h
  · exact List.mem_of_getLast? (Option.mem_toList.mp h)

/-- What is kept after one more record, -/
theorem keptOf_append (d : Descriptor) (rs : List Record) (r : Record) :
    keptOf d (rs ++ [r]) r.number = (if d.keepsAll r.number then keptOf d rs r.number else []) ++ [r] := by
  unfold keptOf
  rw [numbered_append, if_pos rfl]
  split
  · rfl
  · rw [List.getLast?_append]
    rfl

/-- and under any other number. -/
theorem keptOf_append_other {d : Descriptor} {rs : List Record} {r : Record} {n : Nat} (h : r.number ≠ n) :
    keptOf d (rs ++ [r]) n = keptOf d rs n := by
  unfold keptOf
  rw [numbered_append, if_neg h]

/-- A value in a field of some wire type that holds the payload of a record. -/
structure Stored (mem : Mem) (wire : WireType) (r : Record) (v : Value) : Prop where
  holds : mem.Holds v.encoded.start r.payload
  endAddr : v.encoded.endAddr = v.encoded.start + r.payload.length
  room : v.encoded.endAddr + 16 ≤ 2 ^ 64
  len : wire = .kLengthDelimited → r.wire = .kLengthDelimited → v.primitive = r.pre.length
  m : v.m = none

/-- A stored payload is in memory. -/
theorem Stored.placed {wire : WireType} {r : Record} {v : Value} (h : Stored mem wire r v) : Placed mem v.encoded r.payload :=
  ⟨h.holds, h.endAddr, h.room⟩

/-- An undecoded field that holds the records with its number that are kept, and has the wire type of the first. -/
structure StoredField (mem : Mem) (d : Descriptor) (rs : List Record) (n : Nat) (f : Field) : Prop where
  decoded : f.decoded = false
  descriptor : f.fieldDescriptor = d.findFieldByNumber n
  unknown : f.unknown = (d.findFieldByNumber n).isNone
  wire : (numbered n rs).head?.map Record.wire = some f.wireType
  values : List.Forall₂ (Stored mem f.wireType) (keptOf d rs n) f.values

/-- The map holds exactly the records `rs` that are kept. -/
structure StoredMap (mem : Mem) (d : Descriptor) (rs : List Record) (fields : FieldMap) : Prop where
  sorted : Sorted fields
  all : ∀ r ∈ rs, ∃ f ∈ fields, f.id = r.number
  field : ∀ f ∈ fields, ∃ n : Nat, f.id = n ∧ StoredField mem d rs n f

/-- A number that is found is the one of a field. -/
theorem Descriptor.mem_of_findFieldByNumber {n : Int} {fd : FieldDescriptor} (h : d.findFieldByNumber n = some fd) :
    fd ∈ d.fields ∧ (fd.number : Int) = n :=
  ⟨List.mem_of_find?_eq_some h, by simpa using List.find?_some h⟩

/-- What a record hands over to a field. -/
structure Parsed (mem : Mem) (r : Record) (st : ParserState) : Prop where
  fieldId : st.fieldId = r.number
  wireType : st.wireType = r.wire
  holds : mem.Holds st.v.encoded.start r.payload
  endAddr : st.v.encoded.endAddr = st.v.encoded.start + r.payload.length
  room : st.v.encoded.endAddr + 16 ≤ 2 ^ 64
  len : r.wire = .kLengthDelimited → st.v.primitive = r.pre.length

/-- `FastAppend` of a parsed record stores its payload. -/
theorem Parsed.fastAppend {r : Record} (h : Parsed mem r st) (found : Found) (f : Field) :
    ∃ v, f.fastAppend found st.v = { f with values := f.values ++ [v] } ∧ Stored mem f.wireType r v := by
  by_cases hld : f.wireType = .kLengthDelimited
  · refine ⟨_, rfl, ?_⟩
    simp only [hld, if_true]
    exact ⟨h.holds, h.endAddr, h.room, fun _ hr => h.len hr, rfl⟩
  · refine ⟨_, rfl, ?_⟩
    simp only [hld, if_false]
    exact ⟨h.holds, h.endAddr, h.room, fun hne => absurd hne hld, rfl⟩

/-- What `fill fields` does to a field that is there. -/
def refill (found : Found) (d : Descriptor) (st : ParserState) (n : Nat) (f : Field) : Field :=
  Field.fastAppend found (if d.keepsAll n then f else { f with values := [] }) st.v

/-- Filling a field that keeps all, -/
theorem refill_of_keeps (found : Found) (st : ParserState) {n : Nat} (h : d.keepsAll n = true) :
    refill found d st n = (Field.fastAppend found · st.v) := by
  unfold refill
  rw [h]
  rfl

/-- and one that does not. -/
theorem refill_of_drops (found : Found) (st : ParserState) {n : Nat} (h : d.keepsAll n = false) :
    refill found d st n = fun f => Field.fastAppend found { f with values := [] } st.v := by
  unfold refill
  rw [h]
  rfl

section Fill

variable {rs : List Record} {fields : FieldMap} {r : Record} {f : Field} {n : Nat}

/-- A field has a record. -/
theorem StoredField.nonempty (h : StoredField mem d rs n f) : numbered n rs ≠ [] := by
  intro hnil
  have hwire := h.wire
  rw [hnil] at hwire
  cases hwire

/-- A record with another number does not concern a field. -/
theorem StoredField.other (h : StoredField mem d rs n f) (hne : r.number ≠ n) : StoredField mem d (rs ++ [r]) n f := by
  refine ⟨h.decoded, h.descriptor, h.unknown, ?_, ?_⟩
  · rw [numbered_append, if_neg hne]
    exact h.wire
  · rw [keptOf_append_other hne]
    exact h.values

/-- The first record of a number makes a field. -/
theorem Parsed.storedField (h : Parsed mem r st) (found : Found) (hnone : numbered r.number rs = []) :
    StoredField mem d (rs ++ [r]) r.number (Field.fastAppend found
      ⟨false, (d.findFieldByNumber r.number).isNone, r.number, st.wireType, d.findFieldByNumber r.number, []⟩ st.v) := by
  obtain ⟨v, hv, hstored⟩ := h.fastAppend found
    ⟨false, (d.findFieldByNumber r.number).isNone, r.number, st.wireType, d.findFieldByNumber r.number, []⟩
  have hkept : keptOf d rs r.number = [] := by
    unfold keptOf
    rw [hnone]
    split <;> rfl
  rw [hv]
  refine ⟨rfl, rfl, rfl, ?_, ?_⟩
  · rw [numbered_append, if_pos rfl, hnone, h.wireType]
    rfl
  · rw [keptOf_append, hkept, ite_self]
    exact List.Forall₂.cons hstored List.Forall₂.nil

/-- A further record is added, or takes the place of the one before. -/
theorem StoredField.refill (h : StoredField mem d rs r.number f) (hst : Parsed mem r st) (found : Found) :
    StoredField mem d (rs ++ [r]) r.number (CompactProtobuf.refill found d st r.number f) := by
  have hwire : (numbered r.number (rs ++ [r])).head?.map Record.wire = some f.wireType := by
    have hwire := h.wire
    obtain ⟨s, hs, hsw⟩ := Option.map_eq_some_iff.mp hwire
    rw [numbered_append, if_pos rfl, List.head?_append, hs]
    exact congrArg some hsw
  unfold CompactProtobuf.refill
  cases hkeeps : d.keepsAll r.number with
  | true =>
      obtain ⟨v, hv, hstored⟩ := hst.fastAppend found f
      rw [if_pos rfl, hv]
      refine ⟨h.decoded, h.descriptor, h.unknown, hwire, ?_⟩
      rw [keptOf_append, if_pos hkeeps]
      exact List.rel_append h.values (List.Forall₂.cons hstored List.Forall₂.nil)
  | false =>
      obtain ⟨v, hv, hstored⟩ := hst.fastAppend found { f with values := [] }
      rw [if_neg Bool.false_ne_true, hv]
      refine ⟨h.decoded, h.descriptor, h.unknown, hwire, ?_⟩
      rw [keptOf_append, if_neg (by rw [hkeeps]; exact Bool.false_ne_true)]
      exact List.Forall₂.cons hstored List.Forall₂.nil

/-- No assert of `fill fields` fails: a field that is not repeated has one value. -/
theorem StoredField.fillField (h : StoredField mem d rs r.number f) (junk : Junk) (hid : st.fieldId = r.number)
    (hfind : fields.find r.number = some f) :
    CompactProtobuf.fillField junk d fields st =
      some (fields.modify r.number (CompactProtobuf.refill (junk (.parsed st.cur)) d st r.number)) := by
  unfold CompactProtobuf.fillField
  rw [hid, hfind]
  dsimp only
  rw [h.unknown, h.descriptor]
  cases hfd : d.findFieldByNumber r.number with
  | none => rw [refill_of_keeps (junk (.parsed st.cur)) st (Descriptor.keepsAll_none hfd), Option.isNone_none, if_pos rfl]
  | some fd =>
      rw [Option.isNone_some, if_neg Bool.false_ne_true]
      dsimp only
      have hkeeps := Descriptor.keepsAll_some hfd
      by_cases hrep : fd.label = .repeated
      · rw [refill_of_keeps (junk (.parsed st.cur)) st (by rw [hkeeps]; simp [FieldDescriptor.isRepeated, hrep]), if_pos hrep]
      · have hdrops : d.keepsAll r.number = false := by
          rw [hkeeps]
          simpa [FieldDescriptor.isRepeated] using hrep
        have hlen : f.values.length = 1 := by
          have hvalues := h.values.length_eq
          unfold keptOf at hvalues
          rw [hdrops, if_neg Bool.false_ne_true, List.getLast?_eq_some_getLast h.nonempty] at hvalues
          exact hvalues.symm
        rw [refill_of_drops (junk (.parsed st.cur)) st hdrops, if_neg hrep, if_pos hlen]

end Fill

/-- **One record enters the map**: no assert fails, and the map holds one record more. -/
theorem StoredMap.fillField {rs : List Record} {fields : FieldMap} {r : Record} (h : StoredMap mem d rs fields) (junk : Junk)
    (hst : Parsed mem r st) :
    ∃ fields', CompactProtobuf.fillField junk d fields st = some fields' ∧ StoredMap mem d (rs ++ [r]) fields' := by
  have hall : ∀ fields' : FieldMap, (∃ f ∈ fields', f.id = r.number) → (∀ f ∈ fields, ∃ g ∈ fields', g.id = f.id) →
      ∀ s ∈ rs ++ [r], ∃ f ∈ fields', f.id = s.number := by
    intro fields' hnew hold s hs
    rcases List.mem_append.mp hs with hs | hs
    · obtain ⟨f, hf, hfid⟩ := h.all s hs
      obtain ⟨g, hg, hgid⟩ := hold f hf
      exact ⟨g, hg, hgid.trans hfid⟩
    · rw [List.mem_singleton] at hs
      rw [hs]
      exact hnew
  cases hfind : fields.find r.number with
  | none =>
      -- a new number: no record with it was there before
      have hnone : numbered r.number rs = [] := by
        rw [numbered, List.filter_eq_nil_iff]
        intro s hs hsn
        obtain ⟨f, hf, hfid⟩ := h.all s hs
        refine FieldMap.find_none.mp hfind f hf ?_
        rw [hfid]
        simpa using hsn
      have hfill : CompactProtobuf.fillField junk d fields st = some (FieldMap.insert (Field.fastAppend (junk (.parsed st.cur))
          ⟨false, (d.findFieldByNumber r.number).isNone, r.number, st.wireType, d.findFieldByNumber r.number, []⟩ st.v)
          fields) := by
        unfold CompactProtobuf.fillField
        rw [hst.fieldId, hfind]
      refine ⟨_, hfill, sorted_insert h.sorted hfind, ?_, ?_⟩
      · refine hall _ ⟨_, FieldMap.mem_insert.mpr (Or.inl rfl), rfl⟩ fun f hf => ?_
        exact ⟨f, FieldMap.mem_insert.mpr (Or.inr hf), rfl⟩
      · intro f hf
        rcases FieldMap.mem_insert.mp hf with rfl | hf
        · exact ⟨r.number, rfl, hst.storedField (junk (.parsed st.cur)) hnone⟩
        · obtain ⟨n, hn, hl⟩ := h.field f hf
          refine ⟨n, hn, hl.other ?_⟩
          rintro rfl
          exact FieldMap.find_none.mp hfind f hf hn
  -- the number is there, and only its field changes
  | some f =>
      obtain ⟨hf, hfid⟩ := FieldMap.find_some hfind
      obtain ⟨n, hn, hl⟩ := h.field f hf
      obtain rfl : n = r.number := by omega
      have hid : ∀ g : Field, (refill (junk (.parsed st.cur)) d st r.number g).id = g.id := by
        intro g
        unfold refill
        split <;> rfl
      refine ⟨_, hl.fillField junk hst.fieldId hfind, sorted_modify h.sorted fun g _ hg => (hid g).trans hg, ?_, ?_⟩
      · refine hall _ ⟨refill (junk (.parsed st.cur)) d st r.number f, List.mem_map.mpr ⟨f, hf, if_pos hfid⟩,
          (hid f).trans hfid⟩ ?_
        intro g hg
        refine ⟨_, List.mem_map.mpr ⟨g, hg, rfl⟩, ?_⟩
        split
        · exact hid g
        · rfl
      · intro g hg
        obtain ⟨g', hg', rfl⟩ := List.mem_map.mp hg
        by_cases hgid : g'.id = r.number
        · rw [if_pos hgid, h.sorted.eq_of_id hg' hf (hgid.trans hfid.symm)]
          exact ⟨r.number, (hid f).trans hfid, hl.refill hst _⟩
        · rw [if_neg hgid]
          obtain ⟨k, hk, hl'⟩ := h.field g' hg'
          refine ⟨k, hk, hl'.other ?_⟩
          rintro rfl
          exact hgid hk

/-- The loop from the middle of a sequence of records: `done` is parsed, `rs` is still to come. -/
theorem parseLoop_records (junk : Junk) (fuel : Nat) (st : ParserState) (done rs : List Record) {fields : FieldMap}
    (hp : Placed mem slice (bytesOf done ++ bytesOf rs)) (hs : st.slice = slice) (hpos : st.pos = (bytesOf done).length)
    (hl : StoredMap mem d done fields) (hfuel : rs.length ≤ fuel) :
    ∃ fields', parseLoop junk mem d fuel st fields = some (.kOk, fields') ∧ StoredMap mem d (done ++ rs) fields' := by
  induction rs generalizing done fields fuel st with
  | nil =>
      have hstop : ¬ st.cur < st.slice.endAddr := by
        rw [hp.cur_lt_iff hs (by rw [hpos, List.length_append]; omega), List.length_append, hpos]
        simp
      rw [List.append_nil]
      exact ⟨fields, parseLoop_stop hstop fuel, hl⟩
  | cons r rs ih =>
      obtain ⟨fuel, rfl⟩ : ∃ n, fuel = n + 1 := ⟨fuel - 1, by rw [List.length_cons] at hfuel; omega⟩
      rw [bytesOf_cons] at hp
      have hend := hp.endAddr
      have hroom := hp.room
      have hlen := r.bytes_length
      have htag := r.tag_ok.1.length_pos
      simp only [List.length_append] at hend
      obtain ⟨st', hrec, hs', hpos', hid, hw, henc, hprim⟩ := parseRecord_record r hp hs hpos
      -- the payload lies behind the tag
      have hholds : mem.Holds st'.v.encoded.start r.payload := by
        have h₁ := (Mem.holds_append.mp hp.holds).2
        unfold Record.bytes at h₁
        rw [List.append_assoc, Mem.holds_append, Mem.holds_append] at h₁
        rw [henc]
        unfold payloadSlice
        push_cast
        exact h₁.2.1
      have hparsed : Parsed mem r st' :=
        ⟨hid, hw, hholds, by rw [henc]; rfl, by rw [henc]; show _ + r.payload.length + 16 ≤ _; omega, hprim⟩
      obtain ⟨fields₁, hfill, hl₁⟩ := hl.fillField junk hparsed
      have hstep : parseStep junk mem d (st, fields) = some (st', fields₁) := by
        have hlt : st.cur < st.slice.endAddr := by
          rw [hp.cur_lt_iff hs (by rw [hpos, List.length_append]; omega), hpos]
          simp only [List.length_append]
          omega
        unfold parseStep
        simp only [if_pos hlt, hrec, hfill, Option.map_some]
      obtain ⟨fields', hloop, hl'⟩ := ih fuel st' (done ++ [r])
        (by rw [bytesOf_append, bytesOf_cons, bytesOf_nil, List.append_nil, List.append_assoc]; exact hp)
        hs' (by rw [hpos', bytesOf_append, bytesOf_cons, bytesOf_nil, List.append_nil, List.length_append]) hl₁
        (by rw [List.length_cons] at hfuel; omega)
      refine ⟨fields', ?_, by rw [List.append_assoc] at hl'; exact hl'⟩
      exact (parseLoop_step hstep fuel).trans hloop

/-- Every record has a byte, so the fuel is enough. -/
theorem length_le_bytesOf (rs : List Record) : rs.length ≤ (bytesOf rs).length := by
  induction rs with
  | nil => exact le_refl 0
  | cons r rs ih =>
      have h₁ := r.bytes_length
      have h₂ := r.tag_ok.1.length_pos
      rw [bytesOf_cons, List.length_append, List.length_cons]
      omega

/-- **`ParseMessageLazy` on the bytes of a sequence of records** succeeds and holds those that are kept. -/
theorem parse_stored {rs : List Record} (hp : Placed mem slice (bytesOf rs))
    (hreq : ∀ fd ∈ d.fields, fd.label = .required → ∃ r ∈ rs, r.number = fd.number) :
    ∃ fields, parseMessageLazy junk mem d slice [] = some (true, fields) ∧ StoredMap mem d rs fields := by
  have hend := hp.endAddr
  have hroom := hp.room
  have hle := length_le_bytesOf rs
  have hempty : StoredMap mem d [] [] := ⟨List.Pairwise.nil, by simp, by simp⟩
  obtain ⟨fields, hloop, hl⟩ := parseLoop_records junk (2 ^ 64) (startState junk slice) [] rs
    hp rfl rfl hempty (by omega)
  refine ⟨fields, ?_, hl⟩
  have hcheck : checkAllRequiredField fields d = true := by
    unfold checkAllRequiredField
    rw [List.all_eq_true]
    intro fd hfd
    by_cases hlab : fd.label = .required
    · obtain ⟨r, hr, hnum⟩ := hreq fd hfd hlab
      obtain ⟨f, hf, hfid⟩ := hl.all r hr
      have hfind := hl.sorted.find_eq hf
      rw [hfid, hnum] at hfind
      simp [hfind]
    · simp [hlab]
  unfold parseMessageLazy
  rw [if_pos (by omega), hloop]
  simp only [hcheck, if_true]

/-! ## A regular sequence of records

Regular records give a single field one record at most, so nothing is dropped. -/

/-- The value holds the payload of the record. -/
structure Held (mem : Mem) (r : Record) (v : Value) : Prop where
  holds : mem.Holds v.encoded.start r.payload
  endAddr : v.encoded.endAddr = v.encoded.start + r.payload.length
  room : v.encoded.endAddr + 16 ≤ 2 ^ 64
  len : r.wire = .kLengthDelimited → v.primitive = r.pre.length

/-- A held payload is in memory. -/
theorem Held.placed {r : Record} {v : Value} (h : Held mem r v) : Placed mem v.encoded r.payload := ⟨h.holds, h.endAddr, h.room⟩

/-- An undecoded field that holds the records with its number. -/
structure LoadedField (mem : Mem) (d : Descriptor) (rs : List Record) (n : Nat) (f : Field) : Prop where
  decoded : f.decoded = false
  descriptor : f.fieldDescriptor = d.findFieldByNumber n
  unknown : f.unknown = (d.findFieldByNumber n).isNone
  wire : ∀ r ∈ numbered n rs, f.wireType = r.wire
  nonempty : numbered n rs ≠ []
  values : List.Forall₂ (Held mem) (numbered n rs) f.values

/-- The map holds exactly the records `rs`. -/
structure Loaded (mem : Mem) (d : Descriptor) (rs : List Record) (fields : FieldMap) : Prop where
  sorted : Sorted fields
  all : ∀ r ∈ rs, ∃ f ∈ fields, f.id = r.number
  field : ∀ f ∈ fields, ∃ n : Nat, f.id = n ∧ LoadedField mem d rs n f

/-- What the parser relies on to keep every record: one wire type per number, and no second record of a field that
    is not repeated. -/
structure Regular (d : Descriptor) (rs : List Record) : Prop where
  wire : ∀ r ∈ rs, ∀ s ∈ rs, r.number = s.number → r.wire = s.wire
  single : ∀ fd ∈ d.fields, fd.label ≠ .repeated → (numbered fd.number rs).length ≤ 1

/-- All records of a number are kept. -/
theorem Regular.keptOf_eq {rs : List Record} (h : Regular d rs) (n : Nat) : keptOf d rs n = numbered n rs := by
  unfold keptOf
  split
  · rfl
  next hkeeps =>
    unfold Descriptor.keepsAll at hkeeps
    split at hkeeps
    · exact absurd rfl hkeeps
    next fd hfd =>
      obtain ⟨hmem, hnum⟩ := Descriptor.mem_of_findFieldByNumber hfd
      have hle := h.single fd hmem (by simpa [FieldDescriptor.isRepeated] using hkeeps)
      rw [Int.ofNat_inj.mp hnum] at hle
      match numbered n rs, hle with
      | [], _ => rfl
      | [_], _ => rfl

/-- Regular records are all kept, under their own wire type. -/
theorem StoredMap.loaded {rs : List Record} {fields : FieldMap} (h : StoredMap mem d rs fields) (hreg : Regular d rs) :
    Loaded mem d rs fields := by
  refine ⟨h.sorted, h.all, ?_⟩
  intro f hf
  obtain ⟨n, hid, hl⟩ := h.field f hf
  have hwire : ∀ r ∈ numbered n rs, f.wireType = r.wire := by
    intro r hr
    obtain ⟨s, hs, hsw⟩ := Option.map_eq_some_iff.mp hl.wire
    obtain ⟨hrm, hrn⟩ := List.mem_filter.mp hr
    obtain ⟨hsm, hsn⟩ := List.mem_filter.mp (List.mem_of_head? hs)
    rw [← hsw]
    exact hreg.wire s hsm r hrm ((of_decide_eq_true hsn).trans (of_decide_eq_true hrn).symm)
  have hvalues := hl.values
  rw [hreg.keptOf_eq n] at hvalues
  refine ⟨n, hid, hl.decoded, hl.descriptor, hl.unknown, hwire, hl.nonempty, ?_⟩
  apply List.Forall₂.imp _ ((List.forall₂_and_left _ _).mpr ⟨fun r hr => hr, hvalues⟩)
  rintro r v ⟨hr, hv⟩
  exact ⟨hv.holds, hv.endAddr, hv.room, fun hw => hv.len ((hwire r hr).trans hw) hw⟩

/-- **`ParseMessageLazy` on the bytes of a regular sequence of records** succeeds and holds them all. -/
theorem parse_records {rs : List Record} (hp : Placed mem slice (bytesOf rs)) (hreg : Regular d rs)
    (hreq : ∀ fd ∈ d.fields, fd.label = .required → ∃ r ∈ rs, r.number = fd.number) :
    ∃ fields, parseMessageLazy junk mem d slice [] = some (true, fields) ∧ Loaded mem d rs fields := by
  obtain ⟨fields, hparse, hstored⟩ := parse_stored hp hreq
  exact ⟨fields, hparse, hstored.loaded hreg⟩

end CompactProtobuf
end Snippets
