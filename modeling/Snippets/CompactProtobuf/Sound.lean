import Snippets.CompactProtobuf.Mirror

/-!
# `CompactProtobuf.Sound` — messages that were parsed or built

A message that `FromString` parsed from records whose wire types are those of the fields, or a new one, is sound: each field
holds payloads of its wire type, or decoded values. Every call but `FromString` keeps it sound (`Sound.step`).
-/

namespace Snippets

open Lib

namespace CompactProtobuf

variable {env : Env} {w w' w₁ : World} {p q : MessagePtr} {m : Message} {d : Descriptor} {fd gd : FieldDescriptor}
  {f f₁ : Field} {v v' : Value} {mem : Mem} {junk : Junk} {type : FieldType} {t data : Nat} {rs : List Record}
  {embedded : MessagePtr → Encoded} {fields : FieldMap} {bytes : List UInt8} {values values' : List Value}

/-! ## Words

What the parser and the decoder put into the 64-bit slot fits it. -/

/-- A varint, a `fixed64` or a `double` is one 64-bit word. -/
def WordOk (type : FieldType) (v : Value) : Prop :=
  type.member = some .varint ∨ type.member = some .d → v.primitive < 2 ^ 64

/-- The loop masks nothing off, but each turn reduces the value to 64 bits. -/
theorem parseVarintLoop_lt (e n cur len : Nat) {val : Nat} (hval : val < 2 ^ 64) :
    (parseVarintLoop mem e n cur len val).1 < 2 ^ 64 := by
  -- by induction on the bytes left, with the value so far below `2 ^ 64`
  induction n generalizing cur len val with
  | zero => exact hval
  | succ n ih =>
      have hor : val ||| (getValue (mem cur) <<< ((len - 1) * 7)) % 2 ^ 64 < 2 ^ 64 :=
        Nat.or_lt_two_pow hval (Nat.mod_lt _ (Nat.two_pow_pos 64))
      unfold parseVarintLoop
      split
      · dsimp only
        split
        · exact ih _ _ hor
        · exact hor
      · exact hval

/-- A varint that was parsed fits the slot, -/
theorem parseVarint_lt (st : ParserState) : (parseVarint mem st).v.primitive < 2 ^ 64 :=
  parseVarintLoop_lt st.slice.endAddr 10 st.cur 1 (Nat.two_pow_pos 64)

/-- so does a zigzag decoded one, -/
theorem zigzagDecode_lt {n : Nat} (hn : n < 2 ^ 64) : zigzagDecode n < 2 ^ 64 := by
  rw [zigzagDecode_eq hn]
  unfold toSize
  omega

/-- and so do eight bytes read from memory. -/
theorem read8_lt (a : Int) : ofLe (mem.read a 8) < 2 ^ 64 := by
  have hlt := ofLe_lt (mem.read a 8)
  have hpow : (256 : Nat) ^ 8 = 2 ^ 64 := by decide
  rw [Mem.read_length, hpow] at hlt
  exact hlt

/-! ## Decoding keeps words

The decoders run over all values of a field, so one fact about a value is carried through `mapM`, and through the
loop of the packed ones. -/

/-- What one call gives of a value holds of all that `mapM` gives. -/
theorem mapM_all {P Q : Value → Prop} {decode : Value → Option Value} (hdecode : ∀ v v', P v → decode v = some v' → Q v')
    (h : values.mapM decode = some values') (hvalues : ∀ v ∈ values, P v) : ∀ v ∈ values', Q v := by
  induction values generalizing values' with
  | nil =>
      cases h
      exact fun v hv => absurd hv List.not_mem_nil
  | cons v values ih =>
      rw [List.mapM_cons] at h
      obtain ⟨u, hu, h⟩ := Option.bind_eq_some_iff.mp h
      obtain ⟨us, hus, h⟩ := Option.bind_eq_some_iff.mp h
      cases h
      intro x hx
      rcases List.mem_cons.mp hx with rfl | hx
      · exact hdecode v x (hvalues v List.mem_cons_self) hu
      · exact ih hus (fun y hy => hvalues y (List.mem_cons_of_mem _ hy)) x hx

/-- The same for a decoder that keeps the rest of the field. -/
theorem decodeEach_all {P Q : Value → Prop} {decode : Value → Option Value}
    (hdecode : ∀ v v', P v → decode v = some v' → Q v') (h : decodeEach decode f = some f₁) (hvalues : ∀ v ∈ f.values, P v) :
    ∀ v ∈ f₁.values, Q v := by
  unfold decodeEach at h
  obtain ⟨values, hmap, rfl⟩ := Option.map_eq_some_iff.mp h
  exact mapM_all hdecode hmap hvalues

/-- A packed value is stored as a word of its type. -/
theorem parsePackedValue_word {st st' : ParserState} (h : parsePackedValue mem type st = some st') (v : Value) :
    WordOk type (storePacked type st'.v v) := by
  unfold parsePackedValue at h
  unfold WordOk storePacked
  intro hmember
  cases type <;> dsimp only [FieldType.member] at h hmember ⊢ <;> try exact absurd hmember (by decide)
  case int32 | int64 | uint32 | uint64 | bool | enum =>
    cases h
    exact parseVarint_lt st
  case sint32 | sint64 =>
    cases h
    exact zigzagDecode_lt (parseVarint_lt st)
  case fixed64 | sfixed64 | double =>
    split at h
    next st₁ hparse =>
      cases h
      unfold parse64Bits at hparse
      split at hparse <;> cases hparse
      exact read8_lt _
    next => cases h

theorem decodePackedLoop_word (fuel idx : Nat) {st : ParserState}
    (h : decodePackedLoop junk mem type fuel idx st values = some values') (hword : ∀ v ∈ values, WordOk type v) :
    ∀ v ∈ values', WordOk type v := by
  -- by induction on the bytes left; each turn stores in a value that is there, or adds one
  induction fuel generalizing idx st values with
  | zero =>
      unfold decodePackedLoop at h
      split at h
      · cases h
      · cases h
        exact hword
  | succ fuel ih =>
      unfold decodePackedLoop at h
      split at h
      · cases hparse : parsePackedValue mem type st with
        | none =>
            simp only [hparse] at h
            cases h
        | some st' =>
            simp only [hparse] at h
            apply ih _ h
            split
            · intro u hu
              obtain ⟨v, -, rfl⟩ := List.mem_map.mp hu
              exact parsePackedValue_word hparse v
            · intro u hu
              rcases List.mem_append.mp hu with hu | hu
              · exact hword u hu
              · rw [List.mem_singleton.mp hu]
                exact parsePackedValue_word hparse _
      · cases h
        exact hword

/-- The first element of a packed field is put into a value that is there. -/
theorem decodeInPlace_word (h : decodeInPlace junk mem fd f = some f₁)
    (hword : fd.packed = true → ∀ v ∈ f.values, WordOk fd.type v) : ∀ v ∈ f₁.values, WordOk fd.type v := by
  unfold decodeInPlace at h
  by_cases hpacked : fd.packed = true
  · rw [if_pos hpacked] at h
    unfold decodePacked at h
    split at h
    next v hv =>
      obtain ⟨values, hloop, rfl⟩ := Option.map_eq_some_iff.mp h
      rw [hv] at hword
      exact decodePackedLoop_word _ _ hloop (hword hpacked)
    next => cases h
  · rw [if_neg hpacked] at h
    have hany : ∀ v ∈ f.values, True := fun _ _ => trivial
    cases htype : fd.type <;> rw [htype] at h <;> dsimp only at h
    -- the decoder asserts that the type is none of these
    case message | group => cases h
    -- these parse a varint
    case int32 | int64 | uint32 | uint64 | bool | enum =>
      refine decodeEach_all ?_ h hany
      intro v v' _ hv _
      cases hv
      exact parseVarint_lt _
    -- and these decode it once more
    case sint32 | sint64 =>
      unfold decodeVarintWithZigZag at h
      obtain ⟨f₀, hf₀, hf₁⟩ := Option.bind_eq_some_iff.mp h
      have hword₀ : ∀ v ∈ f₀.values, v.primitive < 2 ^ 64 := by
        refine decodeEach_all ?_ hf₀ hany
        intro v v' _ hv
        cases hv
        exact parseVarint_lt _
      refine decodeEach_all ?_ hf₁ hword₀
      intro v v' hlt hv _
      cases hv
      exact zigzagDecode_lt hlt
    -- eight bytes each; the types of four bytes and of strings have no word
    case fixed64 | sfixed64 | double =>
      refine decodeEach_all ?_ h hany
      intro v v' _ hv _
      cases hv
      exact read8_lt _
    case fixed32 | sfixed32 | float | string | bytes =>
      intro v _ hmember
      exact absurd hmember (by decide)

/-! ## The invariant

What holds of a field of a sound message while its values wait for their decoding, and afterwards. -/

/-- The value holds the payload of a record with this number and wire type. -/
def HoldsPayload (mem : Mem) (n : Nat) (wire : WireType) (v : Value) : Prop :=
  ∃ r : Record, r.number = n ∧ r.wire = wire ∧ Held mem r v

/-- A field of a sound message has its descriptor, the wire type of that, and values that are payloads before
    decoding and words after. -/
structure SoundField (mem : Mem) (fd : FieldDescriptor) (f : Field) : Prop where
  id : f.id = fd.number
  fieldDescriptor : f.fieldDescriptor = some fd
  wireType : getFieldWireType fd = some f.wireType
  nonempty : f.values ≠ []
  single : fd.isRepeated = false → f.values.length = 1
  values : ∀ v ∈ f.values, if f.decoded then WordOk fd.type v else HoldsPayload mem fd.number f.wireType v

/-- A field of `unknown_fields`. -/
structure SoundUnknown (mem : Mem) (d : Descriptor) (n : Nat) (f : Field) : Prop where
  id : f.id = n
  unknown : d.findFieldByNumber n = none
  lt : n < 2 ^ 29
  values : ∀ v ∈ f.values, HoldsPayload mem n f.wireType v

/-- A sound message is an ordered map of sound fields of its descriptor. -/
structure SoundMessage (env : Env) (mem : Mem) (t : Nat) (m : Message) : Prop where
  descriptor : m.descriptor = t
  sorted : Sorted m.fields
  fields : ∀ f ∈ m.fields, ∃ fd ∈ (env.pool t).fields, SoundField mem fd f
  unknownFields : ∀ f ∈ m.unknownFields.getD [], ∃ n, SoundUnknown mem (env.pool t) n f

/-- The message at `p` is sound. -/
def Sound (env : Env) (p : MessagePtr) (t : Nat) (w : World) : Prop :=
  ∃ m, w.messages[p]? = some m ∧ SoundMessage env w.mem t m

/-! ## Fields

Decoding a sound field and storing new values in it leave it sound. -/

/-- A length prefix has at most ten bytes. -/
theorem PayloadOk.pre_le {wire : WireType} {pre payload : List UInt8} (h : PayloadOk wire pre payload) : pre.length ≤ 10 := by
  cases h with
  | delimited h10 => exact h10.2
  | varint => exact Nat.zero_le _
  | bits64 => exact Nat.zero_le _
  | bits32 => exact Nat.zero_le _

/-- The length that a delimited payload holds in the slot fits it. -/
theorem HoldsPayload.primitive_lt {n : Nat} (h : HoldsPayload mem n .kLengthDelimited v) : v.primitive < 2 ^ 64 := by
  obtain ⟨r, -, hwire, hheld⟩ := h
  have hpre := r.payload_ok.pre_le
  rw [hheld.len hwire]
  omega

/-- Decoding keeps a field sound. -/
theorem SoundField.decode {junk : Junk} (h : SoundField w.mem fd f) (hdec : f.decoded = false)
    (hdecode : decodeField (env.withJunk junk) w f = some (w₁, f₁)) : SoundField w.mem fd f₁ := by
  obtain ⟨hheader, -⟩ := decodeField_header hdecode
  have hheader' : f₁ = { f with decoded := true, values := f₁.values } := hheader
  obtain ⟨-, -, hcount⟩ := decodeField_spec (p := 0) h.fieldDescriptor hdecode
  have hwords : ∀ v ∈ f₁.values, WordOk fd.type v := by
    by_cases htype : fd.type = .message
    · intro v _ hmember
      rw [htype] at hmember
      exact absurd hmember (by decide)
    · rw [decodeField_inPlace h.fieldDescriptor htype] at hdecode
      obtain ⟨g, hg, heq⟩ := Option.map_eq_some_iff.mp hdecode
      cases heq
      refine decodeInPlace_word hg ?_
      intro hpacked v hv _
      have hpayload := h.values v hv
      rw [hdec, if_neg Bool.false_ne_true, wireType_of_packed h.wireType hpacked] at hpayload
      exact hpayload.primitive_lt
  rw [hheader']
  refine ⟨h.id, h.fieldDescriptor, h.wireType, ?_, ?_, ?_⟩
  -- there is a value: a packed field asserts it, another has as many as before
  · by_cases hpacked : fd.packed = true
    · rw [if_pos hpacked] at hcount
      exact hcount.2
    · rw [if_neg hpacked] at hcount
      intro hnil
      have hnil' : f₁.values = [] := hnil
      rw [hnil'] at hcount
      exact h.nonempty (List.length_eq_zero_iff.mp hcount.symm)
  -- a field that is not repeated is not packed, and keeps its one value
  · intro hrep
    have hpacked : ¬ fd.packed = true := by
      intro hpacked
      rw [FieldDescriptor.isRepeated, (fd.packed_repeated hpacked).1] at hrep
      cases hrep
    rw [if_neg hpacked] at hcount
    exact hcount.trans (h.single hrep)
  · intro v hv
    exact hwords v hv

/-- A decoded field with other values. -/
theorem SoundField.withValues (h : SoundField mem fd f) (hdec : f.decoded = true) (hne : values ≠ [])
    (hsingle : fd.isRepeated = false → values.length = 1) (hvalues : ∀ v ∈ values, WordOk fd.type v) :
    SoundField mem fd { f with values := values } := by
  refine ⟨h.id, h.fieldDescriptor, h.wireType, hne, hsingle, ?_⟩
  intro v hv
  show if f.decoded then _ else _
  rw [hdec, if_pos rfl]
  exact hvalues v hv

/-- A decoded field holds words. -/
theorem SoundField.words (h : SoundField mem fd f) (hdec : f.decoded = true) : ∀ v ∈ f.values, WordOk fd.type v := by
  intro v hv
  have hvalue := h.values v hv
  rw [hdec, if_pos rfl] at hvalue
  exact hvalue

/-- A new field with one word is sound. -/
theorem newField_sound {wireType : WireType} (hwire : getFieldWireType fd = some wireType) (hv : WordOk fd.type v) :
    SoundField mem fd (newField fd wireType v) := by
  refine ⟨rfl, rfl, hwire, List.cons_ne_nil _ _, fun _ => rfl, ?_⟩
  intro u hu
  rw [List.mem_singleton.mp hu]
  exact hv

/-! ## Messages

The same for the map: looking up, putting in, storing and erasing. -/

/-- The field under the number of a descriptor is sound for it. -/
theorem SoundMessage.of_id (h : SoundMessage env mem t m) (hfd : fd ∈ (env.pool t).fields) (hf : f ∈ m.fields)
    (hid : f.id = fd.number) : SoundField mem fd f := by
  obtain ⟨gd, hgd, hsound⟩ := h.fields f hf
  have hnumber : gd.number = fd.number := Int.ofNat_inj.mp (hsound.id.symm.trans hid)
  rw [← Descriptor.eq_of_number hgd hfd hnumber]
  exact hsound

/-- Putting a sound field in under a new number keeps the message sound, -/
theorem SoundMessage.insert (h : SoundMessage env mem t m) (hfd : fd ∈ (env.pool t).fields) (hf : SoundField mem fd f)
    (hnone : m.fields.find fd.number = none) : SoundMessage env mem t { m with fields := FieldMap.insert f m.fields } := by
  refine ⟨h.descriptor, sorted_insert h.sorted (by rw [hf.id]; exact hnone), ?_, h.unknownFields⟩
  intro g hg
  rcases FieldMap.mem_insert.mp hg with rfl | hg
  · exact ⟨fd, hfd, hf⟩
  · exact h.fields g hg

/-- so does storing a field in the place of one, -/
theorem SoundMessage.store (h : SoundMessage env mem t m) (hfd : fd ∈ (env.pool t).fields) (hf : SoundField mem fd f) :
    SoundMessage env mem t { m with fields := m.fields.modify f.id fun _ => f } := by
  refine ⟨h.descriptor, sorted_modify h.sorted fun _ _ _ => rfl, ?_, h.unknownFields⟩
  intro g hg
  obtain ⟨g', hg', rfl | ⟨-, rfl⟩⟩ := FieldMap.mem_modify hg
  · exact h.fields g hg'
  · exact ⟨fd, hfd, hf⟩

/-- and erasing one. -/
theorem SoundMessage.erase (h : SoundMessage env mem t m) (id : Int) :
    SoundMessage env mem t { m with fields := m.fields.erase id } :=
  ⟨h.descriptor, h.sorted.filter _, fun g hg => h.fields g (List.mem_of_mem_filter hg), h.unknownFields⟩

/-- A world whose memory and whose message `p` are as before is sound as before. -/
theorem Sound.keep (h : Sound env p t w) (hmem : w'.mem = w.mem)
    (hp : ∀ m, w.messages[p]? = some m → w'.messages[p]? = some m) : Sound env p t w' := by
  obtain ⟨m, hm, hsound⟩ := h
  refine ⟨m, hp m hm, ?_⟩
  rw [hmem]
  exact hsound

/-- A change of some message, which keeps the one at `p` sound when it is that one. -/
theorem Sound.change {g : FieldMap → FieldMap} (h : Sound env p t w)
    (hg : q = p → ∀ m, w.messages[p]? = some m → SoundMessage env w.mem t m →
      SoundMessage env w.mem t { m with fields := g m.fields }) : Sound env p t (w.change q g) := by
  by_cases hq : q = p
  · subst hq
    obtain ⟨m, hm, hsound⟩ := h
    exact ⟨_, change_self hm, hg rfl m hm hsound⟩
  · refine h.keep rfl ?_
    intro m hm
    rw [change_other (Ne.symm hq)]
    exact hm

/-! ## Calls

A call edits the world step by step, by decoding, making values, inserting, storing and erasing; each edit keeps
it sound. -/

/-- The field found in a message of the world is sound. -/
theorem Sound.of_id (h : Sound env p t w) (hm : w.messages[p]? = some m) (hfd : fd ∈ (env.pool m.descriptor).fields)
    (hf : m.fields.find fd.number = some f) : fd ∈ (env.pool t).fields ∧ SoundField w.mem fd f := by
  obtain ⟨m₀, hm₀, hsound⟩ := h
  obtain rfl : m₀ = m := Option.some.inj (hm₀.symm.trans hm)
  rw [hsound.descriptor] at hfd
  obtain ⟨hmem, hid⟩ := FieldMap.find_some hf
  exact ⟨hfd, hsound.of_id hfd hmem hid⟩

/-- Making a value adds messages and changes none. -/
theorem Sound.made (h : Sound env p t w) (hmade : w₁ = w ∨ ∃ v, Made w w₁ q fd v) : Sound env p t w₁ ∧ w₁.mem = w.mem := by
  have hmem : w₁.mem = w.mem := by rcases world_of_made hmade with rfl | rfl <;> rfl
  exact ⟨h.keep hmem fun m hm => found_of_made hmade hm, hmem⟩

/-- **An edit keeps the message sound**, of whatever message it is. -/
theorem Sound.edit (h : Sound env p t w) (hedit : Edit env q w w') : Sound env p t w' := by
  cases hedit with
  | @decode junk m fd f f₁ w₁ hm hfd hf hdec hdecode =>
      obtain ⟨-, hext⟩ := decodeField_header hdecode
      have hmem : w₁.mem = w.mem := (hext 0).mem
      have h₁ : Sound env p t w₁ :=
        h.keep hmem fun m hm => (hext (p + 1)).old _ _ (Nat.ne_of_lt (Nat.lt_succ_self p)) hm
      refine h₁.change ?_
      rintro rfl m' _ hsound
      obtain ⟨hfd', hfield⟩ := h.of_id hm hfd hf
      refine hsound.store hfd' ?_
      rw [hmem]
      exact hfield.decode hdec hdecode
  -- a new field under a number that has none
  | @insert m fd w₁ v wireType hm hfd hnone hmade hwire =>
      obtain ⟨h₁, -⟩ := h.made (Or.inr ⟨_, hmade⟩)
      refine h₁.change ?_
      rintro rfl m' hm' hsound
      obtain rfl : m' = m := Option.some.inj (hm'.symm.trans (found_of_made (Or.inr ⟨_, hmade⟩) hm))
      rw [hsound.descriptor] at hfd
      exact hsound.insert hfd (newField_sound hwire hmade.value.word) hnone
  -- new values for a decoded field
  | @revalue m fd f w₁ values hm hfd hf hdec hworld hne hsingle hvalues =>
      obtain ⟨h₁, -⟩ := h.made hworld
      refine h₁.change ?_
      rintro rfl m' _ hsound
      obtain ⟨hfd', hfield⟩ := h₁.of_id (found_of_made hworld hm) hfd hf
      refine hsound.store hfd' (hfield.withValues hdec (hne hfield.nonempty) ?_ ?_)
      · exact fun hrep => hsingle hrep (hfield.single hrep)
      · intro v hv
        rcases hvalues v hv with hv | hmade
        · exact hfield.words hdec v hv
        · exact hmade.value.word
  | erase hm hfd hf =>
      refine h.change ?_
      rintro rfl m' _ hsound
      exact hsound.erase _

/-- `TryDecodeField`, of the message itself. -/
theorem Sound.tryDecodeField (h : Sound env p t w) (hm : w.messages[p]? = some m) (hfd : fd ∈ (env.pool m.descriptor).fields)
    (hf : m.fields.find fd.number = some f) (htry : w.tryDecodeField env p f = some (w₁, f₁)) :
    Sound env p t w₁ ∧ f₁.decoded = true ∧ SoundField w₁.mem fd f₁ ∧
      ∃ m₁, w₁.messages[p]? = some m₁ ∧ m₁.fields.find fd.number = some f₁ := by
  obtain ⟨hedits, hdec, m₁, hm₁, hd, hf₁⟩ := tryDecodeField_edits hm hfd hf htry
  have h₁ : Sound env p t w₁ := by
    clear hm₁ hd hf₁ htry
    induction hedits with
    | refl => exact h
    | tail _ hlast ih => exact ih.edit hlast
  rw [← hd] at hfd
  exact ⟨h₁, hdec, (h₁.of_id hm₁ hfd hf₁).2, m₁, hm₁, hf₁⟩

/-- **Every call but `FromString` keeps the message sound**, on whatever message it is made. -/
theorem Sound.step {c : MessagePtr × Call} (h : Sound env p t w) (hstep : CallStep env (fun c => !c.parses) 0 w c w') :
    Sound env p t w' :=
  hstep.invariant (I := Sound env p t) (fun _ hc => by simpa using hc) (fun _ _ _ _ h hedit => h.edit hedit) h

/-! ## Where it begins

`FromString` fills a field from the records of its number; these have its wire type when the input conforms to
the descriptor. -/

/-- One wire type per number, and that of the field for a known one. -/
structure Conforms (d : Descriptor) (rs : List Record) : Prop where
  wire : ∀ r ∈ rs, ∀ s ∈ rs, r.number = s.number → r.wire = s.wire
  known : ∀ r ∈ rs, ∀ fd, d.findFieldByNumber r.number = some fd → getFieldWireType fd = some r.wire

/-- The message at `p` is new, or was parsed from records that conform to its type. -/
def Begins (env : Env) (p : MessagePtr) (t : Nat) (w : World) : Prop :=
  w.messages[p]? = some (newMessage t) ∨
    ∃ (w₀ : World) (data : Nat) (rs : List Record), w₀.messages[p]? = some (newMessage t) ∧ w₀.mem.Holds data (bytesOf rs) ∧
      data + (bytesOf rs).length + 16 ≤ 2 ^ 64 ∧ Conforms (env.pool t) rs ∧
      (∀ fd ∈ (env.pool t).fields, fd.label = .required → ∃ r ∈ rs, r.number = fd.number) ∧
      w₀.fromString env.pool env.junk p data (bytesOf rs).length = some (w, true)

section Stored

variable {n : Nat}

/-- The records of one number have one wire type, so each value holds a payload of it. -/
theorem StoredField.holdsPayload (h : StoredField mem d rs n f) (hwire : ∀ r ∈ rs, ∀ s ∈ rs, r.number = s.number → r.wire = s.wire) :
    ∀ v ∈ f.values, HoldsPayload mem n f.wireType v := by
  intro v hv
  obtain ⟨r, hr, hstored⟩ := exists_of_mem_right h.values hv
  obtain ⟨hr, hnum⟩ := List.mem_filter.mp (mem_kept hr)
  obtain ⟨s, hs, hsw⟩ := Option.map_eq_some_iff.mp h.wire
  obtain ⟨hs, hsnum⟩ := List.mem_filter.mp (List.mem_of_head? hs)
  have hrw : r.wire = f.wireType := by
    rw [← hsw]
    exact hwire r hr s hs ((of_decide_eq_true hnum).trans (of_decide_eq_true hsnum).symm)
  exact ⟨r, of_decide_eq_true hnum, hrw, hstored.held fun hld => hrw.symm.trans hld⟩

/-- A field that was filled from conforming records is sound. -/
theorem StoredField.sound (h : StoredField mem d rs n f) (hconf : Conforms d rs) (hid : f.id = n)
    (hfd : d.findFieldByNumber n = some fd) : SoundField mem fd f := by
  obtain ⟨-, hnumber⟩ := Descriptor.mem_of_findFieldByNumber hfd
  have hnum : fd.number = n := Int.ofNat_inj.mp hnumber
  have hlen := h.values.length_eq
  obtain ⟨s, hs, hsw⟩ := Option.map_eq_some_iff.mp h.wire
  obtain ⟨hs, hsnum⟩ := List.mem_filter.mp (List.mem_of_head? hs)
  have hlast := List.getLast?_eq_some_getLast h.nonempty
  refine ⟨hid.trans hnumber.symm, h.descriptor.trans hfd, ?_, ?_, ?_, ?_⟩
  · rw [← hsw]
    refine hconf.known s hs fd ?_
    rw [of_decide_eq_true hsnum]
    exact hfd
  · intro hnil
    rw [hnil] at hlen
    unfold keptOf at hlen
    split at hlen
    · exact h.nonempty (List.length_eq_zero_iff.mp hlen)
    · rw [hlast] at hlen
      cases hlen
  · intro hrep
    rw [← hlen]
    unfold keptOf
    rw [Descriptor.keepsAll_some hfd, hrep, if_neg Bool.false_ne_true, hlast]
    rfl
  · intro v hv
    rw [h.decoded, if_neg Bool.false_ne_true, hnum]
    exact h.holdsPayload hconf.wire v hv

/-- So is the message, once the unknown fields are split off. -/
theorem StoredMap.sound (h : StoredMap mem (env.pool t) rs fields) (hconf : Conforms (env.pool t) rs) :
    SoundMessage env mem t (splitUnknown ⟨t, fields, none⟩) := by
  obtain ⟨hknown, hunknown, hdesc⟩ := splitUnknown_halves h.sorted t
  refine ⟨hdesc, ?_, ?_, ?_⟩
  · rw [hknown]
    exact h.sorted.filter _
  · intro f hf
    rw [hknown] at hf
    obtain ⟨hmem, hflag⟩ := List.mem_filter.mp hf
    obtain ⟨n, hid, hl⟩ := h.field f hmem
    have hnone := hl.unknown.symm.trans (eq_of_beq hflag)
    cases hfd : (env.pool t).findFieldByNumber n with
    | none =>
        rw [hfd] at hnone
        cases hnone
    | some fd => exact ⟨fd, (Descriptor.mem_of_findFieldByNumber hfd).1, hl.sound hconf hid hfd⟩
  · intro f hf
    rw [hunknown] at hf
    obtain ⟨hmem, hflag⟩ := List.mem_filter.mp hf
    obtain ⟨n, hid, hl⟩ := h.field f hmem
    have hnone := hl.unknown.symm.trans (eq_of_beq hflag)
    obtain ⟨r, hr⟩ := List.exists_mem_of_ne_nil _ hl.nonempty
    have hlt := r.number_lt
    rw [of_decide_eq_true (List.mem_filter.mp hr).2] at hlt
    exact ⟨n, hid, Option.isNone_iff_eq_none.mp hnone, hlt, hl.holdsPayload hconf.wire⟩

end Stored

/-- A run begins with a new message, which has no fields, or with a parsed one. -/
theorem Begins.sound (h : Begins env p t w) : Sound env p t w := by
  rcases h with hnew | ⟨w₀, data, rs, hfresh, hholds, hroom, hconf, hreq, hfrom⟩
  · exact ⟨_, hnew, rfl, List.Pairwise.nil, fun f hf => absurd hf List.not_mem_nil, fun f hf => absurd hf List.not_mem_nil⟩
  · obtain ⟨fields, hstored, hfrom'⟩ := @fromString_stored env.pool env.junk _ _ _ _ _ hfresh hholds hroom hreq
    rw [hfrom] at hfrom'
    cases hfrom'
    exact ⟨_, List.getElem?_set_self (List.getElem?_eq_some_iff.mp hfresh).1, hstored.sound hconf⟩

/-- **A message that was parsed or built is sound**, after every run of calls. -/
theorem sound_of_calls {cs : List (MessagePtr × Call)} (h : Begins env p t w)
    (hrun : Run (CallStep env (fun c => !c.parses) 0) w cs w') : Sound env p t w' :=
  hrun.invariant (I := Sound env p t) (fun _ _ _ hsound hstep => hsound.step hstep) h.sound

end CompactProtobuf
end Snippets
