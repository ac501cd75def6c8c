import Snippets.CompactProtobuf.Calls
import Snippets.CompactProtobuf.Decoding
import Snippets.CompactProtobuf.FieldMap
import Snippets.CompactProtobuf.Progress
import Snippets.Lib.Lockstep

/-!
# `CompactProtobuf.Uninitialised` — what does not depend on what a new value finds

`FastAppend` sets the slice of a new value and, in a length-delimited field, the length; decoding sets the member that the
type of the field uses. The rest of the value is whatever `new` found in memory, which no two runs need to agree on.

Two runs parse the same bytes. The fields they make agree in what was set (`Closed`), and so do the embedded messages
(`Message.shown`). Decoding such a field gives values that agree in the member of their type (`SameValue`), provided that the
length is there where it is read (`Sized`).
-/

namespace Snippets

open Lib

namespace CompactProtobuf

variable {env : Env} {w w' w₁ w₂ u u' : World} {p q : MessagePtr} {d : Descriptor} {fd : FieldDescriptor} {f f' f₁ : Field}
  {v v' : Value} {junk junk' : Junk} {mem : Mem} {values values' : List Value} {st st' : ParserState}
  {R : Field → Field → Prop} {fields fields' : FieldMap} {m m' : Message} {type : FieldType}

/-! ## Fields that are not decoded

All of the field but what `new` left in its values is the same. -/

/-- Two values agree in what `FastAppend` sets in a field with this wire type. -/
def SameSlice (wire : WireType) (v v' : Value) : Prop :=
  v'.encoded = v.encoded ∧ (wire = .kLengthDelimited → v'.primitive = v.primitive)

/-- A field that neither run has decoded. -/
structure Closed (d : Descriptor) (f f' : Field) : Prop where
  header : f' = { f with values := f'.values }
  closed : f.decoded = false
  fieldDescriptor : f.fieldDescriptor = d.findFieldByNumber f.id
  unknown : f.unknown = f.fieldDescriptor.isNone
  values : List.Forall₂ (SameSlice f.wireType) f.values f'.values

/-- The two fields have one number, -/
theorem Closed.id_eq (h : Closed d f f') : f'.id = f.id := by rw [h.header]

/-- are both known or both unknown, -/
theorem Closed.unknown_eq (h : Closed d f f') : f'.unknown = f.unknown := by rw [h.header]

/-- and have one wire type -/
theorem Closed.wireType_eq (h : Closed d f f') : f'.wireType = f.wireType := by rw [h.header]

/-- and one descriptor. -/
theorem Closed.fieldDescriptor_eq (h : Closed d f f') : f'.fieldDescriptor = f.fieldDescriptor := by rw [h.header]

/-- The other is not decoded either. -/
theorem Closed.decoded_eq (h : Closed d f f') : f'.decoded = false := by
  rw [h.header]
  exact h.closed

/-- So the two show the same. -/
theorem Closed.shown_eq (h : Closed d f f') : f'.shown = f.shown := by
  have hvalues : f'.values.map (Value.encodedPart f.wireType) = f.values.map (Value.encodedPart f.wireType) := by
    refine map_eq_of_forall₂ h.values ?_
    rintro v v' - ⟨hencoded, hlen⟩
    unfold Value.encodedPart
    rw [hencoded]
    split
    next hwire => rw [hlen hwire]
    next => rfl
  unfold Field.shown
  rw [h.decoded_eq, h.closed, if_neg Bool.false_ne_true, if_neg Bool.false_ne_true, h.wireType_eq, hvalues, h.header]

/-- A new value for the same record. -/
theorem Closed.fastAppend (h : Closed d f f') (found found' : Found) (hencoded : v'.encoded = v.encoded)
    (hprimitive : v'.primitive = v.primitive) : Closed d (f.fastAppend found v) (f'.fastAppend found' v') := by
  refine ⟨?_, h.closed, h.fieldDescriptor, h.unknown, ?_⟩
  · unfold Field.fastAppend
    rw [h.header]
  · refine List.rel_append h.values (List.Forall₂.cons ?_ List.Forall₂.nil)
    rw [h.wireType_eq]
    by_cases hwire : f.wireType = .kLengthDelimited
    · rw [if_pos hwire, if_pos hwire]
      exact ⟨hencoded, fun _ => hprimitive⟩
    · rw [if_neg hwire, if_neg hwire]
      exact ⟨hencoded, fun hw => absurd hw hwire⟩

/-! ## Parsing a record

The parser's state is the same but for the value it carries, whose members are only what the last record set. -/

/-- Two states that differ in nothing but the value. -/
def SameState (st st' : ParserState) : Prop := st' = { st with v := st'.v }

/-- What two runs hand to `fill fields`. -/
structure SameRecord (st st' : ParserState) : Prop where
  state : SameState st st'
  encoded : st'.v.encoded = st.v.encoded
  primitive : st'.v.primitive = st.v.primitive

/-- The two parsers begin alike. -/
theorem sameState_start (junk junk' : Junk) (slice : Slice) : SameState (startState junk slice) (startState junk' slice) := rfl

/-- They stand at the same place, -/
theorem SameState.cur_eq (h : SameState st st') : st'.cur = st.cur := by rw [h]; rfl

/-- at the same field, -/
theorem SameState.fieldId_eq (h : SameState st st') : st'.fieldId = st.fieldId := by rw [h]

/-- with the same wire type -/
theorem SameState.wireType_eq (h : SameState st st') : st'.wireType = st.wireType := by rw [h]

/-- and the same end. -/
theorem SameState.endAddr_eq (h : SameState st st') : st'.slice.endAddr = st.slice.endAddr := by rw [h]

/-- `ParseVarint` sets the whole union. -/
theorem parseVarint_rel (mem : Mem) (h : SameState st st') : SameState (parseVarint mem st) (parseVarint mem st') ∧
    (parseVarint mem st').v.primitive = (parseVarint mem st).v.primitive := by
  rw [h]
  exact ⟨rfl, rfl⟩

/-- A tag is read from the bytes alone. -/
theorem parseTag_rel (mem : Mem) (h : SameState st st') : (parseTag mem st').1 = (parseTag mem st).1 ∧
    SameState (parseTag mem st).2 (parseTag mem st').2 ∧
    (parseTag mem st').2.v.primitive = (parseTag mem st).2.v.primitive := by
  rw [h]
  unfold parseTag
  have hstate := parseVarint_rel mem h
  rw [h] at hstate
  obtain ⟨hstate, hprimitive⟩ := hstate
  dsimp only
  rw [hprimitive]
  split
  · exact ⟨rfl, by rw [hstate]; rfl, hprimitive⟩
  · exact ⟨rfl, by rw [hstate]; rfl, hprimitive⟩

/-- The length of a length-delimited value replaces the tag in the union; any other value leaves it there. -/
theorem parseValueLazy_rel (h : SameState st st') (hprimitive : st'.v.primitive = st.v.primitive) :
    (parseValueLazy mem st').1 = (parseValueLazy mem st).1 ∧
      ((parseValueLazy mem st).1 = .kOk → SameRecord (parseValueLazy mem st).2 (parseValueLazy mem st').2) := by
  obtain ⟨slice, pos, fieldId, wireType, v⟩ := st
  obtain ⟨slice', pos', fieldId', wireType', v'⟩ := st'
  cases h
  have hfixed : ∀ width, (parseFixedLazy width ⟨slice, pos, fieldId, wireType, v'⟩).1 =
        (parseFixedLazy width ⟨slice, pos, fieldId, wireType, v⟩).1 ∧
      ((parseFixedLazy width ⟨slice, pos, fieldId, wireType, v⟩).1 = .kOk →
        SameRecord (parseFixedLazy width ⟨slice, pos, fieldId, wireType, v⟩).2
          (parseFixedLazy width ⟨slice, pos, fieldId, wireType, v'⟩).2) := by
    intro width
    unfold parseFixedLazy ParserState.cur
    dsimp only
    split
    · exact ⟨rfl, fun hok => by cases hok⟩
    · exact ⟨rfl, fun _ => ⟨rfl, rfl, hprimitive⟩⟩
  unfold parseValueLazy
  cases wireType with
  | kVarint => exact ⟨rfl, fun _ => ⟨rfl, rfl, hprimitive⟩⟩
  | k64Bits => exact hfixed 8
  | k32Bits => exact hfixed 4
  | kLengthDelimited =>
      unfold parseLengthDelimitedLazy parseVarintInternal ParserState.cur
      dsimp only
      split
      · exact ⟨rfl, fun hok => by cases hok⟩
      · exact ⟨rfl, fun _ => ⟨rfl, rfl, rfl⟩⟩

/-- **A record is parsed alike** in both runs. -/
theorem parseRecord_rel (mem : Mem) (h : SameState st st') : (parseRecord mem st').1 = (parseRecord mem st).1 ∧
    ((parseRecord mem st).1 = .kOk → SameRecord (parseRecord mem st).2 (parseRecord mem st').2) := by
  obtain ⟨hstatus, hstate, hprimitive⟩ := parseTag_rel mem h
  unfold parseRecord
  cases htag : parseTag mem st with
  | mk status r =>
      cases htag' : parseTag mem st' with
      | mk status' r' =>
          rw [htag, htag'] at hstatus hstate hprimitive
          cases hstatus
          cases status with
          | kOk => exact parseValueLazy_rel hstate hprimitive
          | kUnknownError => exact ⟨rfl, fun hok => by cases hok⟩
          | kInvalidWireType => exact ⟨rfl, fun hok => by cases hok⟩
          | kNeedsMore => exact ⟨rfl, fun hok => by cases hok⟩

/-! ## Parsing a message

The loop over the records. A client's field may be decoded in the one message and not in the other, so the
relation of the fields is a parameter, and a step asks that a field to be filled is `Closed`. -/

/-- A relation of fields that holds of those that neither run has decoded. -/
structure Parses (d : Descriptor) (R : Field → Field → Prop) : Prop where
  id_eq : ∀ f f', R f f' → f'.id = f.id
  unknown_eq : ∀ f f', R f f' → f'.unknown = f.unknown
  closed : ∀ f f', Closed d f f' → R f f'

/-- Two fields that are not decoded are such a relation. -/
theorem parses_closed : Parses d (Closed d) where
  id_eq := fun _ _ hf => hf.id_eq
  unknown_eq := fun _ _ hf => hf.unknown_eq
  closed := fun _ _ hf => hf

/-- **`fill fields` in both runs**, when neither has decoded the field of the record. -/
theorem fillField_rel (junk junk' : Junk) (hR : Parses d R) (hrec : SameRecord st st') (h : List.Forall₂ R fields fields')
    (hready : ∀ f f', f' ∈ fields' → R f f' → f.id = st.fieldId → Closed d f f') :
    Option.Rel (List.Forall₂ R) (fillField junk d fields st) (fillField junk' d fields' st') := by
  -- the two ways to fill a field: adding a value, and adding it in the place of all
  have happend : List.Forall₂ R (fields.modify st.fieldId (Field.fastAppend (junk (.parsed st.cur)) · st.v))
      (fields'.modify st.fieldId (Field.fastAppend (junk' (.parsed st'.cur)) · st'.v)) := by
    apply modify_pointwise hR.id_eq _ h
    intro f f' hmem hf hfid
    exact hR.closed _ _ ((hready f f' hmem hf hfid).fastAppend _ _ hrec.encoded hrec.primitive)
  have hreplace : List.Forall₂ R
      (fields.modify st.fieldId fun f => Field.fastAppend (junk (.parsed st.cur)) { f with values := [] } st.v)
      (fields'.modify st.fieldId fun f => Field.fastAppend (junk' (.parsed st'.cur)) { f with values := [] } st'.v) := by
    apply modify_pointwise hR.id_eq _ h
    intro f f' hmem hf hfid
    -- both take the same branch, since they test the header and the number of values
    have hclosed := hready f f' hmem hf hfid
    have hempty : Closed d { f with values := [] } { f' with values := [] } :=
      ⟨by rw [hclosed.header], hclosed.closed, hclosed.fieldDescriptor, hclosed.unknown, List.Forall₂.nil⟩
    exact hR.closed _ _ (hempty.fastAppend _ _ hrec.encoded hrec.primitive)
  have hfind := find_pointwise hR.id_eq h st.fieldId
  unfold fillField
  rw [hrec.state.fieldId_eq, hrec.state.wireType_eq]
  cases hf : fields.find st.fieldId with
  | none =>
      cases hf' : fields'.find st.fieldId with
      | some f' =>
          rw [hf, hf'] at hfind
          cases hfind
      | none =>
          -- a new field, which neither has decoded
          have hnew : Closed d ⟨false, (d.findFieldByNumber st.fieldId).isNone, st.fieldId, st.wireType,
              d.findFieldByNumber st.fieldId, []⟩ ⟨false, (d.findFieldByNumber st.fieldId).isNone, st.fieldId, st.wireType,
              d.findFieldByNumber st.fieldId, []⟩ := ⟨rfl, rfl, rfl, rfl, List.Forall₂.nil⟩
          have happended := hR.closed _ _ (hnew.fastAppend (junk (.parsed st.cur)) (junk' (.parsed st'.cur)) hrec.encoded
            hrec.primitive)
          exact Option.Rel.some (insert_pointwise hR.id_eq happended h)
  | some f =>
      cases hf' : fields'.find st.fieldId with
      | none =>
          rw [hf, hf'] at hfind
          cases hfind
      | some f' =>
          rw [hf, hf'] at hfind
          cases hfind with
          | some hff' =>
              have hclosed := hready f f' (FieldMap.find_some hf').1 hff' (FieldMap.find_some hf).2
              dsimp only
              rw [hclosed.unknown_eq, hclosed.fieldDescriptor_eq, ← hclosed.values.length_eq]
              split
              · exact Option.Rel.some happend
              · split
                · exact Option.Rel.none
                · split
                  · exact Option.Rel.some happend
                  · split
                    · exact Option.Rel.some hreplace
                    · exact Option.Rel.none

/-- What parsing comes to in the two runs. The fields of the second are those of one of its states. -/
structure ParsedAlike {β : Type} (R : Field → Field → Prop) (Ready : ParserState × FieldMap → Prop) (r r' : β × FieldMap) :
    Prop where
  status : r'.1 = r.1
  sorted : Sorted r.2
  fields : List.Forall₂ R r.2 r'.2
  ready : ∃ st, Ready (st, r'.2)

section Loop

variable {Ready : ParserState × FieldMap → Prop} (hR : Parses d R)
  (hstep : ∀ s s', Ready s → parseStep junk' mem d s = some s' → Ready s')
  (hready : ∀ s r, Ready s → s.1.cur < s.1.slice.endAddr → parseRecord mem s.1 = (.kOk, r) →
    ∀ f f', f' ∈ s.2 → R f f' → f.id = r.fieldId → Closed d f f')

include hR hstep hready

/-- **The loop of `ParseMessageLazy` in both runs**, by induction on the records to come. -/
theorem parseLoop_rel (junk : Junk) (fuel : Nat) (hst : SameState st st') (hs : Sorted fields) (h : List.Forall₂ R fields fields')
    (hinit : Ready (st', fields')) :
    Option.Rel (ParsedAlike R Ready) (parseLoop junk mem d fuel st fields) (parseLoop junk' mem d fuel st' fields') := by
  -- by induction on the bytes left; both loops take the same turn
  induction fuel generalizing st st' fields fields' with
  | zero =>
      unfold parseLoop
      rw [hst.cur_eq, hst.endAddr_eq]
      split
      · exact Option.Rel.none
      · exact Option.Rel.some ⟨rfl, hs, h, _, hinit⟩
  | succ fuel ih =>
      unfold parseLoop
      by_cases hlt : st'.cur < st'.slice.endAddr
      · obtain ⟨hstatus, hok⟩ := parseRecord_rel mem hst
        rw [if_pos hlt, if_pos (by rw [← hst.cur_eq, ← hst.endAddr_eq]; exact hlt)]
        cases hrec : parseRecord mem st with
        | mk status r =>
            cases hrec' : parseRecord mem st' with
            | mk status' r' =>
                rw [hrec, hrec'] at hstatus hok
                cases hstatus
                cases status with
                | kUnknownError => exact Option.Rel.some ⟨rfl, hs, h, _, hinit⟩
                | kInvalidWireType => exact Option.Rel.some ⟨rfl, hs, h, _, hinit⟩
                | kNeedsMore => exact Option.Rel.some ⟨rfl, hs, h, _, hinit⟩
                -- a record was read, and the same field is filled in both
                | kOk =>
                    have hsame := hok rfl
                    have hfill := fillField_rel junk junk' hR hsame h (by
                      rw [← hsame.state.fieldId_eq]
                      exact hready _ _ hinit hlt hrec')
                    dsimp only
                    cases hl : fillField junk d fields r with
                    | none =>
                        cases hr : fillField junk' d fields' r' with
                        | none => exact Option.Rel.none
                        | some fields₂ =>
                            rw [hl, hr] at hfill
                            cases hfill
                    | some fields₁ =>
                        cases hr : fillField junk' d fields' r' with
                        | none =>
                            rw [hl, hr] at hfill
                            cases hfill
                        | some fields₂ =>
                            rw [hl, hr] at hfill
                            have hnext : parseStep junk' mem d (st', fields') = some (r', fields₂) := by
                              unfold parseStep
                              simp only [if_pos hlt, hrec', hr, Option.map_some]
                            cases hfill with
                            | some hrest => exact ih hsame.state (fillField_sorted hs hl) hrest (hstep _ _ hinit hnext)
      · rw [if_neg hlt, if_neg (by rw [← hst.cur_eq, ← hst.endAddr_eq]; exact hlt)]
        exact Option.Rel.some ⟨rfl, hs, h, _, hinit⟩

/-- The whole parse: the same status, and messages with related fields. -/
theorem parseMessageLazy_rel (junk : Junk) {slice : Slice} (hs : Sorted fields) (h : List.Forall₂ R fields fields')
    (hinit : Ready (startState junk' slice, fields')) :
    Option.Rel (ParsedAlike R Ready) (parseMessageLazy junk mem d slice fields) (parseMessageLazy junk' mem d slice fields') := by
  have hloop := parseLoop_rel hR hstep hready junk (2 ^ 64) (sameState_start junk junk' slice) hs h hinit
  unfold parseMessageLazy
  by_cases hle : slice.start ≤ slice.endAddr
  · rw [if_pos hle, if_pos hle]
    revert hloop
    generalize parseLoop junk mem d (2 ^ 64) (startState junk slice) fields = x
    generalize parseLoop junk' mem d (2 ^ 64) (startState junk' slice) fields' = y
    intro hloop
    cases hloop with
    | none => exact Option.Rel.none
    | @some r r' hr =>
        obtain ⟨status, fields₁⟩ := r
        obtain ⟨status', fields₂⟩ := r'
        obtain ⟨hstatus, hs₁, hfields, hlast⟩ := hr
        cases hstatus
        cases status with
        | kUnknownError => exact Option.Rel.some ⟨rfl, hs₁, hfields, hlast⟩
        | kInvalidWireType => exact Option.Rel.some ⟨rfl, hs₁, hfields, hlast⟩
        | kNeedsMore => exact Option.Rel.some ⟨rfl, hs₁, hfields, hlast⟩
        | kOk =>
            -- the check for the required fields asks only which numbers are there
            have hcheck : checkAllRequiredField fields₂ d = checkAllRequiredField fields₁ d := by
              unfold checkAllRequiredField
              congr 1
              funext fd
              have hfind := find_pointwise hR.id_eq hfields (fd.number : Int)
              revert hfind
              cases FieldMap.find fields₁ fd.number <;> cases FieldMap.find fields₂ fd.number <;> intro hfind <;>
                first | rfl | cases hfind
            dsimp only
            rw [hcheck]
            split
            · exact Option.Rel.some ⟨rfl, hs₁, hfields, hlast⟩
            · exact Option.Rel.none
  · rw [if_neg hle, if_neg hle]
    exact Option.Rel.none

end Loop

/-- The keys that `Init` transfers. -/
def unknownKeys (fields : FieldMap) : List Int := (fields.filter Field.unknown).map Field.id

/-- The same fields are unknown, -/
theorem unknownKeys_rel (hR : Parses d R) (h : List.Forall₂ R fields fields') : unknownKeys fields' = unknownKeys fields := by
  induction h with
  | nil => rfl
  | @cons f f' fields fields' hf _ ih =>
      unfold unknownKeys at ih ⊢
      rw [List.filter_cons, List.filter_cons, hR.unknown_eq f f' hf]
      split
      · rw [List.map_cons, List.map_cons, ih, hR.id_eq f f' hf]
      · exact ih

/-- splitting them off keeps the order, -/
theorem sorted_foldl_transfer (keys : List Int) {s : FieldMap × FieldMap} (hs : Sorted s.2) :
    Sorted (keys.foldl (fun s key => FieldMap.transfer key s.1 s.2) s).2 := by
  induction keys generalizing s with
  | nil => exact hs
  | cons key keys ih =>
      apply ih
      show Sorted (FieldMap.transfer key s.1 s.2).2
      unfold FieldMap.transfer
      split
      · exact hs
      · split
        · exact hs
        · exact List.Pairwise.filter _ hs

/-- Two messages whose fields are related. -/
structure MessageAlike (R : Field → Field → Prop) (m m' : Message) : Prop where
  descriptor : m'.descriptor = m.descriptor
  sorted : Sorted m.fields
  fields : List.Forall₂ R m.fields m'.fields
  unknownFields : Option.Rel (List.Forall₂ R) m.unknownFields m'.unknownFields

/-- and the descriptor, -/
theorem splitUnknown_descriptor (m : Message) : (splitUnknown m).descriptor = m.descriptor := by
  unfold splitUnknown
  dsimp only
  split <;> rfl

/-- so the two parts of the messages are related too. -/
theorem splitUnknown_rel (hR : Parses d R) (h : MessageAlike R m m') : MessageAlike R (splitUnknown m) (splitUnknown m') := by
  have hkeys := unknownKeys_rel hR h.fields
  unfold unknownKeys at hkeys
  have htarget : Option.Rel (List.Forall₂ R)
      (if ((m.fields.filter Field.unknown).map Field.id).isEmpty then m.unknownFields else some (m.unknownFields.getD []))
      (if ((m.fields.filter Field.unknown).map Field.id).isEmpty then m'.unknownFields
        else some (m'.unknownFields.getD [])) := by
    split
    · exact h.unknownFields
    · obtain ⟨t, known, unknown⟩ := m
      obtain ⟨t', known', unknown'⟩ := m'
      have hunknown : Option.Rel (List.Forall₂ R) unknown unknown' := h.unknownFields
      cases hunknown with
      | none => exact Option.Rel.some List.Forall₂.nil
      | some hfields => exact Option.Rel.some hfields
  unfold splitUnknown
  dsimp only
  rw [hkeys]
  revert htarget
  generalize (if ((m.fields.filter Field.unknown).map Field.id).isEmpty then m.unknownFields
    else some (m.unknownFields.getD [])) = x
  generalize (if ((m.fields.filter Field.unknown).map Field.id).isEmpty then m'.unknownFields
    else some (m'.unknownFields.getD [])) = y
  intro htarget
  cases htarget with
  | none => exact h
  | @some target target' htarget =>
      have hfold := foldl_transfer_pointwise hR.id_eq ((m.fields.filter Field.unknown).map Field.id) (target, m.fields)
        (target', m'.fields) htarget h.fields
      exact ⟨h.descriptor, sorted_foldl_transfer _ h.sorted, hfold.2, Option.Rel.some hfold.1⟩

/-- The part that stays has fields of the message only. -/
theorem mem_of_mem_splitUnknown (h : f ∈ (splitUnknown m).fields) : f ∈ m.fields := by
  have hfold : ∀ (keys : List Int) (s : FieldMap × FieldMap),
      f ∈ (keys.foldl (fun s key => FieldMap.transfer key s.1 s.2) s).2 → f ∈ s.2 := by
    intro keys
    induction keys with
    | nil => exact fun s h => h
    | cons key keys ih =>
        intro s h
        have hnext : f ∈ (FieldMap.transfer key s.1 s.2).2 := ih _ h
        unfold FieldMap.transfer at hnext
        split at hnext
        · exact hnext
        · split at hnext
          · exact hnext
          · exact List.mem_of_mem_filter hnext
  unfold splitUnknown at h
  dsimp only at h
  split at h
  · exact h
  · exact hfold _ _ h

/-- **`Message::Init` in both runs.** -/
theorem init_rel (pool : Pool) (junk junk' : Junk) (mem : Mem) (slice : Slice) (Ready : ParserState × FieldMap → Prop)
    (hR : Parses (pool m.descriptor) R)
    (hstep : ∀ s s', Ready s → parseStep junk' mem (pool m.descriptor) s = some s' → Ready s')
    (hready : ∀ s r, Ready s → s.1.cur < s.1.slice.endAddr → parseRecord mem s.1 = (.kOk, r) →
      ∀ f f', f' ∈ s.2 → R f f' → f.id = r.fieldId → Closed (pool m.descriptor) f f')
    (h : MessageAlike R m m') (hinit : Ready (startState junk' slice, m'.fields)) :
    Option.Rel (fun r r' => r'.1 = r.1 ∧ r.2.descriptor = m.descriptor ∧ MessageAlike R r.2 r'.2 ∧
        ∃ s, Ready s ∧ ∀ f ∈ r'.2.fields, f ∈ s.2)
      (m.init pool junk mem slice) (m'.init pool junk' mem slice) := by
  have hparse := parseMessageLazy_rel hR hstep hready junk h.sorted h.fields hinit
  have hdescriptor := h.descriptor
  unfold Message.init
  rw [hdescriptor]
  revert hparse
  generalize parseMessageLazy junk mem (pool m.descriptor) slice m.fields = x
  generalize parseMessageLazy junk' mem (pool m.descriptor) slice m'.fields = y
  intro hparse
  cases hparse with
  | none => exact Option.Rel.none
  | @some r r' hr =>
      obtain ⟨ok, fields⟩ := r
      obtain ⟨ok', fields'⟩ := r'
      obtain ⟨hok, hs, hfields, st, hlast⟩ := hr
      cases hok
      have halike : MessageAlike R { m with fields := fields } { m' with descriptor := m.descriptor, fields := fields' } :=
        ⟨rfl, hs, hfields, h.unknownFields⟩
      cases ok with
      | true =>
          exact Option.Rel.some ⟨rfl, splitUnknown_descriptor _, splitUnknown_rel hR halike, _, hlast,
            fun _ hf => mem_of_mem_splitUnknown hf⟩
      | false => exact Option.Rel.some ⟨rfl, rfl, halike, _, hlast, fun _ hf => hf⟩

/-- Messages of fields that are not decoded show the same. -/
theorem MessageAlike.shown_eq (h : MessageAlike (Closed d) m m') : m'.shown = m.shown := by
  have hshown : ∀ {fields fields' : FieldMap}, List.Forall₂ (Closed d) fields fields' →
      List.map Field.shown fields' = List.map Field.shown fields := fun h =>
    map_eq_of_forall₂ h fun _ _ _ hf => hf.shown_eq
  obtain ⟨t, known, unknown⟩ := m
  obtain ⟨t', known', unknown'⟩ := m'
  obtain ⟨hdescriptor, -, hknown, hunknown⟩ := h
  unfold Message.shown
  dsimp only at hdescriptor hknown hunknown ⊢
  rw [hdescriptor, hshown hknown]
  cases hunknown with
  | none => rfl
  | some hunknown => rw [Option.map_some, Option.map_some, hshown hunknown]

/-- **An embedded message is parsed alike** in both runs. -/
theorem init_shown (pool : Pool) (junk junk' : Junk) (mem : Mem) (t : Nat) (slice : Slice) :
    Option.Rel (fun r r' => r'.1 = r.1 ∧ r'.2.shown = r.2.shown) ((newMessage t).init pool junk mem slice)
      ((newMessage t).init pool junk' mem slice) := by
  have hnew : MessageAlike (Closed (pool (newMessage t).descriptor)) (newMessage t) (newMessage t) :=
    ⟨rfl, List.Pairwise.nil, List.Forall₂.nil, Option.Rel.none⟩
  have hinit := init_rel pool junk junk' mem slice (fun _ => True) parses_closed (fun _ _ _ _ => trivial)
    (fun _ _ _ _ _ _ _ _ hf _ => hf) hnew trivial
  exact rel_mono hinit fun _ _ hr => ⟨hr.1, hr.2.2.1.shown_eq⟩

/-! ## Values of decoded fields

Equal in the member of the type; for messages, that they show the same in their worlds. -/

/-- Two pointers to messages that look the same, both other than `p`. -/
def SamePtr (p : MessagePtr) (w w' : World) (q q' : Option MessagePtr) : Prop :=
  (q = none ∧ q' = none) ∨ ∃ a a' m m', q = some a ∧ q' = some a' ∧ a ≠ p ∧ a' ≠ p ∧ w.messages[a]? = some m ∧
    w'.messages[a']? = some m' ∧ m'.shown = m.shown

/-- Two values that agree in the member that is used. -/
def SameValue (p : MessagePtr) (w w' : World) (member : Option Member) (v v' : Value) : Prop :=
  match member with
  | some .varint | some .d => v'.primitive = v.primitive
  | some .f => v'.f = v.f
  | some .s => v'.s = v.s
  | some .m => SamePtr p w w' v.m v'.m
  | none => False

/-- Worlds that grew keep two messages the same, -/
theorem SamePtr.mono {q q' : Option MessagePtr} (h : SamePtr p w w' q q') (hu : Extends p w u) (hu' : Extends p w' u') :
    SamePtr p u u' q q' := by
  rcases h with hnone | ⟨a, a', m, m', hq, hq', hne, hne', ha, ha', hshown⟩
  · exact Or.inl hnone
  · exact Or.inr ⟨a, a', m, m', hq, hq', hne, hne', hu.old a m hne ha, hu'.old a' m' hne' ha', hshown⟩

/-- and two values. -/
theorem SameValue.mono {member : Option Member} (h : SameValue p w w' member v v') (hu : Extends p w u)
    (hu' : Extends p w' u') : SameValue p u u' member v v' := by
  unfold SameValue at h ⊢
  split at h <;> first | exact h | exact h.mono hu hu'

/-- Values with the same union agree, if the member is in the union. -/
theorem sameValue_of_primitive (p : MessagePtr) (w w' : World) (h : v'.primitive = v.primitive) (hpackable : type.packable = true) :
    SameValue p w w' type.member v v' := by
  cases type <;> first | exact h | exact absurd hpackable (by decide) | (show v'.f = v.f; unfold Value.f; rw [h])

/-! ## Decoding

Each decoder reads the bytes the slice points to and sets one member. So the values agree in that member
afterwards, whatever the others are. -/

/-- The four bytes of a float read back as they were set, whatever the other four are. -/
theorem setF_eq (v v' : Value) (x : Nat) : (v'.setF x).f = (v.setF x).f := by rw [setF_f, setF_f]

/-- Four bytes are read from the same place, -/
theorem parse32Bits_rel (mem : Mem) (h : SameState st st') : (parse32Bits mem st').1 = (parse32Bits mem st).1 ∧
    ((parse32Bits mem st).1 = .kOk → SameState (parse32Bits mem st).2 (parse32Bits mem st').2 ∧
      (parse32Bits mem st').2.v.f = (parse32Bits mem st).2.v.f) := by
  rw [h]
  unfold parse32Bits ParserState.cur
  dsimp only
  split
  · exact ⟨rfl, fun hok => by cases hok⟩
  · exact ⟨rfl, fun _ => ⟨rfl, setF_eq _ _ _⟩⟩

/-- and eight. -/
theorem parse64Bits_rel (mem : Mem) (h : SameState st st') : (parse64Bits mem st').1 = (parse64Bits mem st).1 ∧
    ((parse64Bits mem st).1 = .kOk → SameState (parse64Bits mem st).2 (parse64Bits mem st').2 ∧
      (parse64Bits mem st').2.v.primitive = (parse64Bits mem st).2.v.primitive) := by
  rw [h]
  unfold parse64Bits ParserState.cur
  dsimp only
  split
  · exact ⟨rfl, fun hok => by cases hok⟩
  · exact ⟨rfl, fun _ => ⟨rfl, rfl⟩⟩

/-- Of an element of a packed field the member of its type is set, and nothing else is read. -/
theorem parsePackedValue_rel (mem : Mem) (p : MessagePtr) (w w' : World) (type : FieldType) (h : SameState st st') :
    Option.Rel (fun r r' => SameState r r' ∧ SameValue p w w' type.member r.v r'.v) (parsePackedValue mem type st)
      (parsePackedValue mem type st') := by
  have hvarint := parseVarint_rel mem h
  unfold parsePackedValue
  cases type
  case int32 | int64 | uint32 | uint64 | bool | enum => exact Option.Rel.some hvarint
  case sint32 | sint64 =>
    refine Option.Rel.some ⟨?_, congrArg zigzagDecode hvarint.2⟩
    show _ = _
    rw [hvarint.1]
  case fixed32 | sfixed32 | float =>
    obtain ⟨hstatus, hok⟩ := parse32Bits_rel mem h
    cases hr : parse32Bits mem st with
    | mk status r =>
        cases hr' : parse32Bits mem st' with
        | mk status' r' =>
            rw [hr, hr'] at hstatus hok
            cases hstatus
            cases status <;> first | exact Option.Rel.some (hok rfl) | exact Option.Rel.none
  case fixed64 | sfixed64 | double =>
    obtain ⟨hstatus, hok⟩ := parse64Bits_rel mem h
    cases hr : parse64Bits mem st with
    | mk status r =>
        cases hr' : parse64Bits mem st' with
        | mk status' r' =>
            rw [hr, hr'] at hstatus hok
            cases hstatus
            cases status <;> first | exact Option.Rel.some (hok rfl) | exact Option.Rel.none
  case string | bytes | message | group => exact Option.Rel.none

/-- A packed value is stored in the member of the type. -/
theorem storePacked_rel {parsed parsed' : Value} (hpackable : type.packable = true)
    (h : SameValue p w w' type.member parsed parsed') (v v' : Value) :
    SameValue p w w' type.member (storePacked type parsed v) (storePacked type parsed' v') := by
  cases type
  case string | bytes | message | group => exact absurd hpackable (by decide)
  case fixed32 | sfixed32 | float =>
    have hf : parsed'.f = parsed.f := h
    show (v'.setF parsed'.f).f = (v.setF parsed.f).f
    rw [hf, setF_eq]
  case int32 | int64 | uint32 | uint64 | bool | enum | sint32 | sint64 | fixed64 | sfixed64 | double => exact h

/-- The loop over packed values, by induction on the bytes left: both read the same values. -/
theorem decodePackedLoop_rel (hpackable : type.packable = true) (fuel idx : Nat) (hst : SameState st st')
    (h : List.Forall₂ (SameValue p w w' type.member) values values') :
    Option.Rel (List.Forall₂ (SameValue p w w' type.member)) (decodePackedLoop junk mem type fuel idx st values)
      (decodePackedLoop junk' mem type fuel idx st' values') := by
  induction fuel generalizing idx st st' values values' with
  | zero =>
      unfold decodePackedLoop
      rw [hst.cur_eq, hst.endAddr_eq]
      split
      · exact Option.Rel.none
      · exact Option.Rel.some h
  | succ fuel ih =>
      unfold decodePackedLoop
      rw [hst.cur_eq, hst.endAddr_eq]
      split
      · have hparse := parsePackedValue_rel mem p w w' type hst
        revert hparse
        generalize parsePackedValue mem type st = x
        generalize parsePackedValue mem type st' = y
        intro hparse
        cases hparse with
        | none => exact Option.Rel.none
        | @some r r' hr =>
            apply ih _ hr.1
            split
            · -- the first element goes to the values that are there
              rw [List.forall₂_map_left_iff, List.forall₂_map_right_iff]
              exact h.imp fun v v' _ => storePacked_rel hpackable hr.2 v v'
            · exact List.rel_append h (List.Forall₂.cons (storePacked_rel hpackable hr.2 _ _) List.Forall₂.nil)
      · exact Option.Rel.some h

/-- A decoder for each value carries the relation along. -/
theorem decodeEach_rel {decode decode' : Value → Option Value} {S T : Value → Value → Prop}
    (h : List.Forall₂ S f.values f'.values) (hdecode : ∀ v v', S v v' → Option.Rel T (decode v) (decode' v')) :
    Option.Rel (fun g g' => List.Forall₂ T g.values g'.values) (decodeEach decode f) (decodeEach decode' f') :=
  rel_map (rel_mapM h hdecode) fun _ _ hvalues => hvalues

/-- The varints that the same slices begin with. -/
theorem decodeVarint_rel {wire : WireType} (h : List.Forall₂ (SameSlice wire) f.values f'.values) :
    Option.Rel (fun g g' => List.Forall₂ (fun v v' => v'.primitive = v.primitive) g.values g'.values)
      (decodeVarint junk mem f) (decodeVarint junk' mem f') := by
  apply decodeEach_rel h
  rintro v v' ⟨hencoded, -⟩
  apply Option.Rel.some
  show (parseVarint mem (startState junk' v'.encoded)).v.primitive = _
  rw [hencoded]
  exact (parseVarint_rel _ (sameState_start junk junk' v.encoded)).2

/-- The length of an embedded message or of a packed field is read, and only a length-delimited field has it. -/
def Sized (f : Field) : Prop :=
  ∀ fd, f.fieldDescriptor = some fd → fd.packed = true ∨ fd.type = .message → f.wireType = .kLengthDelimited

/-- **Decoding in place** sets the member of the type in both runs. -/
theorem decodeInPlace_rel (p : MessagePtr) (w w' : World) (h : List.Forall₂ (SameSlice f.wireType) f.values f'.values)
    (hsized : fd.packed = true → f.wireType = .kLengthDelimited) :
    Option.Rel (fun g g' => List.Forall₂ (SameValue p w w' fd.type.member) g.values g'.values)
      (decodeInPlace junk mem fd f) (decodeInPlace junk' mem fd f') := by
  unfold decodeInPlace
  by_cases hpacked : fd.packed = true
  · rw [if_pos hpacked, if_pos hpacked]
    have hpackable := (fd.packed_repeated hpacked).2
    unfold decodePacked
    revert h
    generalize f.values = xs
    generalize f'.values = ys
    intro h
    cases h with
    | nil => exact Option.Rel.none
    | @cons v v' xs ys hv hrest =>
        cases hrest with
        | cons _ _ => exact Option.Rel.none
        | nil =>
            -- the length is the same, and so is the slice behind it
            have hslice : embeddedSlice v' = embeddedSlice v := by
              unfold embeddedSlice
              rw [hv.1, hv.2 (hsized hpacked)]
            dsimp only
            rw [hslice]
            have hfirst := sameValue_of_primitive p w w' (hv.2 (hsized hpacked)) hpackable
            exact rel_map (decodePackedLoop_rel hpackable _ _ (sameState_start junk junk' _)
              (List.Forall₂.cons hfirst List.Forall₂.nil)) fun _ _ hvalues => hvalues
  · rw [if_neg hpacked, if_neg hpacked]
    cases htype : fd.type <;> dsimp only
    -- the decoder asserts that the type is none of these, in both
    case message | group => exact Option.Rel.none
    -- the others set the member of the type from the bytes
    case int32 | int64 | uint32 | uint64 | bool | enum => exact decodeVarint_rel h
    case sint32 | sint64 =>
      unfold decodeVarintWithZigZag
      refine rel_bind (decodeVarint_rel h) ?_
      intro g g' hg
      refine decodeEach_rel hg ?_
      intro v v' hprimitive
      split
      · exact Option.Rel.some (congrArg zigzagDecode hprimitive)
      · exact Option.Rel.none
    case fixed32 | sfixed32 | float =>
      refine decodeEach_rel h ?_
      rintro v v' ⟨hencoded, -⟩
      apply Option.Rel.some
      show (v'.setF (ofLe (mem.read v'.encoded.start 4))).f = _
      rw [hencoded, setF_eq]
    case fixed64 | sfixed64 | double =>
      refine decodeEach_rel h ?_
      rintro v v' ⟨hencoded, -⟩
      apply Option.Rel.some
      show ofLe (mem.read v'.encoded.start 8) = _
      rw [hencoded]
    case string | bytes =>
      refine decodeEach_rel h ?_
      rintro v v' ⟨hencoded, -⟩
      dsimp only
      rw [hencoded]
      have hlen : (parseVarintInternal mem (startState junk' v.encoded)).2 =
          (parseVarintInternal mem (startState junk v.encoded)).2 := rfl
      rw [hlen]
      split
      · exact Option.Rel.some rfl
      · exact Option.Rel.none

/-! ## Embedded messages -/

/-- What decoding comes to in the two runs. -/
structure DecodedAlike (p : MessagePtr) (w w' : World) (member : Option Member) (r r' : World × List Value) : Prop where
  extends_left : Extends p w r.1
  extends_right : Extends p w' r'.1
  values : List.Forall₂ (SameValue p r.1 r'.1 member) r.2 r'.2

/-- **The embedded messages look the same** in both runs. They lie behind those that are there. -/
theorem decodeMessages_rel {t : Nat} (h : List.Forall₂ (SameSlice .kLengthDelimited) values values') (hmem : w'.mem = w.mem)
    (hp : p < w.messages.length) (hp' : p < w'.messages.length) :
    Option.Rel (DecodedAlike p w w' (some .m)) (decodeMessages (env.withJunk junk) t w values)
      (decodeMessages (env.withJunk junk') t w' values') := by
  induction h generalizing w w' with
  | nil => exact Option.Rel.some ⟨Extends.refl, Extends.refl, List.Forall₂.nil⟩
  | @cons v v' values values' hv _ ih =>
      have hslice : embeddedSlice v' = embeddedSlice v := by
        unfold embeddedSlice
        rw [hv.1, hv.2 rfl]
      have hinit := init_shown env.pool (junk.inside w.messages.length) (junk'.inside w'.messages.length) w.mem t
        (embeddedSlice v)
      unfold decodeMessages
      rw [hslice, hmem]
      revert hinit
      generalize (newMessage t).init env.pool (junk.inside w.messages.length) w.mem (embeddedSlice v) = x
      generalize (newMessage t).init env.pool (junk'.inside w'.messages.length) w.mem (embeddedSlice v) = y
      intro hinit
      cases hinit with
      | none => exact Option.Rel.none
      | @some r r' hr =>
          obtain ⟨ok, m⟩ := r
          obtain ⟨ok', m'⟩ := r'
          obtain ⟨hok, hshown⟩ := hr
          cases hok
          cases ok with
          | false => exact Option.Rel.none
          | true =>
              have hlt : ∀ (x : World) (n : Message), p < x.messages.length → p < (x.messages ++ [n]).length := by
                intro x n hx
                rw [List.length_append]
                exact Nat.lt_succ_of_lt hx
              have hrest := @ih ⟨w.mem, w.messages ++ [m]⟩ ⟨w.mem, w'.messages ++ [m']⟩ rfl (hlt w m hp) (hlt w' m' hp')
              refine rel_map hrest ?_
              intro r r' hr
              have hold := hr.extends_left.old _ m (Nat.ne_of_gt hp) List.getElem?_concat_length
              have hold' := hr.extends_right.old _ m' (Nat.ne_of_gt hp') List.getElem?_concat_length
              have hfirst : SamePtr p r.1 r'.1 (some w.messages.length) (some w'.messages.length) :=
                Or.inr ⟨_, _, m, m', rfl, rfl, Nat.ne_of_gt hp, Nat.ne_of_gt hp', hold, hold', hshown⟩
              have hgrown : Extends p w' ⟨w.mem, w'.messages ++ [m']⟩ := by
                rw [← hmem]
                exact extends_append m'
              exact ⟨(extends_append m).trans hr.extends_left, hgrown.trans hr.extends_right, List.Forall₂.cons hfirst hr.values⟩

/-! ## Fields -/

/-- **Decoding a field that neither run has decoded** gives the same values in both, in the member of their type. -/
theorem decodeField_rel (env : Env) (junk junk' : Junk) (h : Closed d f f') (hsized : Sized f) (hmem : w'.mem = w.mem) (hp : p < w.messages.length)
    (hp' : p < w'.messages.length) :
    Option.Rel (fun r r' => DecodedAlike p w w' f.member (r.1, r.2.values) (r'.1, r'.2.values))
      (decodeField (env.withJunk junk) w f) (decodeField (env.withJunk junk') w' f') := by
  cases hfd : f.fieldDescriptor with
  | none =>
      unfold decodeField
      rw [h.fieldDescriptor_eq, hfd]
      exact Option.Rel.none
  | some fd =>
      have hfd' : f'.fieldDescriptor = some fd := h.fieldDescriptor_eq.trans hfd
      have hmember : f.member = fd.type.member := by
        unfold Field.member
        rw [hfd]
        rfl
      rw [hmember]
      by_cases htype : fd.type = .message
      · have hvalues := h.values
        rw [hsized fd hfd (Or.inr htype)] at hvalues
        rw [decodeField_message hfd htype, decodeField_message hfd' htype, htype]
        exact rel_map (decodeMessages_rel hvalues hmem hp hp') fun _ _ hr => hr
      · rw [decodeField_inPlace hfd htype, decodeField_inPlace hfd' htype, hmem]
        refine rel_map (decodeInPlace_rel p w w' h.values fun hpacked => hsized fd hfd (Or.inl hpacked)) ?_
        intro g g' hg
        exact ⟨Extends.refl, Extends.refl, hg⟩

end CompactProtobuf
end Snippets
