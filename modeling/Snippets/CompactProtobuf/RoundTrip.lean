import Snippets.CompactProtobuf.Mirror

/-!
# `CompactProtobuf.RoundTrip` — what was built, written out and parsed reads the same

A client that reads a message asks for the size of a field, and then for its elements; of an embedded message it reads the
fields in turn. `Alike` says that two messages are the same to such a client, whatever was read of them before.
`roundTrip_of_run` is that property for a message that was built by calls and the message that `FromString` makes of what
`ToString` writes out for it.
-/

namespace Snippets

open Lib

namespace CompactProtobuf

variable {env : Env} {w w' : World} {p p' q q' o : MessagePtr} {m m' : Message} {fd : FieldDescriptor} {f f' : Field}
  {v v' : Value} {n idx : Nat} {kind : FieldType → Bool}

/-! ## Two messages that read the same -/

/-- Integers that are the same, or as truth values. -/
def SameInteger (type : FieldType) (x x' : Nat × Nat) : Prop := if type = .bool then x = (0, 0) ↔ x' = (0, 0) else x' = x

/-- Every getter fails for both messages, or returns the same for both. `S` says when embedded messages are the same. -/
structure ReadsSame (env : Env) (S : World → MessagePtr → World → MessagePtr → Prop) (fd : FieldDescriptor) (w : World)
    (p : MessagePtr) (w' : World) (p' : MessagePtr) : Prop where
  integer : ∀ idx, Option.Rel (fun r r' => SameInteger fd.type r.2 r'.2) (w.getInteger env p fd.name idx)
    (w'.getInteger env p' fd.name idx)
  real : ∀ idx, Option.Rel (fun r r' => r'.2 = r.2) (w.getReal env p fd.name idx) (w'.getReal env p' fd.name idx)
  string : ∀ idx, Option.Rel (fun r r' => r'.2 = r.2) (w.getString env p fd.name idx) (w'.getString env p' fd.name idx)
  message : ∀ idx, Option.Rel (fun r r' => Option.Rel (fun q q' => S r.1 q r'.1 q') r.2 r'.2) (w.getMessage env p fd.name idx)
    (w'.getMessage env p' fd.name idx)

/-- Two messages that are the same down to a depth, also after any calls that read the messages of the second world: every
    field has the same size, and when that was asked for, the same elements. -/
def Alike (env : Env) : Nat → World → MessagePtr → World → MessagePtr → Prop
  | 0, _, _, _, _ => True
  | n + 1, w, p, w', p' => ∀ cs w₁, Run (CallStep env Call.reads 0) w' cs w₁ → ∃ m, w.messages[p]? = some m ∧
      ∀ fd ∈ (env.pool m.descriptor).fields, ∃ size w₂, w.getFieldSize env p fd.name = some (w, size) ∧
        w₁.getFieldSize env p' fd.name = some (w₂, size) ∧ ReadsSame env (Alike env n) fd w p w₂ p'

/-! ## Reading a field that is decoded

A getter of a decoded field changes nothing: it checks the index and returns what the values hold. -/

/-- Access to a decoded field checks the index and no more. -/
theorem access_of_decoded (hf : f.decoded = true) (idx : Nat) :
    w.access env p fd f idx = if checkValidIndex f fd idx then some (w, f, if fd.isRepeated then idx else 0) else none := by
  unfold World.access
  rw [tryDecodeField_of_decoded hf]
  by_cases hcheck : checkValidIndex f fd idx = true
  · simp only [guard, hcheck, if_true, Option.bind_eq_bind, Option.bind_some, Option.pure_def]
  · simp only [guard, hcheck, Option.bind_eq_bind]
    rfl

/-- Two decoded fields with the same content. -/
structure SameField (R : MessagePtr → MessagePtr → Prop) (fd : FieldDescriptor) (f f' : Field) : Prop where
  decoded : f.decoded = true
  decoded' : f'.decoded = true
  fieldDescriptor : f.fieldDescriptor = some fd
  fieldDescriptor' : f'.fieldDescriptor = some fd
  values : List.Forall₂ (fun v v' => (fd.type.member = some .varint → v.primitive < 2 ^ 64) ∧ SameContent R fd.type v v')
    f.values f'.values

/-- Under the number of `fd` both messages have the same field, or none. -/
def SameAt (env : Env) (R : MessagePtr → MessagePtr → Prop) (fd : FieldDescriptor) (w : World) (p : MessagePtr) (w' : World)
    (p' : MessagePtr) : Prop :=
  ∃ m m', w.messages[p]? = some m ∧ w'.messages[p']? = some m' ∧ m'.descriptor = m.descriptor ∧
    fd ∈ (env.pool m.descriptor).fields ∧ Option.Rel (SameField R fd) (m.fields.find fd.number) (m'.fields.find fd.number)

/-- A getter gives related values of two messages that are the same under its field, and changes neither. -/
theorem SameAt.get {β : Type} {T : β → β → Prop} {R : MessagePtr → MessagePtr → Prop} {default : FieldDescriptor → Option β}
    {read : Field → Nat → Option β} (h : SameAt env R fd w p w' p') (hdefault : ∀ b, default fd = some b → T b b)
    (hread : ∀ f f' idx, kind fd.type = true → SameField R fd f f' → Option.Rel T (read f idx) (read f' idx)) (idx : Nat) :
    Option.Rel (fun r r' => r.1 = w ∧ r'.1 = w' ∧ T r.2 r'.2) (w.get env p kind default read fd.name idx)
      (w'.get env p' kind default read fd.name idx) := by
  obtain ⟨m, m', hm, hm', hd, hfd, hrel⟩ := h
  have hfd' : fd ∈ (env.pool m'.descriptor).fields := by rw [hd]; exact hfd
  unfold World.get
  by_cases hkind : kind fd.type = true
  · rw [lookup_eq hm hfd hkind, lookup_eq hm' hfd' hkind]
    cases hf : m.fields.find fd.number with
    | none =>
        cases hf' : m'.fields.find fd.number with
        | some f' =>
            rw [hf, hf'] at hrel
            cases hrel
        | none =>
            simp only [Option.bind_eq_bind, Option.bind_some]
            cases hb : default fd with
            | none => exact Option.Rel.none
            | some b => exact Option.Rel.some ⟨rfl, rfl, hdefault b hb⟩
    | some f =>
        cases hf' : m'.fields.find fd.number with
        | none =>
            rw [hf, hf'] at hrel
            cases hrel
        | some f' =>
            rw [hf, hf'] at hrel
            cases hrel with
            | some hsame =>
                -- the index is valid in both or in neither
                have hcheck : checkValidIndex f' fd idx = checkValidIndex f fd idx := by
                  unfold checkValidIndex
                  rw [hsame.values.length_eq]
                simp only [Option.bind_eq_bind, Option.bind_some]
                rw [access_of_decoded hsame.decoded, access_of_decoded hsame.decoded', hcheck]
                split
                · simp only [Option.bind_some]
                  refine rel_bind (hread f f' _ hkind hsame) ?_
                  intro b b' hb
                  exact Option.Rel.some ⟨rfl, rfl, hb⟩
                · exact Option.Rel.none
  -- the getter is for another type, and fails on both
  · have hnone : ∀ {u : World} {r : MessagePtr} {k : Message}, u.messages[r]? = some k → fd ∈ (env.pool k.descriptor).fields →
        u.lookup env r kind fd.name = none := by
      intro u r k hk hmem
      cases hlookup : u.lookup env r kind fd.name with
      | none => rfl
      | some x =>
          obtain ⟨k', hk', hgd, hname, hgkind, -⟩ := lookup_inv hlookup
          rw [hk] at hk'
          cases hk'
          rw [Descriptor.eq_of_name hgd hmem hname] at hgkind
          exact absurd hgkind hkind
    rw [hnone hm hfd, hnone hm' hfd']
    exact Option.Rel.none

/-! ## What the getters return

Each getter returns the member of its type. The integer getter returns a high and a low word, whose meaning is
compared. -/

/-- The two words are zero when the value is. -/
theorem decodeUInt64_zero {x : Nat} (hx : x < 2 ^ 64) : decodeUInt64 x = (0, 0) ↔ x = 0 := by
  rw [decodeUInt64_eq]
  constructor
  · intro h
    obtain ⟨h₁, h₂⟩ := Prod.mk.inj h
    omega
  · rintro rfl
    rfl

variable {R : MessagePtr → MessagePtr → Prop}

/-- The pair of words is the same integer as itself. -/
theorem sameInteger_refl (type : FieldType) (x : Nat × Nat) : SameInteger type x x := by
  unfold SameInteger
  split
  · exact Iff.rfl
  · rfl

/-- The integer getter, -/
theorem SameField.readInteger (h : SameField R fd f f') (hkind : fd.type.isInteger = true) (idx : Nat) :
    Option.Rel (SameInteger fd.type) ((retrieveIntegerValue f idx).map decodeUInt64)
      ((retrieveIntegerValue f' idx).map decodeUInt64) := by
  have hrel := forall₂_getElem? h.values idx
  unfold retrieveIntegerValue
  rw [h.fieldDescriptor, h.fieldDescriptor']
  revert hrel
  generalize f.values[idx]? = x
  generalize f'.values[idx]? = y
  intro hrel
  cases hrel with
  | none => exact Option.Rel.none
  | @some v v' hv =>
      obtain ⟨hlt, hcontent⟩ := hv
      unfold SameContent at hcontent
      unfold SameInteger
      dsimp only
      cases hfd : fd.type <;> rw [hfd] at hlt hcontent hkind <;> dsimp only [FieldType.member] at hlt hcontent ⊢
      case double | float | string | bytes | message => exact absurd hkind (by decide)
      case fixed32 | sfixed32 | fixed64 | sfixed64 | int32 | int64 | uint32 | uint64 | enum | sint32 | sint64 =>
        exact Option.Rel.some (congrArg decodeUInt64 hcontent)
      case bool =>
        refine Option.Rel.some ?_
        have hword : v'.primitive = if v.primitive = 0 then 0 else 1 := hcontent
        have hsmall : v'.primitive < 2 ^ 64 := by
          rw [hword]
          split <;> decide
        show decodeUInt64 v.primitive = (0, 0) ↔ decodeUInt64 v'.primitive = (0, 0)
        rw [decodeUInt64_zero (hlt rfl), decodeUInt64_zero hsmall, hword]
        by_cases hzero : v.primitive = 0 <;> simp [hzero]

/-- the getter of floats and doubles, -/
theorem SameField.readReal (h : SameField R fd f f') (hkind : fd.type.isReal = true) (idx : Nat) :
    Option.Rel (fun x x' => x' = x) (retrieveRealValue env f idx) (retrieveRealValue env f' idx) := by
  have hrel := forall₂_getElem? h.values idx
  unfold retrieveRealValue
  rw [h.fieldDescriptor, h.fieldDescriptor']
  revert hrel
  generalize f.values[idx]? = x
  generalize f'.values[idx]? = y
  intro hrel
  cases hrel with
  | none => exact Option.Rel.none
  | @some v v' hv =>
      have hcontent := hv.2
      unfold SameContent at hcontent
      dsimp only
      cases hfd : fd.type <;> rw [hfd] at hcontent hkind <;> try exact absurd hkind (by decide)
      case some.double => exact Option.Rel.some (congrArg UInt64.ofNat hcontent)
      case some.float => exact Option.Rel.some (congrArg (fun x => env.widen (UInt32.ofNat x)) hcontent)

/-- the one of strings, -/
theorem SameField.readString (h : SameField R fd f f') (hkind : fd.type.isString = true) (idx : Nat) :
    Option.Rel (fun x x' => x' = x) (CompactProtobuf.readString f idx) (CompactProtobuf.readString f' idx) := by
  apply rel_map (forall₂_getElem? h.values idx)
  rintro v v' ⟨-, hcontent⟩
  unfold SameContent at hcontent
  cases hfd : fd.type <;> rw [hfd] at hcontent hkind <;> first | exact absurd hkind (by decide) | exact hcontent

/-- and the one of messages, whose result is related as the values are. -/
theorem SameField.readMessage (h : SameField R fd f f') (hplain : fd.type.plain = true) (hkind : fd.type.isMessage = true)
    (idx : Nat) : Option.Rel (Option.Rel R) (CompactProtobuf.readMessage f idx) (CompactProtobuf.readMessage f' idx) := by
  apply rel_map (forall₂_getElem? h.values idx)
  rintro v v' ⟨-, hcontent⟩
  have htype : fd.type = .message := by
    cases hfd : fd.type <;> rw [hfd] at hkind hplain <;>
      first | rfl | exact absurd hkind (by decide) | exact absurd hplain (by decide)
  unfold SameContent at hcontent
  rw [htype] at hcontent
  obtain ⟨q, q', hq, hq', hR⟩ := hcontent
  rw [hq, hq']
  exact Option.Rel.some hR

/-- **The getters read the same from the same field.** -/
theorem SameAt.reads {S : World → MessagePtr → World → MessagePtr → Prop} (h : SameAt env R fd w p w' p')
    (hplain : fd.type.plain = true) (hRS : ∀ q q', R q q' → S w q w' q') : ReadsSame env S fd w p w' p' := by
  -- the four getters
  constructor
  · intro idx
    refine rel_mono (h.get (T := SameInteger fd.type) ?_ ?_ idx) ?_
    · intro b _
      exact sameInteger_refl _ b
    · intro f f' i hkind hsame
      exact hsame.readInteger hkind i
    · rintro r r' ⟨-, -, hr⟩
      exact hr
  · intro idx
    refine rel_mono (h.get (T := fun x x' => x' = x) ?_ ?_ idx) ?_
    · intro b _
      rfl
    · intro f f' i hkind hsame
      exact hsame.readReal hkind i
    · rintro r r' ⟨-, -, hr⟩
      exact hr
  · intro idx
    refine rel_mono (h.get (T := fun x x' => x' = x) ?_ ?_ idx) ?_
    · intro b _
      rfl
    · intro f f' i hkind hsame
      exact hsame.readString hkind i
    · rintro r r' ⟨-, -, hr⟩
      exact hr
  · intro idx
    refine rel_mono (h.get (T := Option.Rel R) ?_ ?_ idx) ?_
    · intro b hb
      cases hb
      exact Option.Rel.none
    · intro f f' i hkind hsame
      exact hsame.readMessage hplain hkind i
    · rintro ⟨u, a⟩ ⟨u', a'⟩ ⟨rfl, rfl, hr⟩
      exact rel_mono hr hRS

/-! ## A mirror reads the same

Asking for the size decodes the parsed field. Afterwards the two fields hold the same values. -/

/-- A mirror whose field is decoded has the same field. -/
theorem sameAt_of_mirror (h : Whole env o w) (hmirror : Mirror env o w w' (n + 1) p p') (hm : w.messages[p]? = some m)
    (hfd : fd ∈ (env.pool m.descriptor).fields)
    (hdec : ∀ m' f', w'.messages[p']? = some m' → m'.fields.find fd.number = some f' → f'.decoded = true) :
    SameAt env (Mirror env o w w' n) fd w p w' p' := by
  obtain ⟨hp, -, m₀, m', hm₀, hm', hmessage⟩ := hmirror
  obtain rfl : m₀ = m := Option.some.inj (hm₀.symm.trans hm)
  refine ⟨m₀, m', hm, hm', hmessage.descriptor, hfd, ?_⟩
  have hrel := hmessage.fields fd hfd
  cases hf : m₀.fields.find fd.number with
  | none =>
      rw [hf] at hrel
      cases hf' : m'.fields.find fd.number with
      | none => exact Option.Rel.none
      | some f' =>
          rw [hf'] at hrel
          cases hrel
  -- the built field is decoded, and the parsed one holds the same values now that it is, too
  | some f =>
      rw [hf] at hrel
      cases hf' : m'.fields.find fd.number with
      | none =>
          rw [hf'] at hrel
          cases hrel
      | some f' =>
          rw [hf'] at hrel
          have hdec' := hdec m' f' hm' hf'
          have hbuilt := h.built.find hp hm hfd hf
          cases hrel with
          | some hfield =>
              rcases hfield.values with ⟨-, hvalues⟩ | ⟨hwaiting, -⟩
              · refine Option.Rel.some ⟨hbuilt.decoded, hdec', hbuilt.fieldDescriptor, hfield.fieldDescriptor, ?_⟩
                apply (List.forall₂_and_left _ _).mpr
                exact ⟨fun v hv hmember => (hbuilt.values v hv).word (Or.inl hmember), hvalues⟩
              · rw [hdec'] at hwaiting
                cases hwaiting

/-- Two such fields have as many values. -/
theorem SameAt.length_eq (hsame : SameAt env R fd w p w' p') (hm : w.messages[p]? = some m) (hm' : w'.messages[p']? = some m')
    (hf : m.fields.find fd.number = some f) (hf' : m'.fields.find fd.number = some f') :
    f'.values.length = f.values.length := by
  obtain ⟨m₀, m₀', hm₀, hm₀', -, -, hrel⟩ := hsame
  obtain rfl : m₀ = m := Option.some.inj (hm₀.symm.trans hm)
  obtain rfl : m₀' = m' := Option.some.inj (hm₀'.symm.trans hm')
  rw [hf, hf'] at hrel
  cases hrel with
  | some hfield => exact hfield.values.length_eq.symm

/-- **`GetFieldSize` of a mirror** returns the same size, and decodes the field. -/
theorem Mirror.getFieldSize (h : Whole env o w) (hmirror : Mirror env o w w' (n + 1) p p') (hm : w.messages[p]? = some m)
    (hfd : fd ∈ (env.pool m.descriptor).fields) :
    ∃ size w₁, w.getFieldSize env p fd.name = some (w, size) ∧ w'.getFieldSize env p' fd.name = some (w₁, size) ∧
      SameAt env (Mirror env o w w₁ n) fd w p w₁ p' := by
  have hmirror' := hmirror
  obtain ⟨hp, hdepth, m₀, m', hm₀, hm', hmessage⟩ := hmirror
  obtain rfl : m₀ = m := Option.some.inj (hm₀.symm.trans hm)
  have hfd' : fd ∈ (env.pool m'.descriptor).fields := by rw [hmessage.descriptor]; exact hfd
  have hrel := hmessage.fields fd hfd
  unfold World.getFieldSize
  rw [lookup_eq hm hfd rfl, lookup_eq hm' hfd' rfl]
  simp only [Option.bind_eq_bind, Option.bind_some]
  cases hf' : m'.fields.find fd.number with
  | none =>
      rw [hf'] at hrel
      cases hf : m₀.fields.find fd.number with
      | none =>
          refine ⟨0, w', rfl, rfl, sameAt_of_mirror h hmirror' hm hfd ?_⟩
          intro k g hk hg
          obtain rfl : m' = k := Option.some.inj (hm'.symm.trans hk)
          rw [hf'] at hg
          cases hg
      | some f =>
          rw [hf] at hrel
          cases hrel
  | some f' =>
      rw [hf'] at hrel
      cases hf : m₀.fields.find fd.number with
      | none =>
          rw [hf] at hrel
          cases hrel
      | some f =>
          rw [hf] at hrel
          have hbuilt := h.built.find hp hm hfd hf
          refine ⟨f.values.length, ?_⟩
          cases hdec : f'.decoded with
          -- it was decoded before, so nothing changes
          | true =>
              have hsame : SameAt env (Mirror env o w w' n) fd w p w' p' := by
                apply sameAt_of_mirror h hmirror' hm hfd
                intro k g hk hg
                obtain rfl : m' = k := Option.some.inj (hm'.symm.trans hk)
                rw [hf'] at hg
                cases hg
                exact hdec
              refine ⟨w', ?_, ?_, hsame⟩
              · dsimp only
                rw [tryDecodeField_of_decoded hbuilt.decoded]
                rfl
              · dsimp only
                rw [tryDecodeField_of_decoded hdec, ← hsame.length_eq hm hm' hf hf']
                rfl
          -- it is decoded now, which keeps the mirror
          | false =>
              cases hrel with
              | some hfield =>
                  obtain ⟨w₁, f₁, hdecode, hvalues⟩ :=
                    decodeField_mirror env.junk h hp hdepth (h.plain p m₀ hp hm fd hfd) hbuilt hfield hdec
                  have hstep : DecodeStep env w' p' (w₁.store p' f₁) :=
                    ⟨env.junk, m', f', w₁, f₁, hm', (FieldMap.find_some hf').1, hdec, hdecode, rfl⟩
                  have htry : w'.tryDecodeField env p' f' = some (w₁.store p' f₁, f₁) := by
                    rw [tryDecodeField_of_undecoded hdec, hdecode]
                    rfl
                  obtain ⟨-, hdec₁, m₁, hm₁, -, hfind₁⟩ := tryDecodeField_edits hm' hfd' hf' htry
                  refine ⟨w₁.store p' f₁, ?_, ?_, ?_⟩
                  · dsimp only
                    rw [tryDecodeField_of_decoded hbuilt.decoded]
                    rfl
                  · dsimp only
                    rw [htry, hvalues.length_eq]
                    rfl
                  · apply sameAt_of_mirror h (hmirror'.decode h hstep) hm hfd
                    intro k g hk hg
                    obtain rfl : m₁ = k := Option.some.inj (hm₁.symm.trans hk)
                    rw [hfind₁] at hg
                    cases hg
                    exact hdec₁

/-- **A mirror reads the same**, to any depth. -/
theorem alike_of_mirror {depth : Nat} (h : Whole env o w) (n : Nat) (hmirror : Mirror env o w w' depth p p') :
    Alike env n w p w' p' := by
  induction n generalizing depth w' p p' with
  | zero => trivial
  | succ n ih =>
      intro cs w₁ hrun
      have hread := hmirror.read h hrun
      cases depth with
      | zero => exact hread.elim
      | succ depth =>
          have hread' := hread
          obtain ⟨hp, -, m, m', hm, hm', -⟩ := hread
          refine ⟨m, hm, ?_⟩
          intro fd hfd
          obtain ⟨size, w₂, hsize, hsize', hsame⟩ := hread'.getFieldSize h hm hfd
          refine ⟨size, w₂, hsize, hsize', hsame.reads (h.plain p m hp hm fd hfd) ?_⟩
          intro q q' hq
          exact ih hq

/-! ## The round trip

By induction on the depth of the nesting: the fields read the same, and so do the messages they hold. -/

variable {w₀ : World} {t : Nat} {cs : List (MessagePtr × Call)}

/-- **Round trip.** A message built by calls with no required field missing is written out. What a fresh message parses from
    those bytes, wherever they lie, reads the same. -/
theorem roundTrip_of_run (hlast : o + 1 = w₀.messages.length) (hnew : w₀.messages[o]? = some (newMessage t))
    (hrun : Run (CallStep env Call.builds o) w₀ cs w)
    (hrequired : ∀ q m, o ≤ q → w.messages[q]? = some m → checkAllRequiredField m.fields (env.pool m.descriptor) = true)
    (hplain : ∀ q m, o ≤ q → w.messages[q]? = some m → ∀ fd ∈ (env.pool m.descriptor).fields, fd.type.plain = true) :
    ∃ bytes, w.toString env.pool o = some (some bytes) ∧
      ∀ (w' : World) p' (data : Nat), w'.messages[p']? = some (newMessage t) → w'.mem.Holds data bytes →
        data + bytes.length + 16 ≤ 2 ^ 64 →
        ∃ w₁, w'.fromString env.pool env.junk p' data bytes.length = some (w₁, true) ∧ ∀ n, Alike env n w o w₁ p' := by
  obtain ⟨hbuilt, m, hm, hd⟩ := built_of_run hlast hnew hrun
  have h : Whole env o w := ⟨hbuilt, hrequired, hplain⟩
  have hdepth : w.messages.length ≤ o + (w.messages.length + 1) := by omega
  obtain ⟨bytes, hbytes, -⟩ := h.encodeMessage_emits w.messages.length (Nat.le_refl o) hm hdepth
  refine ⟨bytes, hbytes, ?_⟩
  intro w' p' data hfresh hholds hroom
  obtain ⟨m', hinit, hmirror⟩ := h.load env.junk (Nat.le_refl o) hm hdepth hbytes (placed_string hholds hroom)
  rw [hd] at hinit
  refine ⟨{ w' with messages := w'.messages.set p' m' }, ?_, ?_⟩
  · unfold World.fromString
    simp only [hfresh, hinit, Option.map_some]
  · intro n
    have hlt := (List.getElem?_eq_some_iff.mp hfresh).1
    exact alike_of_mirror h n (hmirror _ p' rfl (List.getElem?_set_self hlt))

/-- A message with a required `Child child = 1`, and a `Child` with a packed `repeated uint64 a = 1`. -/
def parentDescriptor : Descriptor :=
  ⟨[⟨"child", 1, .message, .required, false, 1, 0, 0, [], firstNumber_pos, firstNumber_lt, unpacked_repeated⟩], by decide, by decide⟩

/-- The embedded message of the example: one packed field. -/
def childDescriptor : Descriptor :=
  ⟨[⟨"a", 1, .uint64, .repeated, true, 0, 0, 0, [], firstNumber_pos, firstNumber_lt, packed_uint64⟩], by decide, by decide⟩

/-- The example's descriptors, over zeroed memory. -/
def nestedEnv : Env := ⟨fun t => if t = 0 then parentDescriptor else childDescriptor, zeroJunk, fun _ => 0, fun _ => 0⟩

/-- A parent with the numbers 5 and 300 in its child. -/
def nestedWorld : World :=
  ((World.addMessage nestedEnv ⟨fun _ => 0, [newMessage 0]⟩ 0 "child").bind fun r =>
    (r.1.addInteger nestedEnv 1 "a" 5 0).bind fun w => w.addInteger nestedEnv 1 "a" 300 0).getD ⟨fun _ => 0, []⟩

/-- A message that holds a message with a packed field, over all depths. -/
theorem roundTrip_nested : ∃ w₁, World.fromString nestedEnv.pool zeroJunk
      ⟨memAt [0x0a, 5, 0x0a, 3, 5, 0xac, 2], [newMessage 0]⟩ 0 4096 7 = some (w₁, true) ∧
    ∀ n, Alike nestedEnv n nestedWorld 0 w₁ 0 := by
  have hrun : Run (CallStep nestedEnv Call.builds 0) ⟨fun _ => 0, [newMessage 0]⟩
      [(0, .addMessage "child"), (1, .addInteger "a" 5 0), (1, .addInteger "a" 300 0)] nestedWorld :=
    ((Run.single ⟨Nat.zero_le _, rfl, zeroJunk, _, rfl⟩).tail ⟨Nat.zero_le _, rfl, zeroJunk, _, rfl⟩).tail ⟨Nat.zero_le _, rfl, zeroJunk, _, rfl⟩
  have hrequired : nestedWorld.messages.all (fun m => checkAllRequiredField m.fields (nestedEnv.pool m.descriptor)) = true := by
    decide +kernel
  have hplain : nestedWorld.messages.all (fun m => (nestedEnv.pool m.descriptor).fields.all fun fd => fd.type.plain) = true := by
    decide +kernel
  obtain ⟨bytes, hbytes, hload⟩ := roundTrip_of_run rfl rfl hrun
    (fun _ m _ hm => List.all_eq_true.mp hrequired m (List.mem_of_getElem? hm))
    (fun _ m _ hm => List.all_eq_true.mp (List.all_eq_true.mp hplain m (List.mem_of_getElem? hm)))
  have hvalue : nestedWorld.toString nestedEnv.pool 0 = some (some [0x0a, 5, 0x0a, 3, 5, 0xac, 2]) := by decide +kernel
  rw [hvalue] at hbytes
  cases hbytes
  exact hload _ 0 4096 rfl (Mem.holds_iff_read.mpr (by decide +kernel)) (by decide)

end CompactProtobuf
end Snippets
