import Snippets.CompactProtobuf.Lazy
import Snippets.CompactProtobuf.Written

/-!
# `CompactProtobuf.Mirror` — a message that was parsed from what was written out for another

The parsed message mirrors the built one: under each number it has a field whose values wait for their decoding (`Waits`), or
are the same values (`SameContent`), down to the embedded messages (`Mirror`). Parsing what was written out makes a mirror
(`Whole.load`), and whatever is read of the messages in between keeps it one (`Mirror.read`).
-/

namespace Snippets

open Lib

namespace CompactProtobuf

variable {env : Env} {w w' : World} {p p' q q' o : MessagePtr} {m m' : Message} {fd : FieldDescriptor} {f f' : Field}
  {v v' : Value} {mem : Mem} {embedded : MessagePtr → Encoded} {d : Descriptor} {fields : FieldMap}
  {R : MessagePtr → MessagePtr → Prop} {n : Nat}

/-! ## The relation

A field of the parsed message is either decoded and holds the same values, or still waits for its first use; the
relation says so for every field of the descriptor. -/

/-- A field that was built, and one that was parsed. -/
structure FieldMirror (embedded : MessagePtr → Encoded) (R : MessagePtr → MessagePtr → Prop) (mem : Mem) (fd : FieldDescriptor)
    (f f' : Field) : Prop where
  id : f'.id = fd.number
  fieldDescriptor : f'.fieldDescriptor = some fd
  values : (f'.decoded = true ∧ List.Forall₂ (SameContent R fd.type) f.values f'.values) ∨
    (f'.decoded = false ∧ Waits embedded mem fd f f')

/-- `m'` mirrors `m`: the descriptor is the same, and under every number both have a field or neither has. -/
structure MessageMirror (env : Env) (embedded : MessagePtr → Encoded) (R : MessagePtr → MessagePtr → Prop) (mem : Mem)
    (m m' : Message) : Prop where
  descriptor : m'.descriptor = m.descriptor
  sorted : Sorted m'.fields
  fields : ∀ fd ∈ (env.pool m.descriptor).fields,
    Option.Rel (FieldMirror embedded R mem fd) (m.fields.find fd.number) (m'.fields.find fd.number)

/-- The message at `p'` in the second world mirrors the one at `p`, which is the `o`-th or a later one. The depth is that of
    the recursion of `EncodeMessage`. -/
def Mirror (env : Env) (o : MessagePtr) (w w' : World) : Nat → MessagePtr → MessagePtr → Prop
  | 0, _, _ => False
  | n + 1, p, p' => o ≤ p ∧ w.messages.length ≤ p + (n + 1) ∧ ∃ m m', w.messages[p]? = some m ∧ w'.messages[p']? = some m' ∧
      MessageMirror env (encodeMessage env.pool w n) (Mirror env o w w' n) w'.mem m m'

/-! ## Parsing what was written out

The records of a message written out come field by field, in the order of the numbers. Parsing groups them by
number again, so each group is what one field wrote. -/

/-- The records of the fields of a map: those with a number are the records of the field with it. -/
theorem numbered_of_fields {Q : FieldDescriptor → Field → List Record → Prop} {rss : List (List Record)} (hs : Sorted fields)
    (hnumber : ∀ fd f rs, Q fd f rs → f.id = fd.number ∧ ∀ r ∈ rs, r.number = fd.number)
    (h : List.Forall₂ (fun f rs => ∃ fd ∈ d.fields, Q fd f rs) fields rss) (hfd : fd ∈ d.fields) :
    (fields.find fd.number = none ∧ numbered fd.number rss.flatten = []) ∨
      ∃ f, fields.find fd.number = some f ∧ Q fd f (numbered fd.number rss.flatten) := by
  have happend : ∀ rs ss : List Record, numbered fd.number (rs ++ ss) = numbered fd.number rs ++ numbered fd.number ss :=
    fun rs ss => List.filter_append _ _
  induction h with
  | nil => exact Or.inl ⟨rfl, rfl⟩
  | @cons f rs fields rss hf hrest ih =>
      obtain ⟨hlt, hs'⟩ := List.pairwise_cons.mp hs
      obtain ⟨gd, hgd, hq⟩ := hf
      obtain ⟨hgid, hrecords⟩ := hnumber gd f rs hq
      rw [List.flatten_cons, happend, FieldMap.find_cons]
      by_cases hid : f.id = fd.number
      · -- the records of this field, and no other has its number
        have hsame : gd.number = fd.number := Int.ofNat_inj.mp (hgid.symm.trans hid)
        rw [Descriptor.eq_of_number hgd hfd hsame] at hq hrecords
        have hall : numbered fd.number rs = rs := by
          apply List.filter_eq_self.mpr
          intro r hr
          exact decide_eq_true (hrecords r hr)
        have hnone : FieldMap.find fields fd.number = none := by
          apply FieldMap.find_none.mpr
          intro g hg heq
          have hg' := hlt g hg
          rw [hid, heq] at hg'
          exact lt_irrefl _ hg'
        have hempty : numbered fd.number rss.flatten = [] := by
          rcases ih hs' with ⟨-, hempty⟩ | ⟨g, hg, -⟩
          · exact hempty
          · rw [hnone] at hg
            cases hg
        rw [if_pos hid, hall, hempty, List.append_nil]
        exact Or.inr ⟨f, rfl, hq⟩
      -- another field's records, which the lookup passes by
      · have hnone : numbered fd.number rs = [] := by
          apply List.filter_eq_nil_iff.mpr
          intro r hr heq
          apply hid
          rw [hgid, ← hrecords r hr, of_decide_eq_true heq]
        rw [if_neg hid, hnone, List.nil_append]
        exact ih hs'

/-- The records of one number are those the field of that number wrote, if there is one. -/
theorem numbered_flatten (hs : Sorted fields) {rss : List (List Record)} (h : FieldsEmit env w embedded p d fields rss)
    (hfd : fd ∈ d.fields) :
    (fields.find fd.number = none ∧ numbered fd.number rss.flatten = []) ∨
      ∃ f, fields.find fd.number = some f ∧ BuiltField w p fd f ∧ Emits embedded fd f (numbered fd.number rss.flatten) :=
  numbered_of_fields (Q := fun fd f rs => BuiltField w p fd f ∧ Emits embedded fd f rs) hs
    (fun _ _ _ h => ⟨h.1.id, h.2.number⟩) h hfd

/-- Every record written has the number of a field and its wire type. -/
theorem fieldsEmit_mem {rss : List (List Record)} {r : Record} (h : FieldsEmit env w embedded p d fields rss)
    (hr : r ∈ rss.flatten) : ∃ fd ∈ d.fields, r.number = fd.number ∧ getFieldWireType fd = some r.wire := by
  induction h with
  | nil => exact absurd hr List.not_mem_nil
  | cons hf _ ih =>
      rw [List.flatten_cons] at hr
      rcases List.mem_append.mp hr with hr | hr
      · obtain ⟨fd, hfd, hbuilt, hemits⟩ := hf
        exact ⟨fd, hfd, hemits.number r hr, by rw [hemits.wire r hr]; exact hbuilt.wireType⟩
      · exact ih hr

/-- So the parser accepts the records under the same descriptor. -/
theorem regular_of_fieldsEmit {rss : List (List Record)} (hs : Sorted fields) (h : FieldsEmit env w embedded p d fields rss) :
    Regular d rss.flatten := by
  constructor
  · intro r hr s hs heq
    obtain ⟨fd, hfd, hnumber, hwire⟩ := fieldsEmit_mem h hr
    obtain ⟨gd, hgd, hnumber', hwire'⟩ := fieldsEmit_mem h hs
    have hsame : fd = gd := Descriptor.eq_of_number hfd hgd (by rw [← hnumber, heq, hnumber'])
    rw [hsame, hwire'] at hwire
    exact (Option.some.inj hwire).symm
  · intro fd hfd hlabel
    rcases numbered_flatten hs h hfd with ⟨-, hnil⟩ | ⟨f, -, hbuilt, hemits⟩
    · rw [hnil]
      exact Nat.zero_le 1
    · have hpacked : ¬ fd.packed = true := fun hpacked => hlabel (fd.packed_repeated hpacked).1
      have hvalues := hemits.values
      rw [if_neg hpacked] at hvalues
      have hrep : fd.isRepeated = false := by
        unfold FieldDescriptor.isRepeated
        exact beq_eq_false_iff_ne.mpr hlabel
      rw [← hvalues.length_eq, hbuilt.single hrep]

/-- A field that holds the records of another waits for its decoding. -/
theorem waits_of_loaded {rs : List Record} (hbuilt : BuiltField w p fd f) (hemits : Emits embedded fd f rs)
    (hheld : List.Forall₂ (Held mem) rs f'.values) : Waits embedded mem fd f f' := by
  have hvalues := hemits.values
  unfold Waits
  by_cases hpacked : fd.packed = true
  · rw [if_pos hpacked] at hvalues ⊢
    obtain ⟨r, packed, rfl, hencode, hpayload, hpre⟩ := hvalues
    obtain ⟨v', vs, hr, hnil, hvs⟩ := List.forall₂_cons_left_iff.mp hheld
    rw [List.forall₂_nil_left_iff.mp hnil] at hvs
    have hrwire : r.wire = .kLengthDelimited := by
      rw [hemits.wire r List.mem_cons_self]
      exact wireType_of_packed hbuilt.wireType hpacked
    exact ⟨v', r, packed, hvs, hencode, hpayload, hpre, hrwire, hr⟩
  · rw [if_neg hpacked] at hvalues ⊢
    refine (forall₂_comp hvalues hheld).imp ?_
    rintro v v' ⟨r, hr, hcarries, hv'⟩
    refine ⟨r, hcarries, ?_, hv'⟩
    rw [hemits.wire r hr]
    exact hbuilt.wireType

theorem loaded_mirror {rss : List (List Record)} (hs : Sorted m.fields)
    (h : FieldsEmit env w embedded p (env.pool m.descriptor) m.fields rss)
    (hl : Loaded mem (env.pool m.descriptor) rss.flatten fields) (R : MessagePtr → MessagePtr → Prop) :
    MessageMirror env embedded R mem m (splitUnknown ⟨m.descriptor, fields, none⟩) := by
  obtain ⟨hknown, -, hdesc⟩ := splitUnknown_eq hl.sorted m.descriptor
  -- every record has a field of the descriptor
  have hfd : ∀ f ∈ fields, ∃ fd ∈ (env.pool m.descriptor).fields, f.id = fd.number ∧
      LoadedField mem (env.pool m.descriptor) rss.flatten fd.number f := by
    intro f hf
    obtain ⟨k, hid, hlf⟩ := hl.field f hf
    obtain ⟨r, hr⟩ := List.exists_mem_of_ne_nil _ hlf.nonempty
    have hnum : r.number = k := (mem_group.mp hr).2
    obtain ⟨fd, hfd, hnumber, -⟩ := fieldsEmit_mem h (mem_group.mp hr).1
    rw [← hnum, hnumber] at hid hlf
    exact ⟨fd, hfd, hid, hlf⟩
  -- so none of them is unknown, and splitting them off changes nothing
  have hall : fields.filter (fun f => !f.unknown) = fields := by
    apply List.filter_eq_self.mpr
    intro f hf
    obtain ⟨fd, hfd, hid, hlf⟩ := hfd f hf
    rw [hlf.unknown, Descriptor.findFieldByNumber_eq hfd]
    rfl
  rw [hall] at hknown
  refine ⟨hdesc, by rw [hknown]; exact hl.sorted, ?_⟩
  intro fd hmem
  rw [hknown]
  rcases numbered_flatten hs h hmem with ⟨hnone, hempty⟩ | ⟨f, hf, hbuilt, hemits⟩
  -- a field that wrote nothing got no records
  · have hnone' : FieldMap.find fields fd.number = none := by
      apply FieldMap.find_none.mpr
      intro g hg heq
      obtain ⟨gd, hgd, hid, hlf⟩ := hfd g hg
      have hnumber : gd.number = fd.number := Int.ofNat_inj.mp (hid.symm.trans heq)
      rw [hnumber] at hlf
      exact hlf.nonempty hempty
    rw [hnone, hnone']
    exact Option.Rel.none
  -- a field that wrote something wrote a record, so the parsed message has the field too
  · obtain ⟨r, hr⟩ := List.exists_mem_of_ne_nil _ hemits.nonempty
    have hnum : r.number = fd.number := (mem_group.mp hr).2
    obtain ⟨f', hf', hid'⟩ := hl.all r (mem_group.mp hr).1
    rw [hnum] at hid'
    have hfind := hl.sorted.find_eq hf'
    rw [hid'] at hfind
    obtain ⟨gd, hgd, hid, hlf⟩ := hfd f' hf'
    have hnumber : gd.number = fd.number := Int.ofNat_inj.mp (hid.symm.trans hid')
    rw [hnumber] at hlf
    rw [hf, hfind]
    refine Option.Rel.some ⟨hid', ?_, Or.inr ⟨hlf.decoded, waits_of_loaded hbuilt hemits hlf.values⟩⟩
    rw [hlf.descriptor]
    exact Descriptor.findFieldByNumber_eq hmem

/-- **Parsing what was written out makes a mirror.** -/
theorem Whole.load {slice : Slice} {bytes : List UInt8} (junk : Junk) (h : Whole env o w) (hp : o ≤ p) (hm : w.messages[p]? = some m)
    (hdepth : w.messages.length ≤ p + (n + 1)) (hencode : encodeMessage env.pool w (n + 1) p = some (some bytes))
    (hplaced : Placed mem slice bytes) :
    ∃ m', (newMessage m.descriptor).init env.pool junk mem slice = some (true, m') ∧
      ∀ (w' : World) p', w'.mem = mem → w'.messages[p']? = some m' → Mirror env o w w' (n + 1) p p' := by
  have hlt : bytes.length < 2 ^ 64 := by
    have h₁ := hplaced.endAddr
    have h₂ := hplaced.room
    omega
  obtain ⟨bytes', hbytes', hrecords⟩ := h.encodeMessage_emits n hp hm hdepth
  rw [hencode] at hbytes'
  cases hbytes'
  obtain ⟨rss, rfl, hemit⟩ := hrecords hlt
  have hbuilt := h.built p m hp hm
  -- the required fields are there, since the built message has them
  have hreq : ∀ fd ∈ (env.pool m.descriptor).fields, fd.label = .required → ∃ r ∈ rss.flatten, r.number = fd.number := by
    intro fd hfd hlabel
    have hcheck := List.all_eq_true.mp (h.required p m hp hm) fd hfd
    rcases numbered_flatten hbuilt.sorted hemit hfd with ⟨hnone, -⟩ | ⟨f, -, -, hemits⟩
    · rw [hnone] at hcheck
      simp [hlabel] at hcheck
    · obtain ⟨r, hr⟩ := List.exists_mem_of_ne_nil _ hemits.nonempty
      exact ⟨r, (mem_group.mp hr).1, (mem_group.mp hr).2⟩
  obtain ⟨fields, hparse, hl⟩ := @parse_records junk _ _ _ _ hplaced (regular_of_fieldsEmit hbuilt.sorted hemit) hreq
  refine ⟨splitUnknown ⟨m.descriptor, fields, none⟩, ?_, ?_⟩
  · have hlazy : parseMessageLazy junk mem (env.pool (newMessage m.descriptor).descriptor) slice
        (newMessage m.descriptor).fields = some (true, fields) := hparse
    unfold Message.init
    rw [hlazy]
    rfl
  · rintro w' p' rfl hm'
    exact ⟨hp, hdepth, m, _, hm, hm', loaded_mirror hbuilt.sorted hemit hl _⟩

/-! ## Decoding a field of a mirror

The first use of a field decodes the values it waits for. For a field of messages this parses each body, and each
parsed message is again a mirror, one level further down. -/

/-- A message made by decoding: it mirrors the other one wherever it is found. -/
def Child (env : Env) (o : MessagePtr) (w w' w₁ : World) (n : Nat) (q q' : MessagePtr) : Prop :=
  w'.messages.length ≤ q' ∧ ∀ w₂ : World, w₂.mem = w'.mem → w₂.messages[q']? = w₁.messages[q']? → Mirror env o w w₂ n q q'

theorem decodeMessages_written {values values' : List Value} (junk : Junk) (h : Whole env o w) (hp : o ≤ p)
    (hdepth : w.messages.length ≤ p + (n + 1)) (htype : fd.type = .message) (hpacked : fd.packed = false)
    (hbuilt : ∀ v ∈ values, BuiltValue w p fd v)
    (hwritten : List.Forall₂ (Written (encodeMessage env.pool w n) mem fd) values values') (hmem : w'.mem = mem) :
    ∃ w₁ us, decodeMessages (env.withJunk junk) fd.messageType w' values' = some (w₁, us) ∧
      List.Forall₂ (SameContent (Child env o w w' w₁ n) .message) values us := by
  induction hwritten generalizing w' with
  | nil => exact ⟨w', [], rfl, List.Forall₂.nil⟩
  | @cons v v' values values' hv _ ih =>
      obtain ⟨r, hcarries, hwire, hheld⟩ := hv
      have hmember : fd.type.member = some .m := by rw [htype]; rfl
      have hlen : r.wire = .kLengthDelimited := by
        rw [getFieldWireType_unpacked hpacked, hmember] at hwire
        exact (Option.some.inj hwire).symm
      unfold Carries at hcarries
      rw [hmember] at hcarries
      obtain ⟨q, body, hq, hbody, hpayload, hpre⟩ := hcarries
      obtain ⟨q₀, m, hq₀, hlt, hm, hdesc⟩ := (hbuilt v List.mem_cons_self).message htype
      rw [hq] at hq₀
      cases hq₀
      -- there is a message to write out, so the depth is not used up
      cases n with
      | zero => cases hbody
      | succ k =>
          have hdepth' : w.messages.length ≤ q + (k + 1) := by
            apply Nat.le_trans hdepth
            rw [← Nat.add_assoc, Nat.add_right_comm]
            exact Nat.add_le_add_right hlt _
          have hqo : o ≤ q := Nat.le_of_lt (Nat.lt_of_le_of_lt hp hlt)
          obtain ⟨hplaced, -⟩ := hheld.body hpayload hpre hlen
          obtain ⟨m', hinit, hmirror⟩ := h.load (junk.inside w'.messages.length) hqo hm hdepth' hbody hplaced
          rw [hdesc, ← hmem] at hinit
          have hmem' : ({ w' with messages := w'.messages ++ [m'] } : World).mem = mem := hmem
          obtain ⟨w₁, us, hrest, hall⟩ := ih (fun u hu => hbuilt u (List.mem_cons_of_mem _ hu)) hmem'
          have hext := (decodeMessages_spec (p := w'.messages.length + 1) hrest).1
          have hnew : w₁.messages[w'.messages.length]? = some m' :=
            hext.old _ _ (Nat.ne_of_lt (Nat.lt_succ_self _)) List.getElem?_concat_length
          refine ⟨w₁, { v' with m := some w'.messages.length } :: us, ?_, List.Forall₂.cons ?_ ?_⟩
          · unfold decodeMessages
            rw [hinit]
            show (decodeMessages (env.withJunk junk) fd.messageType { w' with messages := w'.messages ++ [m'] } values').map _ = _
            rw [hrest]
            rfl
          -- the new message is the mirror of the one that was written
          · refine ⟨q, w'.messages.length, hq, rfl, Nat.le_refl _, ?_⟩
            intro w₂ hmem₂ hw₂
            exact hmirror w₂ _ (hmem₂.trans hmem) (hw₂.trans hnew)
          · refine hall.imp ?_
            rintro x x' ⟨a, a', ha, ha', hle, hchild⟩
            refine ⟨a, a', ha, ha', ?_, hchild⟩
            have hle' : (w'.messages ++ [m']).length ≤ a' := hle
            rw [List.length_append] at hle'
            exact Nat.le_trans (Nat.le_add_right _ _) hle'

/-- **Decoding a field of a mirror** gives the values back. -/
theorem decodeField_mirror (junk : Junk) (h : Whole env o w) (hp : o ≤ p) (hdepth : w.messages.length ≤ p + (n + 1))
    (hplain : fd.type.plain = true) (hbuilt : BuiltField w p fd f)
    (hmirror : FieldMirror (encodeMessage env.pool w n) R w'.mem fd f f') (hdec : f'.decoded = false) :
    ∃ w₁ f₁, decodeField (env.withJunk junk) w' f' = some (w₁, f₁) ∧
      List.Forall₂ (SameContent (Child env o w w' w₁ n) fd.type) f.values f₁.values := by
  -- a field that is not decoded waits for its decoding
  have hwaits : Waits (encodeMessage env.pool w n) w'.mem fd f f' := by
    rcases hmirror.values with ⟨htrue, -⟩ | ⟨-, hwaits⟩
    · rw [hdec] at htrue
      cases htrue
    · exact hwaits
  unfold Waits at hwaits
  cases hpacked : fd.packed with
  | true =>
      rw [if_pos hpacked] at hwaits
      obtain ⟨v', r, packed, hvalues, hencode, hpayload, hpre, hwire, hheld⟩ := hwaits
      obtain ⟨f₁, hf₁, hall⟩ := decodePacked_written (Child env o w w' w' n) junk hplain hbuilt.nonempty hbuilt.values hvalues
        hencode hpayload hpre hwire hheld
      refine ⟨w', f₁, ?_, hall⟩
      unfold decodeField
      rw [hmirror.fieldDescriptor]
      dsimp only
      rw [if_pos hpacked, hf₁]
      rfl
  | false =>
      rw [if_neg (by rw [hpacked]; exact Bool.false_ne_true)] at hwaits
      -- a field of messages is parsed, any other is decoded in place
      by_cases htype : fd.type = .message
      · obtain ⟨w₁, us, hdecode, hall⟩ := decodeMessages_written junk h hp hdepth htype hpacked hbuilt.values hwaits rfl
        refine ⟨w₁, { f' with decoded := true, values := us }, ?_, ?_⟩
        · rw [decodeField_message hmirror.fieldDescriptor htype, hdecode]
          rfl
        · rw [htype]
          exact hall
      · obtain ⟨f₁, hf₁, hall⟩ := decodeInPlace_written (Child env o w w' w' n) junk hplain hpacked htype hbuilt.values hwaits
        refine ⟨w', f₁, ?_, hall⟩
        rw [decodeField_inPlace hmirror.fieldDescriptor htype, hf₁]
        rfl

/-! ## What reading changes

A read decodes one field of one message, and appends the messages it parses. What a mirror says is about messages
that were there before, so only the decoded field can matter. -/

/-- One field of the message at `q` is decoded, whatever its values find in memory. -/
def DecodeStep (env : Env) (w : World) (q : MessagePtr) (w' : World) : Prop :=
  ∃ junk m f w₁ f₁, w.messages[q]? = some m ∧ f ∈ m.fields ∧ f.decoded = false ∧
    decodeField (env.withJunk junk) w f = some (w₁, f₁) ∧ w' = w₁.store q f₁

/-- The memory of new values plays no part in which step it is. -/
theorem DecodeStep.of_withJunk {junk : Junk} {w₁ : World} (h : DecodeStep (env.withJunk junk) w q w₁) : DecodeStep env w q w₁ := h

/-- A mirror of a field carries over to any weaker relation of the embedded messages, -/
theorem FieldMirror.mono {S : MessagePtr → MessagePtr → Prop} (h : FieldMirror embedded R mem fd f f')
    (hRS : ∀ q q', R q q' → S q q') : FieldMirror embedded S mem fd f f' := by
  refine ⟨h.id, h.fieldDescriptor, ?_⟩
  rcases h.values with ⟨hdec, hvals⟩ | hwaits
  · exact Or.inl ⟨hdec, hvals.imp fun _ _ hv => hv.mono hRS⟩
  · exact Or.inr hwaits

/-- and so does a mirror of a message. -/
theorem MessageMirror.mono {S : MessagePtr → MessagePtr → Prop} (h : MessageMirror env embedded R mem m m')
    (hRS : ∀ q q', R q q' → S q q') : MessageMirror env embedded S mem m m' := by
  refine ⟨h.descriptor, h.sorted, ?_⟩
  intro fd hfd
  exact rel_mono (h.fields fd hfd) fun _ _ hf => hf.mono hRS

/-- **A mirror stays one when a field is decoded**, of whatever message. -/
theorem Mirror.decode {w₁ : World} (h : Whole env o w) (hstep : DecodeStep env w' q w₁) (hm : Mirror env o w w' n p p') :
    Mirror env o w w₁ n p p' := by
  obtain ⟨junk, mq, g, w₂, g₁, hmq, hg, hgdec, hdecode, rfl⟩ := hstep
  obtain ⟨hheader, hext⟩ := decodeField_header hdecode
  have hheader' : g₁ = { g with decoded := true, values := g₁.values } := hheader
  have hqlt : q < w'.messages.length := (List.getElem?_eq_some_iff.mp hmq).1
  have hid : g₁.id = g.id := by rw [hheader']
  induction n generalizing p p' with
  | zero => exact hm
  | succ n ih =>
      obtain ⟨hp, hdepth, m, m', hfound, hfound', hmirror⟩ := hm
      have hmono := hmirror.mono fun _ _ => ih
      by_cases hpq : p' = q
      · -- the message itself: the field is decoded to the values it mirrors
        subst hpq
        obtain rfl : mq = m' := Option.some.inj (hmq.symm.trans hfound')
        have hw₂ : w₂.messages[p']? = some mq := (hext (p' + 1)).old _ _ (Nat.ne_of_lt (Nat.lt_succ_self _)) hmq
        refine ⟨hp, hdepth, m, _, hfound, change_self hw₂, hmono.descriptor, sorted_modify hmono.sorted fun _ _ _ => rfl, ?_⟩
        intro fd hfd
        dsimp only
        rw [FieldMap.find_modify (fun _ _ => rfl), hid]
        by_cases hnumber : (fd.number : Int) = g.id
        · have hrel := hmirror.fields fd hfd
          rw [if_pos hnumber]
          rw [hnumber, hmirror.sorted.find_eq hg] at hrel ⊢
          cases hf : m.fields.find g.id with
          | none =>
              rw [hf] at hrel
              cases hrel
          | some f =>
              rw [hf] at hrel
              cases hrel with
              | some hfg =>
                  have hbuilt := h.built.find hp hfound hfd (by rw [hnumber]; exact hf)
                  obtain ⟨w₃, g₃, hdecode', hall⟩ :=
                    decodeField_mirror junk h hp hdepth (h.plain p m hp hfound fd hfd) hbuilt hfg hgdec
                  rw [hdecode] at hdecode'
                  cases hdecode'
                  refine Option.Rel.some ⟨?_, ?_, Or.inl ⟨?_, hall.imp fun _ _ hv => hv.mono ?_⟩⟩
                  · rw [hid]
                    exact hfg.id
                  · rw [hheader']
                    exact hfg.fieldDescriptor
                  · rw [hheader']
                  · rintro a a' ⟨hle, hchild⟩
                    exact hchild (w₂.store p' g₁) (hext 0).mem (change_other (Nat.ne_of_gt (Nat.lt_of_lt_of_le hqlt hle)))
        · rw [if_neg hnumber]
          have hrel := hmono.fields fd hfd
          have hmemEq : (w₂.store p' g₁).mem = w'.mem := (hext 0).mem
          rw [hmemEq]
          exact hrel
      -- another message, whose fields are what they were
      · refine ⟨hp, hdepth, m, m', hfound, ?_, ?_⟩
        · exact (change_other hpq).trans ((hext q).old p' m' hpq hfound')
        · have hmemEq : (w₂.store q g₁).mem = w'.mem := (hext 0).mem
          rw [hmemEq]
          exact hmono

/-- `TryDecodeField` decodes the field, or finds it decoded. -/
theorem tryDecodeField_step {r : World × Field} (hm : w.messages[q]? = some m) (hf : f ∈ m.fields)
    (h : w.tryDecodeField env q f = some r) : r.1 = w ∨ DecodeStep env w q r.1 := by
  cases hdec : f.decoded with
  | true =>
      rw [tryDecodeField_of_decoded hdec] at h
      cases h
      exact Or.inl rfl
  | false =>
      rw [tryDecodeField_of_undecoded hdec] at h
      obtain ⟨⟨w₁, f₁⟩, hdecode, rfl⟩ := Option.map_eq_some_iff.mp h
      exact Or.inr ⟨env.junk, m, f, w₁, f₁, hm, hf, hdec, hdecode, rfl⟩

/-- `GetFieldSize` decodes a field, or changes nothing. -/
theorem getFieldSize_step {name : String} {r : World × Nat} (h : w.getFieldSize env q name = some r) :
    r.1 = w ∨ DecodeStep env w q r.1 := by
  unfold World.getFieldSize at h
  obtain ⟨⟨fd, found⟩, hlookup, h⟩ := Option.bind_eq_some_iff.mp h
  obtain ⟨m, hm, -, -, -, rfl⟩ := lookup_inv hlookup
  cases hf : m.fields.find fd.number with
  | none =>
      rw [hf] at h
      cases h
      exact Or.inl rfl
  | some f =>
      rw [hf] at h
      obtain ⟨⟨w₁, f₁⟩, htry, h⟩ := Option.bind_eq_some_iff.mp h
      cases h
      exact tryDecodeField_step hm (FieldMap.find_some hf).1 htry

/-- And so does every getter. -/
theorem get_step {β : Type} {kind : FieldType → Bool} {default : FieldDescriptor → Option β} {read : Field → Nat → Option β}
    {name : String} {idx : Nat} {r : World × β} (h : w.get env q kind default read name idx = some r) :
    r.1 = w ∨ DecodeStep env w q r.1 := by
  unfold World.get at h
  obtain ⟨⟨fd, found⟩, hlookup, h⟩ := Option.bind_eq_some_iff.mp h
  obtain ⟨m, hm, -, -, -, rfl⟩ := lookup_inv hlookup
  cases hf : m.fields.find fd.number with
  | none =>
      rw [hf] at h
      obtain ⟨b, -, h⟩ := Option.bind_eq_some_iff.mp h
      cases h
      exact Or.inl rfl
  | some f =>
      rw [hf] at h
      obtain ⟨⟨w₁, f₁, i⟩, haccess, h⟩ := Option.bind_eq_some_iff.mp h
      obtain ⟨b, -, h⟩ := Option.bind_eq_some_iff.mp h
      cases h
      unfold World.access at haccess
      obtain ⟨_, -, haccess⟩ := Option.bind_eq_some_iff.mp haccess
      obtain ⟨⟨w₂, f₂⟩, htry, haccess⟩ := Option.bind_eq_some_iff.mp haccess
      cases haccess
      exact tryDecodeField_step hm (FieldMap.find_some hf).1 htry

/-- Each reading call decodes at most one field of the message it is called on. -/
theorem reads_step {c : MessagePtr × Call} (h : CallStep env Call.reads p w c w') : w' = w ∨ DecodeStep env w c.1 w' := by
  obtain ⟨q, c⟩ := c
  obtain ⟨-, hsort, junk, seen, hexec⟩ := h
  cases c with
  | getFieldSize name =>
      obtain ⟨r, hr, heq⟩ := Option.map_eq_some_iff.mp hexec
      cases heq
      exact (getFieldSize_step hr).imp_right DecodeStep.of_withJunk
  | getInteger name idx | getReal name idx | getString name idx | getMessage name idx =>
      obtain ⟨r, hr, heq⟩ := Option.map_eq_some_iff.mp hexec
      cases heq
      exact (get_step hr).imp_right DecodeStep.of_withJunk
  | _ => cases hsort

/-- **Whatever is read, a mirror stays a mirror.** -/
theorem Mirror.read {w₁ : World} {cs : List (MessagePtr × Call)} (h : Whole env o w)
    (hrun : Run (CallStep env Call.reads q) w' cs w₁) (hm : Mirror env o w w' n p p') : Mirror env o w w₁ n p p' := by
  apply hrun.invariant (I := fun u => Mirror env o w u n p p') _ hm
  intro u c u' hmirror hstep
  rcases reads_step hstep with rfl | hdecode
  · exact hmirror
  · exact hmirror.decode h hdecode

end CompactProtobuf
end Snippets
