import Mathlib.Data.List.Induction
import Snippets.Lib.Lockstep
import Snippets.CompactProtobuf.Replaced

/-!
# `CompactProtobuf.Failed` — what a failed parse leaves behind

`ParseMessageLazy` fills the records it reads into the map of the message itself, one after another, and the records before
the one that fails stay there. `recordsRead` are these records. A failed `FromString` goes unnoticed exactly when each of
them replaces the value of a field that was there (`Replaces`), and the last one for each field holds what the field held.
-/

namespace Snippets

open Lib

namespace CompactProtobuf

variable {env : Env} {w w' : World} {p : MessagePtr} {m m' : Message} {fd : FieldDescriptor} {f f' : Field} {junk : Junk}
  {mem : Mem} {d : Descriptor} {fields fields' : FieldMap} {st : ParserState} {sts : List ParserState}

/-! ## What is the same

A field is kept when a client reads the same of it and it is written out the same; a message is, when its fields
are. -/

/-- Two worlds in which a message shows the same: `has_field`, `GetFieldSize`, the four `Get`, and `ToString`. -/
structure SameShown (env : Env) (p : MessagePtr) (w w' : World) : Prop where
  hasField : ∀ name, w'.hasField env p name = w.hasField env p name
  size : ∀ name, (w'.getFieldSize env p name).map Prod.snd = (w.getFieldSize env p name).map Prod.snd
  integer : ∀ name idx, (w'.getInteger env p name idx).map Prod.snd = (w.getInteger env p name idx).map Prod.snd
  real : ∀ name idx, (w'.getReal env p name idx).map Prod.snd = (w.getReal env p name idx).map Prod.snd
  string : ∀ name idx, (w'.getString env p name idx).map Prod.snd = (w.getString env p name idx).map Prod.snd
  message : ∀ name idx, (w'.getMessage env p name idx).map Prod.snd = (w.getMessage env p name idx).map Prod.snd
  bytes : w'.toString env.pool p = w.toString env.pool p

/-- **The message is as it was**: its known and its unknown fields, and what it shows. -/
def Unchanged (env : Env) (p : MessagePtr) (w w' : World) : Prop :=
  ∃ m m', w.messages[p]? = some m ∧ w'.messages[p]? = some m' ∧ List.Forall₂ (KeptField env w) m.fields m'.fields ∧
    m'.unknownFields = m.unknownFields ∧ SameShown env p w w'

/-! ## The records that are filled in

The loop of the parser as two passes: first the records it reads, then their filling one after another. -/

/-- The states after the records that the loop of `ParseMessageLazy` fills in. -/
def recordsRead (mem : Mem) : Nat → ParserState → List ParserState
  | 0, _ => []
  | fuel + 1, st =>
      if st.cur < st.slice.endAddr then
        match parseRecord mem st with
        | (.kOk, st) => st :: recordsRead mem fuel st
        | _ => []
      else []

/-- The record replaces the value of a field that is there: a known one that is not repeated. -/
def Replaces (fields : FieldMap) (st : ParserState) : Prop :=
  ∃ f fd, fields.find st.fieldId = some f ∧ f.unknown = false ∧ f.fieldDescriptor = some fd ∧ fd.label ≠ .repeated

/-- The last of these records with the number of a field. -/
def lastRecord (sts : List ParserState) (f : Field) : Option ParserState := (sts.filter fun st => st.fieldId = f.id).getLast?

/-- A field after these records: it holds the last one with its number. -/
def refreshed (junk : Junk) (sts : List ParserState) (f : Field) : Field :=
  match lastRecord sts f with
  | none => f
  | some st => f.replaced junk st

/-- What the loop leaves in the map is the filling of the records read, whether it fails or not. -/
theorem parseLoop_fills {fuel : Nat} {status : ParserStatus} (h : parseLoop junk mem d fuel st fields = some (status, fields')) :
    (recordsRead mem fuel st).foldlM (fillField junk d) fields = some fields' := by
  induction fuel generalizing st fields with
  | zero =>
      unfold parseLoop at h
      split at h
      · cases h
      · cases h
        rfl
  | succ fuel ih =>
      unfold parseLoop at h
      unfold recordsRead
      split at h
      -- a record is read: it is filled in before the next one
      next hlt =>
        rw [if_pos hlt]
        dsimp only at h
        split at h
        next st' hrec =>
          rw [hrec]
          split at h
          next fields₁ hfill =>
            rw [List.foldlM_cons, hfill]
            exact ih h
          next => cases h
        next status' st' hnot hrec =>
          -- the record that fails is not filled in
          cases h
          rw [hrec]
          cases status with
          | kOk => exact (hnot rfl).elim
          | kUnknownError => rfl
          | kInvalidWireType => rfl
          | kNeedsMore => rfl
      next hlt =>
        cases h
        rw [if_neg hlt]
        rfl

/-! ## One record

Filling can add a field or a value, or replace the one value of a field. The weight counts fields and values, so
only the last of these keeps it. -/

/-- The number of fields and values. -/
def fieldWeight (fields : FieldMap) : Nat := (fields.map fun f => f.values.length + 1).sum

/-- A field put in adds itself and its values, -/
theorem fieldWeight_insert (f : Field) (fields : FieldMap) :
    fieldWeight (FieldMap.insert f fields) = f.values.length + 1 + fieldWeight fields := by
  unfold fieldWeight
  induction fields with
  | nil => rfl
  | cons g fields ih =>
      unfold FieldMap.insert
      split
      · rfl
      · rw [List.map_cons, List.sum_cons, ih, List.map_cons, List.sum_cons]
        omega

/-- A change that adds `k` values to the field with this number. -/
theorem fieldWeight_modify {change : Field → Field} {k : Nat} (hs : Sorted fields) (hf : f ∈ fields)
    (hchange : (change f).values.length = f.values.length + k) :
    fieldWeight (fields.modify f.id change) = fieldWeight fields + k := by
  unfold fieldWeight FieldMap.modify
  induction fields with
  | nil => cases hf
  | cons g fields ih =>
      obtain ⟨hg, hs'⟩ := List.pairwise_cons.mp hs
      rw [List.map_cons, List.map_cons, List.sum_cons, List.map_cons, List.sum_cons]
      rcases List.mem_cons.mp hf with rfl | hf
      · -- the other fields have other numbers
        have hrest : fields.map (fun h => if h.id = f.id then change h else h) = fields := by
          rw [List.map_congr_left (g := fun h => h) fun h hh => if_neg (ne_of_gt (hg h hh)), List.map_id']
        rw [if_pos rfl, hrest, hchange]
        omega
      · rw [if_neg (ne_of_lt (hg f hf)), ih hs' hf]
        omega

/-- and `FastAppend` adds one value. -/
@[simp] theorem fastAppend_length (found : Found) (f : Field) (v : Value) : (f.fastAppend found v).values.length = f.values.length + 1 := by
  unfold Field.fastAppend
  rw [List.length_append, List.length_singleton]

/-- A record replaces a value, or there is more in the map than before. -/
theorem fillField_weight (hs : Sorted fields) (h : fillField junk d fields st = some fields') :
    Replaces fields st ∧ fields' = fields.modify st.fieldId (Field.replaced junk st) ∧ fieldWeight fields' = fieldWeight fields ∨
      ¬ Replaces fields st ∧ fieldWeight fields < fieldWeight fields' := by
  unfold fillField at h
  split at h
  -- no field has the number yet
  next hfind =>
    cases h
    refine Or.inr ⟨?_, ?_⟩
    · rintro ⟨g, fd, hg, -⟩
      rw [hfind] at hg
      cases hg
    · rw [fieldWeight_insert]
      omega
  next g hfind =>
    obtain ⟨hg, hid⟩ := FieldMap.find_some hfind
    have happend : fieldWeight (fields.modify st.fieldId (Field.fastAppend (junk (.parsed st.cur)) · st.v)) = fieldWeight fields + 1 := by
      rw [← hid]
      exact fieldWeight_modify hs hg (fastAppend_length _ g st.v)
    split at h
    -- an unknown field collects its records
    next hunknown =>
      cases h
      refine Or.inr ⟨?_, by omega⟩
      rintro ⟨g', fd, hg', hknown, -⟩
      rw [hfind] at hg'
      cases hg'
      rw [hunknown] at hknown
      cases hknown
    next hknown =>
      split at h
      next => cases h
      next fd hfd =>
        split at h
        -- a repeated field gets one more value
        next hrep =>
          cases h
          refine Or.inr ⟨?_, by omega⟩
          rintro ⟨g', fd', hg', -, hfd', hnot⟩
          rw [hfind] at hg'
          cases hg'
          rw [hfd] at hfd'
          cases hfd'
          exact hnot hrep
        next hrep =>
          split at h
          -- a single field: the new value takes the place of the old one
          next hlen =>
            cases h
            refine Or.inl ⟨⟨g, fd, hfind, by simpa using hknown, hfd, hrep⟩, rfl, ?_⟩
            rw [← hid]
            refine fieldWeight_modify (k := 0) hs hg ?_
            rw [fastAppend_length, hlen]
            rfl
          next => cases h

/-- Nothing is ever taken away. -/
theorem fillField_weight_le (hs : Sorted fields) (h : fillField junk d fields st = some fields') :
    fieldWeight fields ≤ fieldWeight fields' := by
  rcases fillField_weight hs h with ⟨-, -, heq⟩ | ⟨-, hlt⟩ <;> omega

/-! ## A sequence of records

After records that only replace, each field holds the last record of its number, if there was one. -/

/-- Only the value changes, -/
theorem refreshed_header (f : Field) : refreshed junk sts f = { f with values := (refreshed junk sts f).values } := by
  unfold refreshed
  split <;> rfl

/-- in particular not the number. -/
theorem refreshed_id (f : Field) : (refreshed junk sts f).id = f.id := by
  rw [refreshed_header]

/-- One record more. -/
theorem refreshed_append (f : Field) :
    refreshed junk (sts ++ [st]) f = if st.fieldId = f.id then f.replaced junk st else refreshed junk sts f := by
  unfold refreshed lastRecord
  rw [List.filter_append, List.filter_singleton]
  by_cases hid : st.fieldId = f.id
  · rw [decide_eq_true hid, if_pos hid, cond_true, List.getLast?_concat]
  · rw [decide_eq_false hid, if_neg hid, cond_false, List.append_nil]

/-- The replaced value does not matter when it is replaced once more. -/
theorem replaced_refreshed (f : Field) : (refreshed junk sts f).replaced junk st = f.replaced junk st := by
  rw [refreshed_header]
  rfl

/-- Whether a record only replaces does not depend on what was replaced before, -/
theorem replaces_refreshed : Replaces (fields.map (refreshed junk sts)) st ↔ Replaces fields st := by
  have hfind : FieldMap.find (fields.map (refreshed junk sts)) st.fieldId = (fields.find st.fieldId).map (refreshed junk sts) := by
    unfold FieldMap.find
    rw [List.find?_map]
    congr 2
    funext f
    exact congrArg (fun id => decide (id = st.fieldId)) (refreshed_id f)
  have hunknown : ∀ f : Field, (refreshed junk sts f).unknown = f.unknown := fun f => by rw [refreshed_header]
  have hdescriptor : ∀ f : Field, (refreshed junk sts f).fieldDescriptor = f.fieldDescriptor := fun f => by rw [refreshed_header]
  unfold Replaces
  rw [hfind]
  constructor
  · rintro ⟨g, fd, hg, hu, hfd, hrep⟩
    obtain ⟨f, hf, rfl⟩ := Option.map_eq_some_iff.mp hg
    exact ⟨f, fd, hf, (hunknown f).symm.trans hu, (hdescriptor f).symm.trans hfd, hrep⟩
  · rintro ⟨f, fd, hf, hu, hfd, hrep⟩
    exact ⟨_, fd, by rw [hf]; rfl, (hunknown f).trans hu, (hdescriptor f).trans hfd, hrep⟩

/-- the order is kept, -/
theorem sorted_refreshed (hs : Sorted fields) : Sorted (fields.map (refreshed junk sts)) := by
  unfold Sorted
  rw [List.pairwise_map]
  refine hs.imp fun h => ?_
  rw [refreshed_id, refreshed_id]
  exact h

/-- and replacing once more is the sequence with that record behind. -/
theorem modify_refreshed :
    FieldMap.modify (fields.map (refreshed junk sts)) st.fieldId (Field.replaced junk st) = fields.map (refreshed junk (sts ++ [st])) := by
  unfold FieldMap.modify
  rw [List.map_map]
  refine List.map_congr_left fun f _ => ?_
  rw [Function.comp_apply, refreshed_id, refreshed_append, replaced_refreshed]
  by_cases hid : f.id = st.fieldId
  · rw [if_pos hid, if_pos hid.symm]
  · rw [if_neg hid, if_neg (Ne.symm hid)]

/-- Filling keeps the order, record by record. -/
theorem fillFields_sorted (hs : Sorted fields) (h : sts.foldlM (fillField junk d) fields = some fields') : Sorted fields' := by
  induction sts generalizing fields with
  | nil =>
      cases h
      exact hs
  | cons st sts ih =>
      rw [List.foldlM_cons] at h
      obtain ⟨fields₁, hfill, hrest⟩ := Option.bind_eq_some_iff.mp h
      exact ih (fillField_sorted hs hfill) hrest

/-- **What the records leave behind**: replaced values, or more than there was before. The induction goes from the last
    record back, and the map before it is known from the first case. -/
theorem fillFields_weight (hs : Sorted fields) (h : sts.foldlM (fillField junk d) fields = some fields') :
    (∀ st ∈ sts, Replaces fields st) ∧ fields' = fields.map (refreshed junk sts) ∧ fieldWeight fields' = fieldWeight fields ∨
      (¬ ∀ st ∈ sts, Replaces fields st) ∧ fieldWeight fields < fieldWeight fields' := by
  -- by induction from the end of the sequence: once the weight has grown it stays so
  induction sts using List.reverseRecOn generalizing fields' with
  | nil =>
      cases h
      exact Or.inl ⟨fun st hst => absurd hst List.not_mem_nil, (List.map_id' fields).symm, rfl⟩
  | append_singleton sts st ih =>
      rw [List.foldlM_append] at h
      obtain ⟨fields₁, hrest, hlast⟩ := Option.bind_eq_some_iff.mp h
      rw [List.foldlM_cons] at hlast
      obtain ⟨fields₂, hlast, hnil⟩ := Option.bind_eq_some_iff.mp hlast
      cases hnil
      rcases ih hrest with ⟨hall, rfl, hkeep⟩ | ⟨hnot, hlt⟩
      · rcases fillField_weight (sorted_refreshed hs) hlast with ⟨hrep, rfl, heq⟩ | ⟨hnot, hlt⟩
        · refine Or.inl ⟨?_, modify_refreshed, heq.trans hkeep⟩
          intro st' hst'
          rcases List.mem_append.mp hst' with hst' | hst'
          · exact hall st' hst'
          · rw [List.mem_singleton.mp hst']
            exact replaces_refreshed.mp hrep
        · refine Or.inr ⟨?_, by omega⟩
          intro hrep
          exact hnot (replaces_refreshed.mpr (hrep st (List.mem_append_right _ (List.mem_singleton_self st))))
      · refine Or.inr ⟨?_, lt_of_lt_of_le hlt (fillField_weight_le (fillFields_sorted hs hrest) hlast)⟩
        intro hrep
        exact hnot fun st' hst' => hrep st' (List.mem_append_left _ hst')

/-! ## What an unchanged message shows

The calls of a client on the two worlds, one by one: each answers the same when the fields are kept. -/

/-- Decoding looks at the memory and at how many messages there are. -/
theorem decodeMessages_snd {t : Nat} {values : List Value} (hmem : w'.mem = w.mem)
    (hlen : w'.messages.length = w.messages.length) :
    (decodeMessages env t w' values).map Prod.snd = (decodeMessages env t w values).map Prod.snd := by
  induction values generalizing w w' with
  | nil => rfl
  | cons v values ih =>
      unfold decodeMessages
      rw [hmem, hlen]
      split
      next m _ =>
        have hrest : (decodeMessages env t ⟨w.mem, w'.messages ++ [m]⟩ values).map Prod.snd =
            (decodeMessages env t ⟨w.mem, w.messages ++ [m]⟩ values).map Prod.snd :=
          ih rfl (by rw [List.length_append, List.length_append, hlen])
        rw [Option.map_map, Option.map_map]
        calc Option.map (Prod.snd ∘ fun r : World × List Value => (r.1, { v with m := some w.messages.length } :: r.2))
              (decodeMessages env t ⟨w.mem, w'.messages ++ [m]⟩ values)
            = ((decodeMessages env t ⟨w.mem, w'.messages ++ [m]⟩ values).map Prod.snd).map
                ({ v with m := some w.messages.length } :: ·) := by rw [Option.map_map]; rfl
          _ = ((decodeMessages env t ⟨w.mem, w.messages ++ [m]⟩ values).map Prod.snd).map
                ({ v with m := some w.messages.length } :: ·) := by rw [hrest]
          _ = _ := by rw [Option.map_map]; rfl
      next => rfl

/-- What opening a field gives depends on the memory and on how many messages there are. -/
theorem opened_eq (f : Field) (hmem : w'.mem = w.mem) (hlen : w'.messages.length = w.messages.length) :
    w'.opened env f = w.opened env f := by
  unfold World.opened
  split
  · rfl
  · cases hfd : f.fieldDescriptor with
    | none =>
        unfold decodeField
        rw [hfd]
    | some fd =>
        by_cases htype : fd.type = .message
        · have hsnd : (decodeMessages env fd.messageType w' f.values).map Prod.snd =
              (decodeMessages env fd.messageType w f.values).map Prod.snd := decodeMessages_snd hmem hlen
          have hcomp : ∀ u : World, (decodeField env u f).map Prod.snd =
              ((decodeMessages env fd.messageType u f.values).map Prod.snd).map
                fun values => { f with decoded := true, values := values } := by
            intro u
            rw [decodeField_message hfd htype, Option.map_map, Option.map_map]
            rfl
          rw [hcomp, hcomp, hsnd]
        · rw [decodeField_inPlace hfd htype, decodeField_inPlace hfd htype, hmem, Option.map_map, Option.map_map]
          rfl

/-- Two worlds that differ in the message `p` only, whose fields are the same. -/
structure KeptFields (env : Env) (p : MessagePtr) (w w' : World) (m m' : Message) : Prop where
  found : w.messages[p]? = some m
  world : w' = { w with messages := w.messages.set p m' }
  descriptor : m'.descriptor = m.descriptor
  unknownFields : m'.unknownFields = m.unknownFields
  fields : List.Forall₂ (KeptField env w) m.fields m'.fields

section Shown

variable {β : Type} {kind : FieldType → Bool} {default : FieldDescriptor → Option β} {read : Field → Nat → Option β} {idx : Nat}

/-- The message is one of the world, -/
theorem KeptFields.lt (h : KeptFields env p w w' m m') : p < w.messages.length := (List.getElem?_eq_some_iff.mp h.found).1

/-- with its new fields in the second one, -/
theorem KeptFields.found' (h : KeptFields env p w w' m m') : w'.messages[p]? = some m' := by
  rw [h.world]
  exact List.getElem?_set_self h.lt

/-- which has as many messages -/
theorem KeptFields.length_eq (h : KeptFields env p w w' m m') : w'.messages.length = w.messages.length := by
  rw [h.world]
  exact List.length_set

/-- and the same memory. -/
theorem KeptFields.mem_eq (h : KeptFields env p w w' m m') : w'.mem = w.mem := by rw [h.world]

/-- A lookup by name gives kept fields, -/
theorem KeptFields.lookup (h : KeptFields env p w w' m m') (kind : FieldType → Bool) (name : String) :
    Option.Rel (fun r r' => r'.1 = r.1 ∧ Option.Rel (KeptField env w) r.2 r'.2) (w.lookup env p kind name)
      (w'.lookup env p kind name) := by
  unfold World.lookup
  rw [h.found, h.found']
  simp only [Option.bind_eq_bind, Option.bind_some, h.descriptor]
  cases (env.pool m.descriptor).check kind name with
  | none => exact Option.Rel.none
  | some fd => exact Option.Rel.some ⟨rfl, find_pointwise (fun _ _ hf => hf.id_eq) h.fields fd.number⟩

/-- decoding them leaves as many values, which read the same, -/
theorem KeptFields.tryDecodeField (h : KeptFields env p w w' m m') (hf : KeptField env w f f') :
    Option.Rel (fun r r' => r'.2.values.length = r.2.values.length ∧ ∀ idx, r'.2.reading env idx = r.2.reading env idx)
      (w.tryDecodeField env p f) (w'.tryDecodeField env p f') := by
  have hopened : ∀ (u : World) (g : Field), (u.tryDecodeField env p g).map Prod.snd = u.opened env g := by
    intro u g
    unfold World.tryDecodeField World.opened
    split
    · rfl
    · rw [Option.map_map]
      rfl
  have hsize := hf.size
  have hreading := hf.reading
  rw [← opened_eq f' h.mem_eq h.length_eq, ← hopened w f, ← hopened w' f'] at hsize
  rw [← opened_eq f' h.mem_eq h.length_eq, ← hopened w f, ← hopened w' f'] at hreading
  cases hr : w.tryDecodeField env p f with
  | none =>
      cases hr' : w'.tryDecodeField env p f' with
      | none => exact Option.Rel.none
      | some r' =>
          rw [hr, hr'] at hsize
          cases hsize
  | some r =>
      cases hr' : w'.tryDecodeField env p f' with
      | none =>
          rw [hr, hr'] at hsize
          cases hsize
      | some r' =>
          rw [hr, hr'] at hsize hreading
          exact Option.Rel.some ⟨Option.some.inj hsize, fun idx => Option.some.inj (hreading idx)⟩

/-- and so does the access of an element. -/
theorem KeptFields.access (h : KeptFields env p w w' m m') (hf : KeptField env w f f') (fd : FieldDescriptor) (idx : Nat) :
    Option.Rel (fun r r' => r'.2.2 = r.2.2 ∧ ∀ idx, r'.2.1.reading env idx = r.2.1.reading env idx)
      (w.access env p fd f idx) (w'.access env p fd f' idx) := by
  have hvalid : checkValidIndex f' fd idx = checkValidIndex f fd idx := by
    unfold checkValidIndex
    rw [hf.count]
  unfold World.access
  rw [hvalid]
  refine rel_bind (rel_guard Iff.rfl) fun _ _ _ => ?_
  refine rel_bind (h.tryDecodeField hf) ?_
  rintro ⟨w₁, f₁⟩ ⟨w₂, f₂⟩ ⟨-, hreading⟩
  exact Option.Rel.some ⟨rfl, hreading⟩

/-- A `Get` returns the same when it reads what the other one reads. -/
theorem KeptFields.get (h : KeptFields env p w w' m m') (name : String) (idx : Nat)
    (hread : ∀ f f' : Field, ∀ i, f'.reading env i = f.reading env i → read f' i = read f i) :
    (w'.get env p kind default read name idx).map Prod.snd = (w.get env p kind default read name idx).map Prod.snd := by
  apply map_eq_of_rel
  unfold World.get
  refine rel_bind (h.lookup kind name) ?_
  rintro ⟨fd, found⟩ ⟨fd', found'⟩ ⟨hfd, hfound⟩
  cases hfd
  cases hfound with
  | none =>
      refine rel_bind (R := fun b b' => b' = b) ?_ fun b b' hb => Option.Rel.some hb
      cases default fd with
      | none => exact Option.Rel.none
      | some b => exact Option.Rel.some rfl
  | @some f f' hf =>
      refine rel_bind (h.access hf fd idx) ?_
      rintro ⟨w₁, f₁, i⟩ ⟨w₂, f₂, j⟩ ⟨hij, hreading⟩
      cases hij
      dsimp only
      rw [hread f₁ f₂ i (hreading i)]
      cases read f₁ i with
      | none => exact Option.Rel.none
      | some b => exact Option.Rel.some rfl

/-- So the sizes are the same, -/
theorem KeptFields.getFieldSize (h : KeptFields env p w w' m m') (name : String) :
    (w'.getFieldSize env p name).map Prod.snd = (w.getFieldSize env p name).map Prod.snd := by
  apply map_eq_of_rel
  unfold World.getFieldSize
  refine rel_bind (h.lookup _ name) ?_
  rintro ⟨fd, found⟩ ⟨fd', found'⟩ ⟨hfd, hfound⟩
  cases hfd
  cases hfound with
  | none => exact Option.Rel.some rfl
  | @some f f' hf =>
      refine rel_bind (h.tryDecodeField hf) ?_
      rintro ⟨w₁, f₁⟩ ⟨w₂, f₂⟩ ⟨hlen, -⟩
      exact Option.Rel.some hlen

/-- and which fields there are. -/
theorem KeptFields.hasField (h : KeptFields env p w w' m m') (name : String) : w'.hasField env p name = w.hasField env p name := by
  have hlookup := h.lookup (fun _ => true) name
  unfold World.hasField
  revert hlookup
  cases w.lookup env p (fun _ => true) name <;> cases w'.lookup env p (fun _ => true) name <;> intro hlookup <;> cases hlookup
  · rfl
  next r r' hr =>
    obtain ⟨-, hfound⟩ := hr
    obtain ⟨fd, found⟩ := r
    obtain ⟨fd', found'⟩ := r'
    cases hfound <;> rfl

/-- By induction on the depth, since a message may be embedded in itself. -/
theorem KeptFields.encodeMessage (h : KeptFields env p w w' m m') (depth : Nat) (q : MessagePtr) :
    encodeMessage env.pool w' depth q = encodeMessage env.pool w depth q := by
  induction depth generalizing q with
  | zero => rfl
  | succ depth ih =>
      have hembedded : CompactProtobuf.encodeMessage env.pool w' depth = CompactProtobuf.encodeMessage env.pool w depth :=
        funext ih
      unfold CompactProtobuf.encodeMessage
      rw [hembedded, h.mem_eq]
      -- the message itself is written field by field, the others are as they were
      by_cases hq : q = p
      · subst hq
        have hcheck : checkAllRequiredField m'.fields = checkAllRequiredField m.fields := by
          funext d
          unfold checkAllRequiredField
          congr 1
          funext fd
          have hfound := find_pointwise (fun _ _ hf => hf.id_eq) h.fields (fd.number : Int)
          revert hfound
          cases m.fields.find fd.number <;> cases FieldMap.find m'.fields fd.number <;> intro hfound <;> cases hfound <;> rfl
        have hknown : ∀ embedded : MessagePtr → Encoded,
            encodeAll (encodeField w.mem embedded) m'.fields = encodeAll (encodeField w.mem embedded) m.fields := by
          intro embedded
          have hfields := h.fields
          revert hfields
          generalize m'.fields = fields'
          generalize m.fields = fields
          intro hfields
          induction hfields with
          | nil => rfl
          | cons hf _ ih =>
              unfold encodeAll
              rw [hf.bytes, ih]
        rw [h.found, h.found']
        dsimp only
        unfold encodeFields
        rw [h.descriptor, hcheck, hknown, h.unknownFields]
      · rw [h.world]
        dsimp only
        rw [List.getElem?_set_ne (Ne.symm hq)]

/-- All together. -/
theorem KeptFields.shown (h : KeptFields env p w w' m m') : SameShown env p w w' := by
  refine ⟨h.hasField, h.getFieldSize, fun name idx => h.get name idx ?_, fun name idx => h.get name idx ?_,
    fun name idx => h.get name idx ?_, fun name idx => h.get name idx ?_, ?_⟩
  · intro f f' i hreading
    exact congrArg (Option.map decodeUInt64) (congrArg Prod.fst hreading)
  · intro f f' i hreading
    exact congrArg (fun r => r.2.1) hreading
  · intro f f' i hreading
    exact congrArg (fun r => r.2.2.1) hreading
  · intro f f' i hreading
    exact congrArg (fun r => r.2.2.2) hreading
  · unfold World.toString
    rw [h.length_eq]
    exact h.encodeMessage _ p

end Shown

/-! ## The result

The state before the call and the records that are read decide. -/

/-- What a failed `FromString` leaves: the message with its fields filled. -/
theorem fromString_failed {data len : Nat} (hm : w.messages[p]? = some m)
    (hfail : w.fromString env.pool env.junk p data len = some (w', false)) :
    ∃ fields', w' = { w with messages := w.messages.set p { m with fields := fields' } } ∧
      (recordsRead w.mem (2 ^ 64) (startState env.junk (stringSlice data len))).foldlM
        (fillField env.junk (env.pool m.descriptor)) m.fields = some fields' := by
  unfold World.fromString at hfail
  rw [hm] at hfail
  obtain ⟨⟨ok, m'⟩, hinit, heq⟩ := Option.map_eq_some_iff.mp hfail
  obtain ⟨rfl, rfl⟩ := Prod.mk.inj heq
  unfold Message.init at hinit
  split at hinit
  next => cases hinit
  next fields' hparse =>
    cases hinit
    refine ⟨fields', rfl, ?_⟩
    unfold parseMessageLazy at hparse
    split at hparse
    next =>
      split at hparse
      next =>
        split at hparse <;> cases hparse
      next status fields₁ _ hloop =>
        cases hparse
        exact parseLoop_fills hloop
      next => cases hparse
    next => cases hparse
  next => cases hinit

/-- What the records that replace a value leave in a field, put as what the field held before. -/
theorem keptField_refreshed_iff (hs : Sorted fields) (hf : f ∈ fields) (hall : ∀ st ∈ sts, Replaces fields st) :
    KeptField env w f (refreshed env.junk sts f) ↔ ∀ st, lastRecord sts f = some st →
      ∃ fd v, f.fieldDescriptor = some fd ∧ f.values = [v] ∧ HoldsAlready env w fd f v (f.unset env.junk st) := by
  unfold refreshed
  cases hlast : lastRecord sts f with
  | none => exact iff_of_true KeptField.refl (by rintro st ⟨⟩)
  | some st =>
      -- it is this field that the record is for, and it is not repeated
      obtain ⟨hmem, hid⟩ := List.mem_filter.mp (List.mem_of_mem_getLast? hlast)
      obtain ⟨g, fd, hg, -, hfd, hlabel⟩ := hall st hmem
      rw [of_decide_eq_true hid, hs.find_eq hf] at hg
      cases hg
      have hpacked : fd.packed = false := by
        rw [← Bool.not_eq_true]
        exact fun h => hlabel (fd.packed_repeated h).1
      show KeptField env w f (f.replaced env.junk st) ↔ _
      rw [replaced_eq, keptField_iff hfd hpacked]
      constructor
      · rintro ⟨v, hv, h⟩ st' ⟨⟩
        exact ⟨fd, v, hfd, hv, h⟩
      · intro h
        obtain ⟨fd', v, hfd', hv, hheld⟩ := h st rfl
        rw [hfd] at hfd'
        cases hfd'
        exact ⟨v, hv, hheld⟩

/-- A message with an `optional uint64 a = 1`. -/
def failedEnv : Env :=
  ⟨fun _ => ⟨[⟨"a", 1, .uint64, .optional, false, 0, 0, 0, [], by decide, by decide, by decide⟩], by decide, by decide⟩, zeroJunk,
    fun _ => 0, fun _ => 0⟩

/-- The number 5 in `a`, and a tag with the wire type 7. -/
def failedWorld : World := ⟨memAt [0x08, 5, 0x0f], [newMessage 0]⟩

end CompactProtobuf
end Snippets
