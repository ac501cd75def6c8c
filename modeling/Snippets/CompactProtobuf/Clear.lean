import Mathlib.Data.Set.Basic
import Snippets.CompactProtobuf.Linked

/-!
# `CompactProtobuf.Clear` — `Message::Clear`

`Clear` is for getting rid of everything but the unknown fields, of a message and of the messages embedded in it. It goes
through the values of the message fields without a look at `decoded`: the value of a field that was not decoded has no
message yet, and `message->Clear()` goes through its null pointer. When every message field is decoded, at every depth, what
is left is what should be (`clear_iff_allOpened`).
-/

namespace Snippets

open Lib

namespace CompactProtobuf

/-! ## The code -/

/-- `has_field()`. -/
def Message.hasField (m : Message) : Bool := !m.fields.isEmpty

/-- `has_unknown_field()`. -/
def Message.hasUnknownField (m : Message) : Bool := m.unknownFields.any fun fields => !fields.isEmpty

/-- The loop over the values of a field: the messages that are kept. A null pointer has no result. -/
def clearValues (clear : World → MessagePtr → Option World) : World → List Value → Option (World × List MessagePtr)
  | w, [] => some (w, [])
  | w, v :: values => do
      let message ← v.m
      let w ← clear w message
      let m ← w.messages[message]?
      let (w, messages) ← clearValues clear w values
      return (w, if m.hasField || m.hasUnknownField then message :: messages else messages)

/-- The loop over `fields_`: the fields after it, and `left_keys`. -/
def clearFields (junk : Junk) (clear : World → MessagePtr → Option World) :
    World → FieldMap → Option (World × FieldMap × List Int)
  | w, [] => some (w, [], [])
  | w, field :: fields =>
      match field.fieldDescriptor with
      | none => none
      | some fd =>
          if fd.type = .message then do
            let (w, messages) ← clearValues clear w field.values
            let (w, fields, leftKeys) ← clearFields junk clear w fields
            if messages.isEmpty then return (w, field :: fields, leftKeys)
            else
              let values := messages.map fun message => { newValue (junk (.message message .made)) with m := some message }
              return (w, { field with values := values } :: fields, field.id :: leftKeys)
          else do
            let (w, fields, leftKeys) ← clearFields junk clear w fields
            return (w, field :: fields, leftKeys)

/-- The loop over `left_keys`, with the assert that each field is transferred. -/
def transferLeft : List Int → FieldMap → FieldMap → Option FieldMap
  | [], leftFields, _ => some leftFields
  | key :: leftKeys, leftFields, fields =>
      if (fields.find key).isSome && (leftFields.find key).isNone then
        let (leftFields, fields) := FieldMap.transfer key leftFields fields
        transferLeft leftKeys leftFields fields
      else none

/-- `Message::Clear`, down to a depth. -/
def clearMessage (junk : Junk) : Nat → World → MessagePtr → Option World
  | 0, _, _ => none
  | depth + 1, w, p => do
      let m ← w.messages[p]?
      let (w, fields, leftKeys) ← clearFields junk (clearMessage junk depth) w m.fields
      let leftFields ← transferLeft leftKeys [] fields
      return { w with messages := w.messages.set p { m with fields := leftFields } }

/-- `Message::Clear`. A message is embedded in earlier ones only, so that their number bounds the depth. -/
def World.clear (junk : Junk) (w : World) (p : MessagePtr) : Option World := clearMessage junk (w.messages.length + 1) w p

/-! ## What is to be left -/

/-- A field of embedded messages. -/
def Field.isMessage (f : Field) : Bool := f.fieldDescriptor.any fun fd => fd.type = .message

/-- The messages that a field holds. -/
def Field.messages (f : Field) : List MessagePtr := f.values.filterMap Value.m

/-- The message at `q` holds the one at `r`, in a field. -/
def Embeds (w : World) (q r : MessagePtr) : Prop :=
  ∃ m f, w.messages[q]? = some m ∧ f ∈ m.fields ∧ f.isMessage = true ∧ r ∈ f.messages

/-- `r` is `q`, or is embedded in it at some depth. -/
abbrev Within (w : World) : MessagePtr → MessagePtr → Prop := Relation.ReflTransGen (Embeds w)

/-- The message at `q` has an unknown field, or a message embedded in it has, at some depth. -/
def HoldsUnknown (w : World) (q : MessagePtr) : Prop :=
  ∃ r m, Within w q r ∧ w.messages[r]? = some m ∧ m.hasUnknownField = true

/-- Every message field is decoded, of the message at `q` and of those embedded in it. -/
def AllOpened (w : World) (q : MessagePtr) : Prop :=
  ∀ r m f, Within w q r → w.messages[r]? = some m → f ∈ m.fields → f.isMessage = true → f.decoded = true

/-- Every value has a message, with all decoded within it. -/
def ValuesOpened (w : World) (values : List Value) : Prop := ∀ v ∈ values, ∃ r, v.m = some r ∧ AllOpened w r

section Left

open Classical

variable (junk : Junk) (w : World)

/-- The field with those of its messages that hold unknown fields, in order, in new values. -/
noncomputable def Field.stripped (f : Field) : Field :=
  { f with values := (f.messages.filter fun q => HoldsUnknown w q).map fun q => { newValue (junk (.message q .made)) with m := some q } }

/-- The message with its unknown fields, and the message fields that hold some. -/
noncomputable def Message.stripped (m : Message) : Message :=
  { m with fields := ((m.fields.filter Field.isMessage).map (Field.stripped junk w)).filter fun f => f.values ≠ [] }

/-- **What `Clear` is for**: the message at `p` and every message embedded in it are stripped, and no other is changed. -/
def Cleared (p : MessagePtr) (w' : World) : Prop :=
  w'.mem = w.mem ∧ ∀ q : MessagePtr,
    w'.messages[q]? = (w.messages[q]?).map fun m => if Within w p q then m.stripped junk w else m

end Left

variable {env : Env} {junk : Junk} {w u u' u₁ : World} {p q r n₀ n : MessagePtr} {m : Message} {fd : FieldDescriptor}
  {f f' : Field} {v : Value} {values : List Value} {fields : FieldMap} {S T T' : Set MessagePtr}

/-! ## Stripped messages

What is left of a message: its unknown fields, and of its message fields those values whose messages hold unknown
fields somewhere. `HoldsUnknown` is about the world before `Clear`. -/

@[simp] theorem Field.stripped_isMessage (f : Field) : (f.stripped junk w).isMessage = f.isMessage := rfl

open Classical in
@[simp] theorem Field.stripped_messages (f : Field) : (f.stripped junk w).messages = f.messages.filter fun q => HoldsUnknown w q := by
  unfold Field.stripped Field.messages
  dsimp only
  rw [List.filterMap_map]
  exact List.filterMap_some

/-- No value is left when none of the messages holds unknown fields. -/
theorem Field.stripped_eq_nil (f : Field) : (f.stripped junk w).values = [] ↔ ∀ q ∈ f.messages, ¬ HoldsUnknown w q := by
  unfold Field.stripped
  dsimp only
  rw [List.map_eq_nil_iff, List.filter_eq_nil_iff]
  simp only [decide_eq_true_eq]

/-- The fields that are left. -/
theorem mem_stripped : f' ∈ (m.stripped junk w).fields ↔
    ∃ f ∈ m.fields, f.isMessage = true ∧ (∃ q ∈ f.messages, HoldsUnknown w q) ∧ f' = f.stripped junk w := by
  unfold Message.stripped
  simp only [List.mem_filter, List.mem_map, decide_eq_true_eq]
  constructor
  · rintro ⟨⟨f, ⟨hf, hmessage⟩, rfl⟩, hne⟩
    rw [ne_eq, Field.stripped_eq_nil, not_forall] at hne
    obtain ⟨q, hq⟩ := hne
    rw [not_forall, exists_prop, not_not] at hq
    exact ⟨f, hf, hmessage, ⟨q, hq⟩, rfl⟩
  · rintro ⟨f, hf, hmessage, ⟨q, hq, hholds⟩, rfl⟩
    refine ⟨⟨f, ⟨hf, hmessage⟩, rfl⟩, ?_⟩
    rw [ne_eq, Field.stripped_eq_nil]
    exact fun hnone => hnone q hq hholds

/-- `has_field()` or `has_unknown_field()` after `Clear`: the message held an unknown field. -/
theorem stripped_kept (hm : w.messages[q]? = some m) :
    ((m.stripped junk w).hasField || (m.stripped junk w).hasUnknownField) = true ↔ HoldsUnknown w q := by
  have hfield : (m.stripped junk w).hasField = true ↔ ∃ f, f ∈ (m.stripped junk w).fields := by
    unfold Message.hasField
    rw [Bool.not_eq_true', List.isEmpty_eq_false_iff_exists_mem]
  rw [Bool.or_eq_true, hfield]
  constructor
  · rintro (⟨f', hf'⟩ | hunknown)
    · obtain ⟨f, hf, hmessage, ⟨r, hr, s, m', hwithin, hm', hunknown⟩, -⟩ := mem_stripped.mp hf'
      exact ⟨s, m', .head ⟨m, f, hm, hf, hmessage, hr⟩ hwithin, hm', hunknown⟩
    · exact ⟨q, m, .refl, hm, hunknown⟩
  · rintro ⟨s, m', hwithin, hm', hunknown⟩
    -- the unknown field is one of the message itself, or of one it embeds
    rcases Relation.ReflTransGen.cases_head hwithin with rfl | ⟨r, ⟨m₀, f, hm₀, hf, hmessage, hr⟩, hrest⟩
    · rw [hm] at hm'
      cases hm'
      exact Or.inr hunknown
    · rw [hm] at hm₀
      cases hm₀
      exact Or.inl ⟨_, mem_stripped.mpr ⟨f, hf, hmessage, ⟨r, hr, s, m', hrest, hm', hunknown⟩, rfl⟩⟩

open Classical in
/-- A field that is stripped already. -/
theorem Field.stripped_stripped (f : Field) : (f.stripped junk w).stripped junk w = f.stripped junk w := by
  have hmessages : ((f.stripped junk w).messages.filter fun q => HoldsUnknown w q) = (f.stripped junk w).messages := by
    rw [Field.stripped_messages, List.filter_filter]
    simp only [Bool.and_self]
  have hvalues : ((f.stripped junk w).stripped junk w).values = (f.stripped junk w).values := by
    show List.map _ ((f.stripped junk w).messages.filter _) = _
    rw [hmessages, Field.stripped_messages]
    rfl
  unfold Field.stripped at hvalues ⊢
  dsimp only at hvalues ⊢
  rw [hvalues]

/-- Stripping once more leaves everything as it is. -/
theorem Message.stripped_stripped (m : Message) : (m.stripped junk w).stripped junk w = m.stripped junk w := by
  have hmessage : (m.stripped junk w).fields.filter Field.isMessage = (m.stripped junk w).fields := by
    refine List.filter_eq_self.mpr fun f' hf' => ?_
    obtain ⟨f, -, hmessage, -, rfl⟩ := mem_stripped.mp hf'
    exact hmessage
  have hmap : (m.stripped junk w).fields.map (Field.stripped junk w) = (m.stripped junk w).fields := by
    refine (List.map_congr_left fun f' hf' => ?_).trans (List.map_id _)
    obtain ⟨f, -, -, -, rfl⟩ := mem_stripped.mp hf'
    exact f.stripped_stripped
  have hfields : ((m.stripped junk w).stripped junk w).fields = (m.stripped junk w).fields := by
    show List.filter _ (List.map _ ((m.stripped junk w).fields.filter Field.isMessage)) = _
    rw [hmessage, hmap]
    unfold Message.stripped
    dsimp only
    rw [List.filter_filter]
    simp only [Bool.and_self]
  unfold Message.stripped at hfields ⊢
  dsimp only at hfields ⊢
  rw [hfields]

/-! ## Linked messages

An embedded message comes after the one it is embedded in, so that the recursion of `Clear` ends. -/

/-- The test of the loop is on the type in the descriptor. -/
theorem isMessage_iff (hfd : f.fieldDescriptor = some fd) : f.isMessage = true ↔ fd.type = .message := by
  unfold Field.isMessage
  rw [hfd]
  exact decide_eq_true_iff

/-- An embedded message comes later, and there is one for each pointer. -/
theorem Linked.embeds (h : Linked env p n₀ w) (hq : q = p ∨ n₀ ≤ q) (hembeds : Embeds w q r) :
    q < r ∧ n₀ ≤ r ∧ r < w.messages.length := by
  obtain ⟨m, f, hm, hf, hmessage, hr⟩ := hembeds
  obtain ⟨fd, -, hlinked⟩ := (h.messages q m hq hm).fields f hf
  obtain ⟨v, hv, hvm⟩ := List.mem_filterMap.mp hr
  cases hdec : f.decoded with
  | false =>
      -- it would point to no message
      rw [(hlinked.closed hdec).1 v hv] at hvm
      cases hvm
  | true =>
      obtain ⟨s, hs, hlt⟩ := hlinked.links ((isMessage_iff hlinked.fieldDescriptor).mp hmessage) hdec v hv
      rw [hs] at hvm
      cases hvm
      exact hlt

/-- What is within a linked message comes after it, and is linked. -/
theorem Linked.within (h : Linked env p n₀ w) (hq : q = p ∨ n₀ ≤ q) (hlt : q < w.messages.length) (hwithin : Within w q r) :
    q ≤ r ∧ (r = p ∨ n₀ ≤ r) ∧ r < w.messages.length := by
  induction hwithin with
  | refl => exact ⟨Nat.le_refl q, hq, hlt⟩
  | tail _ hembeds ih =>
      obtain ⟨hle, hr, -⟩ := ih
      obtain ⟨hlt', hn, hlast⟩ := h.embeds hr hembeds
      exact ⟨Nat.le_trans hle (Nat.le_of_lt hlt'), Or.inr hn, hlast⟩

/-- The message fields of a linked message are decoded, as are those of what it embeds, when every value has a message with
    that property. -/
theorem LinkedMessage.allOpened_iff (h : LinkedMessage env w n₀ q m) (hm : w.messages[q]? = some m) :
    AllOpened w q ↔ ∀ f ∈ m.fields, f.isMessage = true → ValuesOpened w f.values := by
  constructor
  · intro hopened f hf hmessage v hv
    obtain ⟨fd, -, hlinked⟩ := h.fields f hf
    have hdec := hopened q m f .refl hm hf hmessage
    obtain ⟨r, hr, -⟩ := hlinked.links ((isMessage_iff hlinked.fieldDescriptor).mp hmessage) hdec v hv
    refine ⟨r, hr, ?_⟩
    intro s m' f' hwithin hm' hf' hmessage'
    have hembeds : Embeds w q r := ⟨m, f, hm, hf, hmessage, List.mem_filterMap.mpr ⟨v, hv, hr⟩⟩
    exact hopened s m' f' (.head hembeds hwithin) hm' hf' hmessage'
  · intro hvalues s m' f' hwithin hm' hf' hmessage'
    rcases Relation.ReflTransGen.cases_head hwithin with rfl | ⟨r, ⟨m₀, f, hm₀, hf, hmessage, hr⟩, hrest⟩
    · rw [hm] at hm'
      cases hm'
      obtain ⟨fd, -, hlinked⟩ := h.fields f' hf'
      cases hdec : f'.decoded with
      | true => rfl
      | false =>
          -- there is a value, and it has no message
          obtain ⟨hplain, hne⟩ := hlinked.closed hdec
          obtain ⟨v, hv⟩ := List.exists_mem_of_ne_nil _ hne
          obtain ⟨r, hr, -⟩ := hvalues f' hf' hmessage' v hv
          rw [hplain v hv] at hr
          cases hr
    · rw [hm] at hm₀
      cases hm₀
      obtain ⟨v, hv, hvm⟩ := List.mem_filterMap.mp hr
      obtain ⟨r', hr', hopened⟩ := hvalues f hf hmessage v hv
      rw [hvm] at hr'
      cases hr'
      exact hopened s m' f' hrest hm' hf' hmessage'

/-! ## The fields after the loop

The loop goes over the fields in place and notes the ids of those with a value left; these are then moved to a
new map, one by one. -/

section Kept

open Classical

variable (junk : Junk) (w : World)

/-- A field that has a value left. -/
noncomputable def Field.kept (f : Field) : Bool := f.isMessage && (f.stripped junk w).values ≠ []

/-- A field as the loop leaves it. -/
noncomputable def Field.looped (f : Field) : Field := if f.kept junk w then f.stripped junk w else f

end Kept

open Classical in
/-- The test for an empty list of messages is that for a field with nothing left. -/
theorem Field.kept_eq (f : Field) (hmessage : f.isMessage = true) :
    f.kept junk w = !(f.messages.filter fun q => HoldsUnknown w q).isEmpty := by
  unfold Field.kept Field.stripped
  dsimp only
  rw [hmessage, Bool.true_and]
  cases f.messages.filter fun q => HoldsUnknown w q <;> simp

/-- The loop leaves the ids. -/
theorem Field.looped_id (f : Field) : (f.looped junk w).id = f.id := by
  unfold Field.looped
  split <;> rfl

/-- The fields of the stripped message are those that are kept. -/
theorem stripped_fields (m : Message) :
    (m.stripped junk w).fields = (m.fields.filter (Field.kept junk w)).map (Field.stripped junk w) := by
  unfold Message.stripped
  dsimp only
  rw [List.filter_map, List.filter_filter]
  congr 1
  refine List.filter_congr fun f _ => ?_
  unfold Field.kept
  exact Bool.and_comm _ _

/-- One id after the other is moved, in order, and so nothing is found twice. -/
theorem transferLeft_eq (hs : Sorted fields) (us done : List Field) (hus : Sorted (done ++ us)) (hmem : ∀ f ∈ us, f ∈ fields) :
    transferLeft (us.map Field.id) done (fields.filter fun f => f.id ∉ done.map Field.id) = some (done ++ us) := by
  induction us generalizing done with
  | nil => rw [List.append_nil]; rfl
  | cons f us ih =>
      have hlt : ∀ g ∈ done, g.id < f.id := fun g hg => (List.pairwise_append.mp hus).2.2 g hg f List.mem_cons_self
      obtain ⟨hfound, hnew, hstep⟩ := transfer_next hs hlt (hmem f List.mem_cons_self)
      rw [List.map_cons]
      unfold transferLeft
      rw [hfound, hnew, hstep]
      show transferLeft (us.map Field.id) (done ++ [f]) _ = _
      rw [ih (done ++ [f]) (by rw [List.append_assoc]; exact hus) fun g hg => hmem g (List.mem_cons_of_mem _ hg),
        List.append_assoc]
      rfl

/-- The fields that are transferred are those of the stripped message. -/
theorem transferLeft_looped (hs : Sorted m.fields) :
    transferLeft ((m.fields.filter (Field.kept junk w)).map Field.id) [] (m.fields.map (Field.looped junk w)) =
      some (m.stripped junk w).fields := by
  have hids : ∀ fs : List Field, (fs.map (Field.looped junk w)).map Field.id = fs.map Field.id := by
    intro fs
    rw [List.map_map]
    exact List.map_congr_left fun f _ => f.looped_id
  have hlooped : Sorted (m.fields.map (Field.looped junk w)) := by
    unfold Sorted at hs ⊢
    rw [← List.pairwise_map (f := Field.id), hids, List.pairwise_map]
    exact hs
  have hkept : Sorted (m.stripped junk w).fields := by
    rw [stripped_fields]
    exact List.pairwise_map.mpr (List.Pairwise.filter _ hs)
  have hkeys : (m.fields.filter (Field.kept junk w)).map Field.id = (m.stripped junk w).fields.map Field.id := by
    rw [stripped_fields, List.map_map]
    rfl
  have hall : m.fields.map (Field.looped junk w) =
      (m.fields.map (Field.looped junk w)).filter fun f => f.id ∉ ([] : List Field).map Field.id :=
    (List.filter_eq_self.mpr fun f _ => by simp).symm
  rw [hkeys, hall, transferLeft_eq hlooped (m.stripped junk w).fields [] hkept, List.nil_append]
  intro f' hf'
  rw [stripped_fields] at hf'
  obtain ⟨f, hf, rfl⟩ := List.mem_map.mp hf'
  obtain ⟨hf, hkeeps⟩ := List.mem_filter.mp hf
  refine List.mem_map.mpr ⟨f, hf, ?_⟩
  unfold Field.looped
  rw [if_pos hkeeps]

/-! ## Worlds that `Clear` goes through

A part of the run has stripped a set of messages, with all that is within them, and has left those before a
pointer alone. Parts of a run compose. -/

open Classical in
/-- From `n` on, the messages are those of `w`, and those in `S` are stripped. -/
def StrippedFrom (junk : Junk) (w : World) (S : Set MessagePtr) (n : MessagePtr) (u : World) : Prop :=
  ∀ q, n ≤ q → u.messages[q]? = (w.messages[q]?).map fun m => if q ∈ S then m.stripped junk w else m

/-- A set of messages that `Clear` is done with: all that is within them is in it, and decoded. -/
structure Settled (w : World) (S : Set MessagePtr) : Prop where
  within : ∀ q ∈ S, ∀ r, Within w q r → r ∈ S
  opened : ∀ q ∈ S, AllOpened w q

/-- A part of the run strips the messages in `T`, none of them before `n`. -/
structure Strips (junk : Junk) (w : World) (S T : Set MessagePtr) (n : MessagePtr) (u u' : World) : Prop where
  mem : u'.mem = u.mem
  below : ∀ q < n, u'.messages[q]? = u.messages[q]?
  after : StrippedFrom junk w (S ∪ T) n u'
  settled : Settled w (S ∪ T)

/-- The part that does nothing. -/
theorem Strips.refl (hS : Settled w S) (hu : StrippedFrom junk w S n u) (hT : ∀ q, q ∉ T) : Strips junk w S T n u u := by
  have hunion : S ∪ T = S := Set.union_eq_left.mpr fun q hq => absurd hq (hT q)
  exact ⟨rfl, fun _ _ => rfl, by rw [hunion]; exact hu, by rw [hunion]; exact hS⟩

/-- Two parts, one after the other. -/
theorem Strips.trans (h : Strips junk w S T n u u₁) (h' : Strips junk w (S ∪ T) T' n u₁ u') :
    Strips junk w S (T ∪ T') n u u' := by
  refine ⟨h'.mem.trans h.mem, fun q hq => (h'.below q hq).trans (h.below q hq), ?_, ?_⟩
  · rw [← Set.union_assoc]
    exact h'.after
  · rw [← Set.union_assoc]
    exact h'.settled

/-- Only the messages in the set matter. -/
theorem Strips.congr (h : Strips junk w S T n u u') (hT : ∀ q, q ∈ T ↔ q ∈ T') : Strips junk w S T' n u u' := by
  rw [← Set.ext hT]
  exact h

/-- What happens from `r` on leaves the messages from `n` to `r` as they are. -/
theorem Strips.lift (h : Strips junk w S T r u u') (hn : n ≤ r) (hT : ∀ q ∈ T, r ≤ q) (hu : StrippedFrom junk w S n u) :
    Strips junk w S T n u u' := by
  refine ⟨h.mem, fun q hq => h.below q (Nat.lt_of_lt_of_le hq hn), ?_, h.settled⟩
  intro q hq
  -- before `r` nothing happens, and no message there is in the set
  by_cases hlt : q < r
  · have hmem : (q ∈ S) = (q ∈ S ∪ T) := by
      refine propext ⟨Or.inl, fun h => h.resolve_right fun hqT => ?_⟩
      exact absurd (hT q hqT) (Nat.not_le_of_lt hlt)
    rw [h.below q hlt, hu q hq, hmem]
  · exact h.after q (Nat.le_of_not_lt hlt)

/-- `clear` strips the message at `q` and all within it, when they are decoded, and has no result when they are not. -/
def ClearsWell (junk : Junk) (w : World) (clear : World → MessagePtr → Option World) (q : MessagePtr) : Prop :=
  ∀ S u, Settled w S → StrippedFrom junk w S q u →
    (AllOpened w q → ∃ u', clear u q = some u' ∧ Strips junk w S {r | Within w q r} q u u') ∧
      (¬ AllOpened w q → clear u q = none)

/-- A message that the one in hand embeds. -/
structure Nested (junk : Junk) (w : World) (clear : World → MessagePtr → Option World) (n r : MessagePtr) : Prop where
  le : n ≤ r
  found : ∃ m, w.messages[r]? = some m
  within : ∀ s, Within w r s → r ≤ s
  clears : ClearsWell junk w clear r

open Classical in
/-- **The loop over the values** keeps the messages that hold unknown fields, and needs all of them decoded. -/
theorem clearValues_spec {clear : World → MessagePtr → Option World}
    (hchild : ∀ r ∈ values.filterMap Value.m, Nested junk w clear n r) (hS : Settled w S) (hu : StrippedFrom junk w S n u) :
    (ValuesOpened w values → ∃ u',
      clearValues clear u values = some (u', (values.filterMap Value.m).filter fun q => HoldsUnknown w q) ∧
        Strips junk w S {s | ∃ r ∈ values.filterMap Value.m, Within w r s} n u u') ∧
      (¬ ValuesOpened w values → clearValues clear u values = none) := by
  induction values generalizing S u with
  | nil =>
      refine ⟨fun _ => ⟨u, rfl, .refl hS hu ?_⟩, fun hnot => absurd (fun v hv => absurd hv List.not_mem_nil) hnot⟩
      rintro q ⟨r, hr, -⟩
      exact List.not_mem_nil hr
  | cons v values ih =>
      have hrest : ∀ v' ∈ values, v' ∈ v :: values := fun _ hv => List.mem_cons_of_mem _ hv
      cases hv : v.m with
      | none =>
          -- `message` is a null pointer
          constructor
          · intro hopened
            obtain ⟨r, hr, -⟩ := hopened v List.mem_cons_self
            rw [hv] at hr
            cases hr
          · intro _
            unfold clearValues
            rw [hv]
            rfl
      | some r =>
          have hmessages : (v :: values).filterMap Value.m = r :: values.filterMap Value.m := List.filterMap_cons_some hv
          rw [hmessages] at hchild
          obtain ⟨hle, ⟨m, hm⟩, hwithin, hclears⟩ := hchild r List.mem_cons_self
          obtain ⟨hopens, hnull⟩ := hclears S u hS fun q hq => hu q (Nat.le_trans hle hq)
          by_cases hopened : AllOpened w r
          · obtain ⟨u₁, hclear, hstrips⟩ := hopens hopened
            replace hstrips := hstrips.lift hle hwithin hu
            -- the message is stripped, and kept when it holds an unknown field
            have hin : r ∈ S ∪ {s | Within w r s} := Or.inr Relation.ReflTransGen.refl
            have hm₁ : u₁.messages[r]? = some (m.stripped junk w) := by
              rw [hstrips.after r hle, hm, Option.map_some, if_pos hin]
            have hkept : ((m.stripped junk w).hasField || (m.stripped junk w).hasUnknownField) = true ↔ HoldsUnknown w r :=
              stripped_kept hm
            obtain ⟨hdone, hfails⟩ := ih (fun s hs => hchild s (List.mem_cons_of_mem _ hs)) hstrips.settled hstrips.after
            constructor
            · intro hall
              obtain ⟨u', hvalues, hstrips'⟩ := hdone fun v' hv' => hall v' (hrest v' hv')
              refine ⟨u', ?_, (hstrips.trans hstrips').congr fun s => ?_⟩
              · unfold clearValues
                simp only [hv, hclear, hm₁, hvalues, Option.bind_eq_bind, Option.bind_some, Option.pure_def]
                rw [hmessages, List.filter_cons]
                by_cases hholds : HoldsUnknown w r
                · rw [if_pos (hkept.mpr hholds), if_pos (decide_eq_true hholds)]
                · rw [if_neg fun h => hholds (hkept.mp h), if_neg fun h => hholds (of_decide_eq_true h)]
              · rw [hmessages]
                exact (List.exists_mem_cons_iff (fun t => Within w t s) _ _).symm
            · intro hnot
              have hvalues := hfails fun hall => hnot (List.forall_mem_cons.mpr ⟨⟨r, hv, hopened⟩, hall⟩)
              unfold clearValues
              simp only [hv, hclear, hm₁, hvalues, Option.bind_eq_bind, Option.bind_some, Option.bind_none]
          · constructor
            · intro hall
              obtain ⟨r', hr', hopened'⟩ := hall v List.mem_cons_self
              rw [hv] at hr'
              cases hr'
              exact absurd hopened' hopened
            · intro _
              unfold clearValues
              simp only [hv, hnull hopened, Option.bind_eq_bind, Option.bind_some, Option.bind_none]

open Classical in
/-- **The loop over the fields** leaves the message fields with what is kept of them, and needs all their values opened. -/
theorem clearFields_spec {clear : World → MessagePtr → Option World} (hknown : ∀ f ∈ fields, ∃ fd, f.fieldDescriptor = some fd)
    (hchild : ∀ f ∈ fields, f.isMessage = true → ∀ r ∈ f.messages, Nested junk w clear n r) (hS : Settled w S)
    (hu : StrippedFrom junk w S n u) :
    ((∀ f ∈ fields, f.isMessage = true → ValuesOpened w f.values) → ∃ u',
      clearFields junk clear u fields =
          some (u', fields.map (Field.looped junk w), (fields.filter (Field.kept junk w)).map Field.id) ∧
        Strips junk w S {s | ∃ f ∈ fields, f.isMessage = true ∧ ∃ r ∈ f.messages, Within w r s} n u u') ∧
      ((¬ ∀ f ∈ fields, f.isMessage = true → ValuesOpened w f.values) → clearFields junk clear u fields = none) := by
  induction fields generalizing S u with
  | nil =>
      refine ⟨fun _ => ⟨u, rfl, .refl hS hu ?_⟩, fun hnot => absurd (fun f hf => absurd hf List.not_mem_nil) hnot⟩
      rintro q ⟨f, hf, -⟩
      exact List.not_mem_nil hf
  | cons f fields ih =>
      obtain ⟨fd, hfd⟩ := hknown f List.mem_cons_self
      have hknown' : ∀ g ∈ fields, ∃ fd, g.fieldDescriptor = some fd := fun g hg => hknown g (List.mem_cons_of_mem _ hg)
      have hchild' : ∀ g ∈ fields, g.isMessage = true → ∀ r ∈ g.messages, Nested junk w clear n r :=
        fun g hg => hchild g (List.mem_cons_of_mem _ hg)
      have hmessage := isMessage_iff hfd
      by_cases htype : fd.type = .message
      · obtain ⟨hdone, hfails⟩ := clearValues_spec (hchild f List.mem_cons_self (hmessage.mpr htype)) hS hu
        by_cases hvalues : ValuesOpened w f.values
        · obtain ⟨u₁, hclear, hstrips⟩ := hdone hvalues
          obtain ⟨hdone', hfails'⟩ := ih hknown' hchild' hstrips.settled hstrips.after
          constructor
          · intro hall
            obtain ⟨u', hrest, hstrips'⟩ := hdone' fun g hg => hall g (List.mem_cons_of_mem _ hg)
            refine ⟨u', ?_, (hstrips.trans hstrips').congr fun s => ?_⟩
            · have hkept : f.kept junk w = _ := f.kept_eq (hmessage.mpr htype)
              unfold clearFields
              simp only [hfd, if_pos htype, hclear, hrest, Option.bind_eq_bind, Option.bind_some, Option.pure_def]
              rw [List.map_cons, List.filter_cons, Field.looped, hkept]
              unfold Field.messages
              cases ((f.values.filterMap Value.m).filter fun q => HoldsUnknown w q).isEmpty with
              | true => rfl
              | false =>
                  rw [← hfd]
                  rfl
            · refine Iff.trans (or_congr_left ?_) (List.exists_mem_cons_iff _ _ _).symm
              exact (and_iff_right (hmessage.mpr htype)).symm
          · intro hnot
            have hrest := hfails' fun hall => hnot (List.forall_mem_cons.mpr ⟨fun _ => hvalues, hall⟩)
            unfold clearFields
            simp only [hfd, if_pos htype, hclear, hrest, Option.bind_eq_bind, Option.bind_some, Option.bind_none]
        · refine ⟨fun hall => absurd (hall f List.mem_cons_self (hmessage.mpr htype)) hvalues, fun _ => ?_⟩
          unfold clearFields
          simp only [hfd, if_pos htype, hfails hvalues, Option.bind_eq_bind, Option.bind_none]
      · -- not a field of messages: it stays until the transfer
        obtain ⟨hdone, hfails⟩ := ih hknown' hchild' hS hu
        have hnone : ¬ f.isMessage = true := fun h => htype (hmessage.mp h)
        constructor
        · intro hall
          obtain ⟨u', hrest, hstrips⟩ := hdone fun g hg => hall g (List.mem_cons_of_mem _ hg)
          refine ⟨u', ?_, hstrips.congr fun s => ?_⟩
          · have hkept : f.kept junk w = false := by
              unfold Field.kept
              rw [Bool.eq_false_of_not_eq_true hnone]
              rfl
            unfold clearFields
            simp only [hfd, if_neg htype, hrest, Option.bind_eq_bind, Option.bind_some, Option.pure_def]
            rw [List.map_cons, List.filter_cons, Field.looped, hkept]
            rfl
          · refine Iff.trans ?_ (List.exists_mem_cons_iff _ _ _).symm
            exact (or_iff_right fun h => hnone h.1).symm
        · intro hnot
          have hrest := hfails fun hall => hnot (List.forall_mem_cons.mpr ⟨fun h => absurd h hnone, hall⟩)
          unfold clearFields
          simp only [hfd, if_neg htype, hrest, Option.bind_eq_bind, Option.bind_none]

/-! ## `Clear` -/

/-- What is within an open message is open. -/
theorem AllOpened.within (h : AllOpened w q) (hwithin : Within w q r) : AllOpened w r :=
  fun s m f hs => h s m f (hwithin.trans hs)

/-- The message at `q` when `Clear` comes to it, whether for the first time or again. -/
structure Stage (junk : Junk) (w : World) (S : Set MessagePtr) (q : MessagePtr) (m mu : Message) : Prop where
  known : ∀ f ∈ mu.fields, ∃ fd, f.fieldDescriptor = some fd
  embeds : ∀ f ∈ mu.fields, f.isMessage = true → ∀ r ∈ f.messages, Embeds w q r
  opened : (∀ f ∈ mu.fields, f.isMessage = true → ValuesOpened w f.values) ↔ AllOpened w q
  stripped : mu.stripped junk w = m.stripped junk w
  sorted : Sorted mu.fields
  reached : ∀ s, Within w q s → s = q ∨ s ∈ S ∨ ∃ f ∈ mu.fields, f.isMessage = true ∧ ∃ r ∈ f.messages, Within w r s

/-- For the first time. -/
theorem LinkedMessage.stage (h : LinkedMessage env w n₀ q m) (hm : w.messages[q]? = some m) : Stage junk w S q m m where
  known := fun f hf => by
    obtain ⟨fd, -, hlinked⟩ := h.fields f hf
    exact ⟨fd, hlinked.fieldDescriptor⟩
  embeds := fun f hf hmessage r hr => ⟨m, f, hm, hf, hmessage, hr⟩
  opened := (h.allOpened_iff hm).symm
  stripped := rfl
  sorted := h.sorted
  reached := fun s hs => by
    rcases Relation.ReflTransGen.cases_head hs with rfl | ⟨r, ⟨m₀, f, hm₀, hf, hmessage, hr⟩, hrest⟩
    · exact Or.inl rfl
    · rw [hm] at hm₀
      cases hm₀
      exact Or.inr (Or.inr ⟨f, hf, hmessage, r, hr, hrest⟩)

/-- Again: nothing changes. -/
theorem LinkedMessage.stage_again (h : LinkedMessage env w n₀ q m) (hm : w.messages[q]? = some m) (hS : Settled w S)
    (hq : q ∈ S) : Stage junk w S q m (m.stripped junk w) := by
  have hembeds : ∀ f' ∈ (m.stripped junk w).fields, f'.isMessage = true → ∀ r ∈ f'.messages, Embeds w q r := by
    intro f' hf' hmessage r hr
    obtain ⟨f, hf, -, -, rfl⟩ := mem_stripped.mp hf'
    rw [Field.stripped_messages] at hr
    exact ⟨m, f, hm, hf, hmessage, List.mem_of_mem_filter hr⟩
  refine ⟨?_, hembeds, ⟨fun _ => hS.opened q hq, fun hopened => ?_⟩, m.stripped_stripped, ?_,
    fun s hs => Or.inr (Or.inl (hS.within q hq s hs))⟩
  · intro f' hf'
    obtain ⟨f, hf, -, -, rfl⟩ := mem_stripped.mp hf'
    obtain ⟨fd, -, hlinked⟩ := h.fields f hf
    exact ⟨fd, hlinked.fieldDescriptor⟩
  · intro f' hf' hmessage v hv
    obtain ⟨f, -, -, -, rfl⟩ := mem_stripped.mp hf'
    obtain ⟨r, hr, rfl⟩ := List.mem_map.mp hv
    refine ⟨r, rfl, hopened.within (.single (hembeds _ hf' hmessage r ?_))⟩
    rw [Field.stripped_messages]
    exact hr
  · rw [stripped_fields]
    exact List.pairwise_map.mpr (List.Pairwise.filter _ h.sorted)

/-- One more message has been stripped, with all within it. -/
theorem Settled.union (h : Settled w S) (hopened : AllOpened w q) : Settled w (S ∪ {r | Within w q r}) := by
  constructor
  · rintro r (hr | hr) s hs
    · exact Or.inl (h.within r hr s hs)
    · exact Or.inr (hr.trans hs)
  · rintro r (hr | hr)
    · exact h.opened r hr
    · exact hopened.within hr

/-- **`Clear` of a linked message**: it strips the message and all within it, or goes through a null pointer. -/
theorem clearMessage_spec (h : Linked env p n₀ w) (depth : Nat) (hq : q = p ∨ n₀ ≤ q) (hlt : q < w.messages.length)
    (hdepth : w.messages.length ≤ q + depth) : ClearsWell junk w (clearMessage junk depth) q := by
  induction depth generalizing q with
  | zero => exact absurd hdepth (Nat.not_le_of_lt hlt)
  | succ depth ih =>
      intro S u hS hu
      obtain ⟨m, hm⟩ : ∃ m, w.messages[q]? = some m := ⟨_, List.getElem?_eq_getElem hlt⟩
      have hlinked := h.messages q m hq hm
      obtain ⟨mu, hmu, hstage⟩ : ∃ mu, u.messages[q]? = some mu ∧ Stage junk w S q m mu := by
        have hfound := hu q (Nat.le_refl q)
        rw [hm, Option.map_some] at hfound
        by_cases hqS : q ∈ S
        · rw [if_pos hqS] at hfound
          exact ⟨_, hfound, hlinked.stage_again hm hS hqS⟩
        · rw [if_neg hqS] at hfound
          exact ⟨_, hfound, hlinked.stage hm⟩
      have hchild : ∀ f ∈ mu.fields, f.isMessage = true → ∀ r ∈ f.messages,
          Nested junk w (clearMessage junk depth) (q + 1) r := by
        intro f hf hmessage r hr
        obtain ⟨hqr, hn, hrlt⟩ := h.embeds hq (hstage.embeds f hf hmessage r hr)
        refine ⟨hqr, ⟨_, List.getElem?_eq_getElem hrlt⟩, fun s hs => (h.within (Or.inr hn) hrlt hs).1, ih (Or.inr hn) hrlt ?_⟩
        have hnext : q + 1 + depth ≤ r + depth := Nat.add_le_add_right hqr depth
        exact Nat.le_trans (by rw [Nat.add_right_comm]; exact hdepth) hnext
      obtain ⟨hdone, hfails⟩ := clearFields_spec hstage.known hchild hS fun r hr => hu r (Nat.le_of_succ_le hr)
      rw [hstage.opened] at hdone hfails
      refine ⟨fun hopened => ?_, fun hclosed => ?_⟩
      · obtain ⟨u', hfields, hstrips⟩ := hdone hopened
        have hself : u'.messages[q]? = some mu := (hstrips.below q (Nat.lt_succ_self q)).trans hmu
        have hqlt : q < u'.messages.length := (List.getElem?_eq_some_iff.mp hself).1
        refine ⟨{ u' with messages := u'.messages.set q (m.stripped junk w) }, ?_, hstrips.mem, ?_, ?_, hS.union hopened⟩
        · have hleft := @transferLeft_looped junk w mu hstage.sorted
          unfold clearMessage
          simp only [hmu, hfields, hleft, Option.bind_eq_bind, Option.bind_some, Option.pure_def]
          rw [← hstage.stripped]
          rfl
        · intro r hr
          show (u'.messages.set q _)[r]? = _
          rw [List.getElem?_set_ne (Nat.ne_of_gt hr)]
          exact hstrips.below r (Nat.lt_succ_of_lt hr)
        · intro r hr
          show (u'.messages.set q _)[r]? = _
          by_cases hrq : r = q
          · subst hrq
            have hin : r ∈ S ∪ {s | Within w r s} := Or.inr Relation.ReflTransGen.refl
            rw [List.getElem?_set_self hqlt, hm, Option.map_some, if_pos hin]
          · rw [List.getElem?_set_ne (Ne.symm hrq), hstrips.after r (Nat.lt_of_le_of_ne hr (Ne.symm hrq))]
            have hmem : (r ∈ S ∪ {s | ∃ f ∈ mu.fields, f.isMessage = true ∧ ∃ t ∈ f.messages, Within w t s}) =
                (r ∈ S ∪ {s | Within w q s}) := by
              refine propext ⟨?_, ?_⟩
              · rintro (hr | ⟨f, hf, hmessage, t, ht, hwithin⟩)
                · exact Or.inl hr
                · exact Or.inr (.head (hstage.embeds f hf hmessage t ht) hwithin)
              · rintro (hr | hwithin)
                · exact Or.inl hr
                · exact (hstage.reached r hwithin).resolve_left hrq
            rw [hmem]
      · unfold clearMessage
        simp only [hmu, hfails hclosed, Option.bind_eq_bind, Option.bind_some, Option.bind_none]

/-- **When `Clear` keeps just the unknown fields**: when every message field is decoded, of the message and of those embedded in
    it, at every depth. Otherwise it does not come to its end. -/
theorem clear_iff_allOpened {w₀ w₁ : World} {t data len : Nat} {cs : List (MessagePtr × Call)}
    (hfresh : w₀.messages[p]? = some (newMessage t)) (hfrom : w₀.fromString env.pool env.junk p data len = some (w₁, true))
    (hrun : Run (CallStep env (fun c => !c.parses) 0) w₁ cs w) :
    (∃ w', w.clear env.junk p = some w' ∧ Cleared env.junk w p w') ↔ AllOpened w p := by
  have hlinked := linked_of_run hfresh hfrom hrun
  have hlt : p < w.messages.length := Nat.lt_of_lt_of_le hlinked.lt hlinked.le
  have hstart : StrippedFrom env.junk w ∅ p w := by
    intro q _
    simp
  have hspec : ClearsWell env.junk w (clearMessage env.junk (w.messages.length + 1)) p :=
    clearMessage_spec hlinked _ (Or.inl rfl) hlt (Nat.le_trans (Nat.le_succ _) (Nat.le_add_left _ p))
  obtain ⟨hdone, hfails⟩ := hspec ∅ w ⟨fun _ hq => absurd hq (Set.notMem_empty _), fun _ hq => absurd hq (Set.notMem_empty _)⟩ hstart
  constructor
  · rintro ⟨w', hclear, -⟩
    by_contra hclosed
    rw [World.clear, hfails hclosed] at hclear
    cases hclear
  · intro hopened
    obtain ⟨w', hclear, hstrips⟩ := hdone hopened
    refine ⟨w', hclear, hstrips.mem, ?_⟩
    intro q
    by_cases hpq : p ≤ q
    · rw [hstrips.after q hpq, Set.empty_union]
      rfl
    · -- the messages before `p` are not within it
      have hout : ¬ Within w p q := fun hwithin => hpq (hlinked.within (Or.inl rfl) hlt hwithin).1
      rw [hstrips.below q (Nat.lt_of_not_le hpq)]
      simp only [if_neg hout, Option.map_id']

/-- A message type with a repeated field of its own type, `repeated T a = 1`. -/
def treeEnv : Env :=
  ⟨fun _ => ⟨[⟨"a", 1, .message, .repeated, false, 0, 0, 0, [], firstNumber_pos, firstNumber_lt, unpacked_repeated⟩], by decide, by decide⟩, zeroJunk,
    fun _ => 0, fun _ => 0⟩

/-- Two messages in `a`, the first with an unknown number, `2 = 5`. -/
def treeWorld : World := ⟨memAt [0x0a, 2, 0x10, 5, 0x0a, 0], [newMessage 0]⟩

/-- `Clear` of a message whose field has been decoded. -/
theorem clear_read : ∃ w₁ w w', treeWorld.fromString treeEnv.pool treeEnv.junk 0 4096 6 = some (w₁, true) ∧
    w₁.getFieldSize treeEnv 0 "a" = some (w, 2) ∧ w.clear treeEnv.junk 0 = some w' ∧ Cleared treeEnv.junk w 0 w' := by
  have hruns : ((treeWorld.fromString treeEnv.pool treeEnv.junk 0 4096 6).bind fun r => (r.1.getFieldSize treeEnv 0 "a").map fun s =>
      (r.2, s.2, s.1.messages.all fun m => m.fields.all fun f => f.decoded)) = some (true, 2, true) := by decide +kernel
  obtain ⟨⟨w₁, ok⟩, hfrom, hruns⟩ := Option.bind_eq_some_iff.mp hruns
  obtain ⟨⟨w, size⟩, hsize, heq⟩ := Option.map_eq_some_iff.mp hruns
  obtain ⟨rfl, hrest⟩ := Prod.mk.inj heq
  obtain ⟨rfl, hdecoded⟩ := Prod.mk.inj hrest
  have hrun : Run (CallStep treeEnv (fun c => !c.parses) 0) w₁ [(0, .getFieldSize "a")] w := by
    exact Run.single ⟨Nat.zero_le _, rfl, treeEnv.junk, .size 2,
      congrArg (Option.map fun r : World × Nat => (r.1, Seen.size r.2)) hsize⟩
  have hopened : AllOpened w 0 := by
    intro r m f _ hm hf _
    exact List.all_eq_true.mp (List.all_eq_true.mp hdecoded m (List.mem_of_getElem? hm)) f hf
  obtain ⟨w', hclear⟩ := (clear_iff_allOpened rfl hfrom hrun).mpr hopened
  exact ⟨w₁, w, w', hfrom, hsize, hclear⟩

/-- The same message, when `a` was not read before. -/
theorem not_cleared_unread : ∃ w, treeWorld.fromString treeEnv.pool treeEnv.junk 0 4096 6 = some (w, true) ∧
    ¬ ∃ w', w.clear treeEnv.junk 0 = some w' ∧ Cleared treeEnv.junk w 0 w' := by
  have hruns : (treeWorld.fromString treeEnv.pool treeEnv.junk 0 4096 6).map (fun r => (r.2, (r.1.clear treeEnv.junk 0).isSome)) =
      some (true, false) := by decide +kernel
  obtain ⟨⟨w, ok⟩, hfrom, heq⟩ := Option.map_eq_some_iff.mp hruns
  obtain ⟨rfl, hnone⟩ := Prod.mk.inj heq
  refine ⟨w, hfrom, ?_⟩
  rintro ⟨w', hclear, -⟩
  rw [hclear] at hnone
  cases hnone

end CompactProtobuf
end Snippets
