import Mathlib.Logic.Relation
import Snippets.CompactProtobuf.Calls
import Snippets.CompactProtobuf.Decoding
import Snippets.CompactProtobuf.FieldMap

/-!
# `CompactProtobuf.Edits` — what the calls come to

Every call but `FromString` decodes a field, or not, and then adds a field, or changes, appends or removes a value of it. These
are the edits of a message; a call is a sequence of them (`edits_of_call`), so that what every edit keeps, every call keeps
(`CallStep.invariant`).
-/

namespace Snippets

open Lib

namespace CompactProtobuf

variable {env : Env} {w w' w₁ : World} {p q : MessagePtr} {m : Message} {fd : FieldDescriptor} {f f₁ : Field} {v v' : Value}
  {kind : FieldType → Bool} {name : String} {idx : Nat}

/-! ## Values that calls make

A value that a call makes or changes holds a word of its type, a string or a message further on. -/

/-- A value of a field of the message at `p`. -/
structure BuiltValue (w : World) (p : MessagePtr) (fd : FieldDescriptor) (v : Value) : Prop where
  word : fd.type.member = some .varint ∨ fd.type.member = some .d → v.primitive < 2 ^ 64
  message : fd.type = .message → ∃ q m, v.m = some q ∧ p < q ∧ w.messages[q]? = some m ∧ m.descriptor = fd.messageType

/-- A stored integer, -/
theorem setIntegerValue_built {val : Nat} (hval : val < 2 ^ 64) (hkind : fd.type.isInteger = true)
    (h : setIntegerValue fd.type val v = some v') : BuiltValue w p fd v' := by
  constructor
  · intro hmember
    cases htype : fd.type <;> rw [htype] at h hmember hkind <;>
      first | exact absurd hkind (by decide) | exact absurd hmember (by decide) | (cases h; exact hval)
  · intro htype
    rw [htype] at hkind
    cases hkind

/-- and a stored float or double. -/
theorem setRealValue_built {val : UInt64} (hkind : fd.type.isReal = true) (h : setRealValue env fd.type val v = some v') :
    BuiltValue w p fd v' := by
  constructor
  · intro hmember
    cases htype : fd.type <;> rw [htype] at h hmember hkind <;>
      first | exact absurd hkind (by decide) | exact absurd hmember (by decide) | (cases h; exact val.toNat_lt)
  · intro htype
    rw [htype] at hkind
    cases hkind

/-- A text, or any other change of a text field. -/
theorem string_built (hkind : fd.type.isString = true) (v : Value) : BuiltValue w p fd v := by
  constructor
  · intro hmember
    cases htype : fd.type <;> rw [htype] at hmember hkind <;>
      first | exact absurd hkind (by decide) | exact absurd hmember (by decide)
  · intro htype
    rw [htype] at hkind
    cases hkind

/-- Two words make 64 bits. -/
theorem joinWords_lt (low hi : UInt32) : joinWords low hi < 2 ^ 64 := by
  have hlow := low.toNat_lt
  have hhi := hi.toNat_lt
  rw [joinWords_eq]
  omega

/-- A value of a field of the message at `q`, and the world with the message it may point to. -/
structure Made (w w₁ : World) (q : MessagePtr) (fd : FieldDescriptor) (v : Value) : Prop where
  value : BuiltValue w₁ q fd v
  world : (fd.type ≠ .message ∧ w₁ = w) ∨
    (fd.type = .message ∧ v.m = some w.messages.length ∧ w₁ = { w with messages := w.messages ++ [newMessage fd.messageType] })

/-- A type that the accessors of this kind do not have. -/
theorem ne_message_of_kind (hkind : kind fd.type = true) (hmessage : kind .message = false) : fd.type ≠ .message := by
  intro htype
  rw [htype, hmessage] at hkind
  cases hkind

/-- A made value, -/
theorem makeValue_made {set : FieldType → Value → Option Value} (hkind : kind fd.type = true) (hmessage : kind .message = false)
    (hset : ∀ v', set fd.type (newValue (env.junk .made)) = some v' → BuiltValue w q fd v') (h : makeValue env set w fd = some (w₁, v)) :
    Made w w₁ q fd v := by
  unfold makeValue at h
  obtain ⟨v', hv', heq⟩ := Option.map_eq_some_iff.mp h
  cases heq
  exact ⟨hset v hv', Or.inl ⟨ne_message_of_kind hkind hmessage, rfl⟩⟩

/-- and a made message, which is new in the world. -/
theorem makeMessage_made (hq : q < w.messages.length) (h : makeMessage env w fd = some (w₁, v)) : Made w w₁ q fd v := by
  unfold makeMessage at h
  obtain ⟨_, hguard, h⟩ := Option.bind_eq_some_iff.mp h
  cases h
  have htype : fd.type = .message := (Option.guard_eq_some' _).mp hguard
  refine ⟨⟨?_, ?_⟩, Or.inr ⟨htype, rfl, rfl⟩⟩
  · intro hmember
    rw [htype] at hmember
    simp [FieldType.member] at hmember
  · intro _
    exact ⟨w.messages.length, newMessage fd.messageType, rfl, hq, List.getElem?_concat_length, rfl⟩

/-- The world when a value was made, or none was: it is the same, or has one new message. -/
theorem world_of_made (h : w₁ = w ∨ ∃ v, Made w w₁ p fd v) :
    w₁ = w ∨ w₁ = { w with messages := w.messages ++ [newMessage fd.messageType] } := by
  rcases h with rfl | ⟨v, hmade⟩
  · exact Or.inl rfl
  · rcases hmade.world with ⟨-, rfl⟩ | ⟨-, -, rfl⟩
    · exact Or.inl rfl
    · exact Or.inr rfl

/-- A message that was there is there when the value is made. -/
theorem found_of_made (h : w₁ = w ∨ ∃ v, Made w w₁ p fd v) (hm : w.messages[q]? = some m) : w₁.messages[q]? = some m := by
  rcases world_of_made h with rfl | rfl
  · exact hm
  · show (w.messages ++ [newMessage fd.messageType])[q]? = some m
    rw [List.getElem?_append_left (List.getElem?_eq_some_iff.mp hm).1]
    exact hm

/-! ## Edits

The accessors, each as a sequence of edits of its message. -/

/-- The field that a call adds. -/
def newField (fd : FieldDescriptor) (wireType : WireType) (v : Value) : Field :=
  ⟨true, false, fd.number, wireType, some fd, [v]⟩

/-- A change of the message at `q`, at a field of its type, whatever the values made find in memory. -/
inductive Edit (env : Env) (q : MessagePtr) (w : World) : World → Prop
  | decode {junk : Junk} {m : Message} {fd : FieldDescriptor} {f f₁ : Field} {w₁ : World} (hm : w.messages[q]? = some m)
      (hfd : fd ∈ (env.pool m.descriptor).fields) (hf : m.fields.find fd.number = some f) (hdec : f.decoded = false)
      (hdecode : decodeField (env.withJunk junk) w f = some (w₁, f₁)) : Edit env q w (w₁.store q f₁)
  | insert {m : Message} {fd : FieldDescriptor} {w₁ : World} {v : Value} {wireType : WireType} (hm : w.messages[q]? = some m)
      (hfd : fd ∈ (env.pool m.descriptor).fields) (hnone : m.fields.find fd.number = none) (hmade : Made w w₁ q fd v)
      (hwire : getFieldWireType fd = some wireType) : Edit env q w (w₁.change q (FieldMap.insert (newField fd wireType v)))
  | revalue {m : Message} {fd : FieldDescriptor} {f : Field} {w₁ : World} {values : List Value} (hm : w.messages[q]? = some m)
      (hfd : fd ∈ (env.pool m.descriptor).fields) (hf : m.fields.find fd.number = some f) (hdec : f.decoded = true)
      (hworld : w₁ = w ∨ ∃ v, Made w w₁ q fd v) (hne : f.values ≠ [] → values ≠ [])
      (hsingle : fd.isRepeated = false → f.values.length = 1 → values.length = 1)
      (hvalues : ∀ v ∈ values, v ∈ f.values ∨ Made w w₁ q fd v) : Edit env q w (w₁.store q { f with values := values })
  | erase {m : Message} {fd : FieldDescriptor} {f : Field} (hm : w.messages[q]? = some m)
      (hfd : fd ∈ (env.pool m.descriptor).fields) (hf : m.fields.find fd.number = some f) :
      Edit env q w (w.change q fun fields => fields.erase f.id)

/-- An edit of one call is an edit, whatever that call finds in memory. -/
theorem Edit.of_withJunk {junk : Junk} (h : Edit (env.withJunk junk) q w w') : Edit env q w w' := by
  cases h with
  | decode hm hfd hf hdec hdecode => exact .decode hm hfd hf hdec hdecode
  | insert hm hfd hnone hmade hwire => exact .insert hm hfd hnone hmade hwire
  | revalue hm hfd hf hdec hworld hne hsingle hvalues => exact .revalue hm hfd hf hdec hworld hne hsingle hvalues
  | erase hm hfd hf => exact .erase hm hfd hf

/-- A sequence of edits of one message. -/
abbrev Edits (env : Env) (q : MessagePtr) : World → World → Prop := Relation.ReflTransGen (Edit env q)

/-- `TryDecodeField` is one edit at most, and the message then has the decoded field. -/
theorem tryDecodeField_edits (hm : w.messages[q]? = some m) (hfd : fd ∈ (env.pool m.descriptor).fields)
    (hf : m.fields.find fd.number = some f) (htry : w.tryDecodeField env q f = some (w₁, f₁)) :
    Edits env q w w₁ ∧ f₁.decoded = true ∧
      ∃ m₁, w₁.messages[q]? = some m₁ ∧ m₁.descriptor = m.descriptor ∧ m₁.fields.find fd.number = some f₁ := by
  cases hdec : f.decoded with
  | true =>
      rw [tryDecodeField_of_decoded hdec] at htry
      cases htry
      exact ⟨.refl, hdec, m, hm, rfl, hf⟩
  | false =>
      rw [tryDecodeField_of_undecoded hdec] at htry
      obtain ⟨⟨w₂, f₂⟩, hdecode, heq⟩ := Option.map_eq_some_iff.mp htry
      cases heq
      obtain ⟨hheader, hext⟩ := decodeField_header hdecode
      have hheader' : f₂ = { f with decoded := true, values := f₂.values } := hheader
      have hid : f₂.id = fd.number := by
        rw [hheader']
        exact (FieldMap.find_some hf).2
      -- the frame condition at another pointer says that the message at `q` stays
      have hm₂ : w₂.messages[q]? = some m := (hext (q + 1)).old _ _ (Nat.ne_of_lt (Nat.lt_succ_self q)) hm
      refine ⟨.single (@Edit.decode env q w env.junk _ _ _ _ _ hm hfd hf hdec hdecode), by rw [hheader'], _, change_self hm₂, rfl, ?_⟩
      dsimp only
      rw [FieldMap.find_modify (fun _ _ => rfl), hid, if_pos rfl, hf]
      rfl

/-- Access decodes the field and no more, -/
theorem access_inv {r : World × Field × Nat} (h : w.access env p fd f idx = some r) :
    w.tryDecodeField env p f = some (r.1, r.2.1) := by
  unfold World.access at h
  obtain ⟨_, -, h⟩ := Option.bind_eq_some_iff.mp h
  obtain ⟨⟨w₁, f₁⟩, htry, h⟩ := Option.bind_eq_some_iff.mp h
  cases h
  exact htry

/-- so a getter is at most one edit, -/
theorem get_edits {β : Type} {default : FieldDescriptor → Option β} {read : Field → Nat → Option β} {r : World × β}
    (h : w.get env q kind default read name idx = some r) : Edits env q w r.1 := by
  unfold World.get at h
  obtain ⟨⟨fd, found⟩, hlookup, h⟩ := Option.bind_eq_some_iff.mp h
  obtain ⟨m, hm, hfd, -, -, rfl⟩ := lookup_inv hlookup
  cases hf : m.fields.find fd.number with
  | none =>
      rw [hf] at h
      obtain ⟨b, -, h⟩ := Option.bind_eq_some_iff.mp h
      cases h
      exact .refl
  | some f =>
      rw [hf] at h
      obtain ⟨⟨w₁, f₁, i⟩, haccess, h⟩ := Option.bind_eq_some_iff.mp h
      obtain ⟨b, -, h⟩ := Option.bind_eq_some_iff.mp h
      cases h
      exact (tryDecodeField_edits hm hfd hf (access_inv haccess)).1

/-- and so is the size. -/
theorem getFieldSize_edits {r : World × Nat} (h : w.getFieldSize env q name = some r) : Edits env q w r.1 := by
  unfold World.getFieldSize at h
  obtain ⟨⟨fd, found⟩, hlookup, h⟩ := Option.bind_eq_some_iff.mp h
  obtain ⟨m, hm, hfd, -, -, rfl⟩ := lookup_inv hlookup
  cases hf : m.fields.find fd.number with
  | none =>
      rw [hf] at h
      cases h
      exact .refl
  | some f =>
      rw [hf] at h
      obtain ⟨⟨w₁, f₁⟩, htry, h⟩ := Option.bind_eq_some_iff.mp h
      cases h
      exact (tryDecodeField_edits hm hfd hf htry).1

/-- Adding a field puts in a new one with one value. -/
theorem addField_inv (h : w.addField p fd v = some w') :
    ∃ wireType, getFieldWireType fd = some wireType ∧ w' = w.change p (FieldMap.insert (newField fd wireType v)) := by
  unfold World.addField at h
  obtain ⟨f, hf, h⟩ := Option.bind_eq_some_iff.mp h
  cases h
  unfold knownField at hf
  obtain ⟨wireType, hwire, rfl⟩ := Option.map_eq_some_iff.mp hf
  exact ⟨wireType, hwire, rfl⟩

/-- `Set` adds a field with a fresh value, or decodes a field and changes one of its values. -/
theorem set_edits {fresh stored : FieldType → Value → Option Value} (hmessage : kind .message = false)
    (hfresh : ∀ (u : World) (fd : FieldDescriptor) v v', kind fd.type = true → fresh fd.type v = some v' → BuiltValue u q fd v')
    (hstored : ∀ (u : World) (fd : FieldDescriptor) v v', kind fd.type = true → stored fd.type v = some v' → BuiltValue u q fd v')
    (h : w.set env q kind fresh stored name idx = some w') : Edits env q w w' := by
  unfold World.set at h
  obtain ⟨⟨fd, found⟩, hlookup, h⟩ := Option.bind_eq_some_iff.mp h
  obtain ⟨m, hm, hfd, -, hkind, rfl⟩ := lookup_inv hlookup
  have htype := ne_message_of_kind hkind hmessage
  -- with a field there is a value to change, and without one a field to add
  cases hf : m.fields.find fd.number with
  | none =>
      rw [hf] at h
      obtain ⟨v, hv, h⟩ := Option.bind_eq_some_iff.mp h
      obtain ⟨wireType, hwire, rfl⟩ := addField_inv h
      exact .single (.insert hm hfd hf ⟨hfresh w fd _ v hkind hv, Or.inl ⟨htype, rfl⟩⟩ hwire)
  | some f =>
      rw [hf] at h
      obtain ⟨⟨w₁, f₁, i⟩, haccess, h⟩ := Option.bind_eq_some_iff.mp h
      obtain ⟨v, -, h⟩ := Option.bind_eq_some_iff.mp h
      obtain ⟨v', hv', h⟩ := Option.bind_eq_some_iff.mp h
      cases h
      obtain ⟨hedits, hdec, m₁, hm₁, hd, hf₁⟩ := tryDecodeField_edits hm hfd hf (access_inv haccess)
      rw [← hd] at hfd
      refine hedits.tail (.revalue hm₁ hfd hf₁ hdec (Or.inl rfl) ?_ ?_ ?_)
      · intro hne hnil
        have hlen := congrArg List.length hnil
        rw [List.length_set] at hlen
        exact hne (List.length_eq_zero_iff.mp hlen)
      · intro _ hone
        rw [List.length_set]
        exact hone
      · intro u hu
        refine (List.mem_or_eq_of_mem_set hu).imp_right ?_
        rintro rfl
        exact ⟨hstored w₁ fd v _ hkind hv', Or.inl ⟨htype, rfl⟩⟩

/-- `Add` adds a field, or decodes a repeated field and adds a value to it. -/
theorem add_edits {make : World → FieldDescriptor → Option (World × Value)} {r : World × Value}
    (hmake : ∀ (u u₁ : World) (fd : FieldDescriptor) v, q < u.messages.length → kind fd.type = true →
      make u fd = some (u₁, v) → Made u u₁ q fd v)
    (h : w.add env q kind make name = some r) : Edits env q w r.1 := by
  unfold World.add at h
  obtain ⟨⟨fd, found⟩, hlookup, h⟩ := Option.bind_eq_some_iff.mp h
  obtain ⟨m, hm, hfd, -, hkind, rfl⟩ := lookup_inv hlookup
  have hq : ∀ {u : World} {m : Message}, u.messages[q]? = some m → q < u.messages.length :=
    fun hm => (List.getElem?_eq_some_iff.mp hm).1
  -- a value behind the others, or a new field
  cases hf : m.fields.find fd.number with
  | none =>
      rw [hf] at h
      obtain ⟨⟨w₁, v⟩, hmade, h⟩ := Option.bind_eq_some_iff.mp h
      obtain ⟨w₂, hadd, h⟩ := Option.bind_eq_some_iff.mp h
      cases h
      obtain ⟨wireType, hwire, rfl⟩ := addField_inv hadd
      exact .single (.insert hm hfd hf (hmake w w₁ fd v (hq hm) hkind hmade) hwire)
  | some f =>
      rw [hf] at h
      obtain ⟨_, hguard, h⟩ := Option.bind_eq_some_iff.mp h
      have hrep : fd.isRepeated = true := (Option.guard_eq_some' _).mp hguard
      obtain ⟨⟨w₁, f₁⟩, htry, h⟩ := Option.bind_eq_some_iff.mp h
      obtain ⟨⟨w₂, v⟩, hmade, h⟩ := Option.bind_eq_some_iff.mp h
      cases h
      obtain ⟨hedits, hdec, m₁, hm₁, hd, hf₁⟩ := tryDecodeField_edits hm hfd hf htry
      rw [← hd] at hfd
      have hv := hmake w₁ w₂ fd v (hq hm₁) hkind hmade
      refine hedits.tail (.revalue hm₁ hfd hf₁ hdec (Or.inr ⟨v, hv⟩) ?_ ?_ ?_)
      · exact fun _ => List.append_ne_nil_of_right_ne_nil _ (List.cons_ne_nil _ _)
      · intro hnrep
        rw [hrep] at hnrep
        cases hnrep
      · intro u hu
        refine (List.mem_append.mp hu).imp_right ?_
        intro hu
        rw [List.mem_singleton.mp hu]
        exact hv

/-- `Delete` decodes a field and takes a value out of it, and the field too when no value is left. -/
theorem delete_edits {β : Type} {read : Field → Nat → Option β} {r : World × β}
    (h : w.delete env q kind read name idx = some r) : Edits env q w r.1 := by
  unfold World.delete at h
  obtain ⟨⟨fd, found⟩, hlookup, h⟩ := Option.bind_eq_some_iff.mp h
  obtain ⟨m, hm, hfd, -, -, rfl⟩ := lookup_inv hlookup
  -- the last value goes with its field
  cases hf : m.fields.find fd.number with
  | none =>
      rw [hf] at h
      cases h
  | some f =>
      rw [hf] at h
      obtain ⟨⟨w₁, f₁, i⟩, haccess, h⟩ := Option.bind_eq_some_iff.mp h
      obtain ⟨val, -, h⟩ := Option.bind_eq_some_iff.mp h
      obtain ⟨_, hguard, h⟩ := Option.bind_eq_some_iff.mp h
      have hi : i < f₁.values.length := (Option.guard_eq_some' _).mp hguard
      cases h
      obtain ⟨hedits, hdec, m₁, hm₁, hd, hf₁⟩ := tryDecodeField_edits hm hfd hf (access_inv haccess)
      rw [← hd] at hfd
      dsimp only
      split
      next => exact hedits.tail (.erase hm₁ hfd hf₁)
      next hrest =>
        refine hedits.tail (.revalue hm₁ hfd hf₁ hdec (Or.inl rfl) ?_ ?_ fun u hu => Or.inl (List.mem_of_mem_eraseIdx hu))
        · intro _ hnil
          rw [hnil] at hrest
          exact hrest rfl
        · -- the one value of a field that is not repeated is gone, and the field with it
          intro _ hone
          have hnil : f₁.values.eraseIdx i = [] := by
            apply List.length_eq_zero_iff.mp
            rw [List.length_eraseIdx_of_lt hi, hone]
          rw [hnil] at hrest
          exact absurd rfl hrest

/-! ## Calls

Each call is one of these. -/

/-- The call that parses. -/
def Call.parses : Call → Bool
  | .fromString _ _ => true
  | _ => false

/-- **Every call but `FromString` is a sequence of edits** of its message. -/
theorem edits_of_call {c : Call} {seen : Seen} (hparses : c.parses = false) (hexec : c.exec env q w = some (w', seen)) :
    Edits env q w w' := by
  -- one case per call
  cases c with
  | fromString data len => cases hparses
  | getFieldSize name =>
      obtain ⟨r, hr, heq⟩ := Option.map_eq_some_iff.mp hexec
      cases heq
      exact getFieldSize_edits hr
  | getInteger name idx | getReal name idx | getString name idx | getMessage name idx =>
      obtain ⟨r, hr, heq⟩ := Option.map_eq_some_iff.mp hexec
      cases heq
      exact get_edits hr
  | deleteInteger name idx | deleteReal name idx | deleteString name idx | deleteMessage name idx =>
      obtain ⟨r, hr, heq⟩ := Option.map_eq_some_iff.mp hexec
      cases heq
      exact delete_edits hr
  | setInteger name idx low hi =>
      obtain ⟨w₁, hset, heq⟩ := Option.map_eq_some_iff.mp hexec
      cases heq
      unfold World.setInteger at hset
      exact set_edits rfl (fun _ _ _ _ hk hv => setIntegerValue_built (joinWords_lt low hi) hk hv)
        (fun _ _ _ _ hk hv => setIntegerValue_built (joinWords_lt low hi) hk hv) hset
  | setReal name idx val =>
      obtain ⟨w₁, hset, heq⟩ := Option.map_eq_some_iff.mp hexec
      cases heq
      unfold World.setReal at hset
      exact set_edits rfl (fun _ _ _ _ hk hv => setRealValue_built hk hv) (fun _ _ _ _ hk hv => setRealValue_built hk hv) hset
  | setString name idx val =>
      obtain ⟨w₁, hset, heq⟩ := Option.map_eq_some_iff.mp hexec
      cases heq
      unfold World.setString at hset
      exact set_edits rfl (fun _ _ _ _ hk _ => string_built hk _) (fun _ _ _ _ hk _ => string_built hk _) hset
  | addInteger name low hi =>
      obtain ⟨w₁, hset, heq⟩ := Option.map_eq_some_iff.mp hexec
      cases heq
      obtain ⟨r, hadd, rfl⟩ := Option.map_eq_some_iff.mp hset
      apply add_edits _ hadd
      intro u u₁ fd v _ hk hmake
      exact makeValue_made hk rfl (fun v' hv' => setIntegerValue_built (joinWords_lt low hi) hk hv') hmake
  | addReal name val =>
      obtain ⟨w₁, hset, heq⟩ := Option.map_eq_some_iff.mp hexec
      cases heq
      obtain ⟨r, hadd, rfl⟩ := Option.map_eq_some_iff.mp hset
      apply add_edits _ hadd
      intro u u₁ fd v _ hk hmake
      exact makeValue_made hk rfl (fun v' hv' => setRealValue_built hk hv') hmake
  | addString name val =>
      obtain ⟨w₁, hset, heq⟩ := Option.map_eq_some_iff.mp hexec
      cases heq
      obtain ⟨r, hadd, rfl⟩ := Option.map_eq_some_iff.mp hset
      apply add_edits _ hadd
      intro u u₁ fd v _ hk hmake
      exact makeValue_made hk rfl (fun v' _ => string_built hk v') hmake
  | addMessage name =>
      obtain ⟨r₁, hset, heq⟩ := Option.map_eq_some_iff.mp hexec
      cases heq
      obtain ⟨r, hadd, rfl⟩ := Option.map_eq_some_iff.mp hset
      apply add_edits _ hadd
      intro u u₁ fd v hq _ hmake
      exact makeMessage_made hq hmake

/-- **What every edit keeps, every call keeps.** -/
theorem CallStep.invariant {I : World → Prop} {sort : Call → Bool} {c : MessagePtr × Call}
    (hstep : CallStep env sort p w c w') (hsort : ∀ c, sort c = true → c.parses = false)
    (hedit : ∀ (q : MessagePtr) (u u' : World), p ≤ q → I u → Edit env q u u' → I u') (h : I w) : I w' := by
  obtain ⟨hp, hc, junk, seen, hexec⟩ := hstep
  have hedits := edits_of_call (hsort _ hc) hexec
  clear hexec
  induction hedits with
  | refl => exact h
  | tail _ hlast ih => exact hedit _ _ _ hp ih hlast.of_withJunk

end CompactProtobuf
end Snippets
