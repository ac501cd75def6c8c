import Mathlib.Data.List.Forall2
import Snippets.CompactProtobuf.Accessors

/-!
# `CompactProtobuf.Decoding` — what decoding a field changes

Decoding reads the slices of the values, and for embedded messages makes new messages behind those that are there
(`Extends`). Of the field it changes the flag and the values alone (`decodeField_spec`), and of these the number only when
the field is packed.
-/

namespace Snippets

open Lib

namespace CompactProtobuf

variable {env : Env} {w w' w₁ w₂ u u' : World} {p q : MessagePtr} {fd : FieldDescriptor} {f f' f₁ : Field} {v v' : Value}
  {junk : Junk} {mem : Mem} {values values' : List Value}

/-! ## Worlds

A world that grew: the same memory, and the old messages with one of them left out of account. -/

/-- Every message but `p` stays as it is. -/
structure Extends (p : MessagePtr) (w w' : World) : Prop where
  mem : w'.mem = w.mem
  old : ∀ q m, q ≠ p → w.messages[q]? = some m → w'.messages[q]? = some m
  length : w.messages.length ≤ w'.messages.length

/-- A world extends itself, -/
theorem Extends.refl : Extends p w w := ⟨rfl, fun _ _ _ h => h, Nat.le_refl _⟩

/-- and step by step. -/
theorem Extends.trans (h : Extends p w w') (h' : Extends p w' w₁) : Extends p w w₁ :=
  ⟨h'.mem.trans h.mem, fun q m hq hm => h'.old q m hq (h.old q m hq hm), Nat.le_trans h.length h'.length⟩

/-- A change of one message, -/
theorem extends_change (g : FieldMap → FieldMap) : Extends p w (w.change p g) := by
  refine ⟨rfl, ?_, ?_⟩
  · intro q m hq hm
    rw [change_other hq]
    exact hm
  · rw [length_change]

/-- and a message added. -/
theorem extends_append (m : Message) : Extends p w { w with messages := w.messages ++ [m] } := by
  refine ⟨rfl, ?_, ?_⟩
  · intro q m' _ hm'
    show (w.messages ++ [m])[q]? = some m'
    rw [List.getElem?_append_left (List.getElem?_eq_some_iff.mp hm').1]
    exact hm'
  · show w.messages.length ≤ (w.messages ++ [m]).length
    rw [List.length_append]
    exact Nat.le_add_right _ _

/-! ## Values

Values that point to no message, which is how the parser leaves them. -/

/-- The values of a field that was not decoded point to no message. -/
def Plain (values : List Value) : Prop := ∀ v ∈ values, v.m = none

/-! ## Scalars and strings

They are decoded in place: the flag and one member of the values change. -/

/-- `DecodeField` for everything but embedded messages. -/
def decodeInPlace (junk : Junk) (mem : Mem) (fd : FieldDescriptor) (f : Field) : Option Field :=
  if fd.packed then decodePacked junk mem fd.type f
  else
    match fd.type with
    | .int32 | .int64 | .uint32 | .uint64 | .bool | .enum => decodeVarint junk mem f
    | .sint32 | .sint64 => decodeVarintWithZigZag junk mem fd.type f
    | .fixed32 | .fixed64 | .sfixed32 | .sfixed64 | .double | .float => decodeFixed mem fd.type f
    | .string | .bytes => decodeString junk mem fd.type f
    | .message | .group => none

/-- A packed field has no messages. -/
theorem packed_ne_message (h : fd.packed = true) : fd.type ≠ .message := by
  intro htype
  have hpackable := (fd.packed_repeated h).2
  rw [htype] at hpackable
  cases hpackable

/-- The decoding of any other field than one of messages, -/
theorem decodeField_inPlace (hfd : f.fieldDescriptor = some fd) (htype : fd.type ≠ .message) :
    decodeField env w f = (decodeInPlace env.junk w.mem fd f).map fun f => (w, f) := by
  unfold decodeField decodeInPlace
  simp only [hfd]
  by_cases hpacked : fd.packed = true
  · rw [if_pos hpacked, if_pos hpacked]
  · rw [if_neg hpacked, if_neg hpacked]
    cases h : fd.type <;> first | rfl | exact absurd h htype

/-- and of one of messages. -/
theorem decodeField_message (hfd : f.fieldDescriptor = some fd) (htype : fd.type = .message) :
    decodeField env w f =
      (decodeMessages env fd.messageType w f.values).map fun r => (r.1, { f with decoded := true, values := r.2 }) := by
  have hpacked : ¬ fd.packed = true := fun h => packed_ne_message h htype
  unfold decodeField
  simp only [hfd, if_neg hpacked, htype]

/-- What decoding does to the values, one by one. -/
theorem mapM_values {decode : Value → Option Value} (hm : ∀ v v', decode v = some v' → v'.m = v.m)
    (h : values.mapM decode = some values') : values'.length = values.length ∧ (Plain values → Plain values') := by
  induction values generalizing values' with
  | nil =>
      simp only [List.mapM_nil, Option.pure_def, Option.some.injEq] at h
      subst h
      exact ⟨rfl, fun h => h⟩
  | cons v values ih =>
      rw [List.mapM_cons] at h
      cases hv : decode v with
      | none =>
          rw [hv] at h
          cases h
      | some v' =>
          cases hvs : values.mapM decode with
          | none =>
              rw [hv, hvs] at h
              cases h
          | some us =>
              rw [hv, hvs] at h
              cases h
              obtain ⟨hlen, hplain⟩ := ih hvs
              refine ⟨by rw [List.length_cons, List.length_cons, hlen], ?_⟩
              intro hp u hu
              rcases List.mem_cons.mp hu with rfl | hu
              · rw [hm v _ hv]
                exact hp v List.mem_cons_self
              · exact hplain (fun x hx => hp x (List.mem_cons_of_mem _ hx)) u hu

/-- What a decoder of single values leaves of the field. -/
theorem decodeEach_spec {decode : Value → Option Value} (hm : ∀ v v', decode v = some v' → v'.m = v.m)
    (h : decodeEach decode f = some f₁) : f₁ = { f with decoded := true, values := f₁.values } ∧
      f₁.values.length = f.values.length ∧ (Plain f.values → Plain f₁.values) := by
  unfold decodeEach at h
  obtain ⟨values, hvalues, rfl⟩ := Option.map_eq_some_iff.mp h
  exact ⟨rfl, mapM_values hm hvalues⟩

/-- The loop over packed values: it takes none away, and makes none that points to a message. -/
theorem decodePackedLoop_spec {type : FieldType} (fuel idx : Nat) {st : ParserState}
    (h : decodePackedLoop junk mem type fuel idx st values = some values') :
    (values ≠ [] → values' ≠ []) ∧ (Plain values → Plain values') := by
  have hstore : ∀ parsed v : Value, (storePacked type parsed v).m = v.m := by
    intro parsed v
    unfold storePacked Value.setF
    split <;> rfl
  -- by induction on the bytes left
  induction fuel generalizing idx st values with
  | zero =>
      unfold decodePackedLoop at h
      split at h
      · cases h
      · cases h
        exact ⟨fun h => h, fun h => h⟩
  | succ fuel ih =>
      unfold decodePackedLoop at h
      split at h
      · cases hparse : parsePackedValue mem type st with
        | none =>
            simp only [hparse] at h
            cases h
        | some st' =>
            simp only [hparse] at h
            obtain ⟨hne, hplain⟩ := ih _ h
            constructor
            · intro hvalues
              apply hne
              split
              · intro hnil
                exact hvalues (List.map_eq_nil_iff.mp hnil)
              · exact List.append_ne_nil_of_right_ne_nil _ (List.cons_ne_nil _ _)
            · intro hvalues
              apply hplain
              split
              · intro u hu
                obtain ⟨v, hv, rfl⟩ := List.mem_map.mp hu
                rw [hstore]
                exact hvalues v hv
              · intro u hu
                rcases List.mem_append.mp hu with hu | hu
                · exact hvalues u hu
                · rw [List.mem_singleton.mp hu, hstore]
                  rfl
      · cases h
        exact ⟨fun h => h, fun h => h⟩

/-- **Decoding in place** keeps the number of values, unless the field is packed: then it was one, and is not none. -/
theorem decodeInPlace_spec (h : decodeInPlace junk mem fd f = some f₁) : f₁ = { f with decoded := true, values := f₁.values } ∧
    (if fd.packed then f.values.length = 1 ∧ f₁.values ≠ [] else f₁.values.length = f.values.length) ∧
    (Plain f.values → Plain f₁.values) := by
  unfold decodeInPlace at h
  by_cases hpacked : fd.packed = true
  · rw [if_pos hpacked] at h ⊢
    unfold decodePacked at h
    split at h
    next v hv =>
      obtain ⟨values, hloop, rfl⟩ := Option.map_eq_some_iff.mp h
      obtain ⟨hne, hplain⟩ := decodePackedLoop_spec _ _ hloop
      refine ⟨rfl, ⟨by rw [hv]; rfl, hne (List.cons_ne_nil _ _)⟩, ?_⟩
      rw [hv]
      exact hplain
    next => cases h
  · rw [if_neg hpacked] at h ⊢
    cases htype : fd.type <;> rw [htype] at h <;> dsimp only at h
    case message | group => cases h
    -- each decoder sets a member that is not the message
    case int32 | int64 | uint32 | uint64 | bool | enum =>
      apply decodeEach_spec _ h
      intro v v' hv
      cases hv
      rfl
    -- two passes, the second over what the first has set
    case sint32 | sint64 =>
      unfold decodeVarintWithZigZag at h
      obtain ⟨f₀, hf₀, hf₁⟩ := Option.bind_eq_some_iff.mp h
      have hspec₀ := decodeEach_spec (fun v v' hv => by cases hv; rfl) hf₀
      have hspec₁ := decodeEach_spec (fun v v' hv => by split at hv <;> cases hv; rfl) hf₁
      refine ⟨?_, hspec₁.2.1.trans hspec₀.2.1, fun hp => hspec₁.2.2 (hspec₀.2.2 hp)⟩
      rw [hspec₁.1, hspec₀.1]
    case fixed32 | fixed64 | sfixed32 | sfixed64 | double | float =>
      apply decodeEach_spec _ h
      intro v v' hv
      cases hv
      rfl
    case string | bytes =>
      apply decodeEach_spec _ h
      intro v v' hv
      dsimp only at hv
      split at hv <;> cases hv
      rfl

/-! ## Embedded messages

Each value's bytes are parsed into a message that is added to the world. -/

/-- `DecodeMessage` fails, or parses the first message and goes on with the others. -/
theorem decodeMessages_cons {t : Nat} (h : decodeMessages env t w (v :: values) = some (w₁, values')) :
    ∃ m us, (newMessage t).init env.pool (env.junk.inside w.messages.length) w.mem (embeddedSlice v) = some (true, m) ∧
      decodeMessages env t { w with messages := w.messages ++ [m] } values = some (w₁, us) ∧
      values' = { v with m := some w.messages.length } :: us := by
  unfold decodeMessages at h
  split at h
  next m hm =>
    obtain ⟨r, hr, heq⟩ := Option.map_eq_some_iff.mp h
    obtain ⟨rfl, rfl⟩ := Prod.mk.inj heq
    exact ⟨m, r.2, hm, hr, rfl⟩
  next => cases h

/-- As many values as before, in a world that grew. -/
theorem decodeMessages_spec {t : Nat} (h : decodeMessages env t w values = some (w₁, values')) :
    Extends p w w₁ ∧ values'.length = values.length := by
  induction values generalizing w values' with
  | nil =>
      cases h
      exact ⟨Extends.refl, rfl⟩
  | cons v values ih =>
      obtain ⟨m, us, -, hrest, rfl⟩ := decodeMessages_cons h
      obtain ⟨hext, hlen⟩ := ih hrest
      exact ⟨(extends_append m).trans hext, by rw [List.length_cons, List.length_cons, hlen]⟩

/-! ## Fields

Both kinds together. -/

/-- What a decoded field is. -/
theorem decodeField_spec (hfd : f.fieldDescriptor = some fd) (h : decodeField env w f = some (w₁, f₁)) :
    f₁ = { f with decoded := true, values := f₁.values } ∧ Extends p w w₁ ∧
      (if fd.packed then f.values.length = 1 ∧ f₁.values ≠ [] else f₁.values.length = f.values.length) := by
  by_cases htype : fd.type = .message
  · rw [decodeField_message hfd htype] at h
    obtain ⟨r, hr, heq⟩ := Option.map_eq_some_iff.mp h
    obtain ⟨rfl, rfl⟩ := Prod.mk.inj heq
    obtain ⟨hext, hlen⟩ := decodeMessages_spec (p := p) hr
    have hpacked : ¬ fd.packed = true := fun h => packed_ne_message h htype
    rw [if_neg hpacked]
    exact ⟨rfl, hext, hlen⟩
  · rw [decodeField_inPlace hfd htype] at h
    obtain ⟨g, hg, heq⟩ := Option.map_eq_some_iff.mp h
    obtain ⟨rfl, rfl⟩ := Prod.mk.inj heq
    obtain ⟨hhead, hlen, -⟩ := decodeInPlace_spec hg
    exact ⟨hhead, Extends.refl, hlen⟩

/-- What is decoded has a descriptor, -/
theorem descriptor_of_decodes {r : World × Field} (h : decodeField env w f = some r) : ∃ fd, f.fieldDescriptor = some fd := by
  unfold decodeField at h
  split at h
  next => cases h
  next fd hfd => exact ⟨fd, hfd⟩

/-- and all but the flag and the values is as it was. -/
theorem decodeField_header {r : World × Field} (h : decodeField env w f = some r) :
    r.2 = { f with decoded := true, values := r.2.values } ∧ ∀ q, Extends q w r.1 := by
  obtain ⟨fd, hfd⟩ := descriptor_of_decodes h
  exact ⟨(decodeField_spec (p := 0) hfd h).1, fun q => (decodeField_spec (p := q) hfd h).2.1⟩

end CompactProtobuf
end Snippets
