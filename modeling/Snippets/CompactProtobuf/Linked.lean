import Snippets.CompactProtobuf.Edits
import Snippets.Lib.Run

/-!
# `CompactProtobuf.Linked` — messages that were parsed, and what they point to

The values of a message field that was not decoded point to no message, and there is one at least; those of a decoded one
point to messages that were made after the message that holds them. That is so for a message that `FromString` has parsed,
whatever the bytes, and for the messages embedded in it, and every call but `FromString` keeps it (`linked_of_run`).
-/

namespace Snippets

open Lib

namespace CompactProtobuf

variable {env : Env} {w w' w₀ w₁ : World} {p q n₀ : MessagePtr} {m : Message} {d : Descriptor} {fd : FieldDescriptor}
  {f f₁ : Field} {v : Value} {values values' : List Value} {junk : Junk} {mem : Mem} {pool : Pool} {slice : Slice}
  {fields fields' : FieldMap} {st : ParserState} {t data len : Nat}

/-! ## What the parser leaves

Fields with a value each, none of which points to a message. -/

/-- A field as the parser leaves it. -/
structure ParsedField (d : Descriptor) (f : Field) : Prop where
  closed : f.decoded = false
  plain : Plain f.values
  nonempty : f.values ≠ []
  fieldDescriptor : f.fieldDescriptor = d.findFieldByNumber f.id
  unknown : f.unknown = f.fieldDescriptor.isNone

/-- A record is appended to a field, whose older values may have been dropped. -/
theorem parsedField_fastAppend (found : Found) (hclosed : f.decoded = false) (hplain : Plain f.values)
    (hdescriptor : f.fieldDescriptor = d.findFieldByNumber f.id) (hunknown : f.unknown = f.fieldDescriptor.isNone) :
    ParsedField d (f.fastAppend found v) := by
  refine ⟨hclosed, ?_, List.append_ne_nil_of_right_ne_nil _ (List.cons_ne_nil _ _), hdescriptor, hunknown⟩
  intro u hu
  rcases List.mem_append.mp hu with hu | hu
  · exact hplain u hu
  · rw [List.mem_singleton.mp hu]
    split <;> rfl

/-- Filling keeps that. -/
theorem fillField_parsed (h : ∀ f ∈ fields, ParsedField d f) (hfill : fillField junk d fields st = some fields') :
    ∀ f ∈ fields', ParsedField d f := by
  have hnil : Plain [] := fun v hv => absurd hv List.not_mem_nil
  intro g hg
  rcases fillField_cases hfill with ⟨-, rfl⟩ | ⟨f₀, -, rfl | rfl⟩
  · rcases FieldMap.mem_insert.mp hg with rfl | hg
    · exact parsedField_fastAppend _ rfl hnil rfl rfl
    · exact h g hg
  · obtain ⟨f, hf, rfl | ⟨-, rfl⟩⟩ := FieldMap.mem_modify hg
    · exact h g hf
    · have hparsed := h f hf
      exact parsedField_fastAppend _ hparsed.closed hparsed.plain hparsed.fieldDescriptor hparsed.unknown
  · obtain ⟨f, hf, rfl | ⟨-, rfl⟩⟩ := FieldMap.mem_modify hg
    · exact h g hf
    · have hparsed := h f hf
      exact parsedField_fastAppend _ hparsed.closed hnil hparsed.fieldDescriptor hparsed.unknown

/-- **What a successful parse leaves**, whatever the bytes: known fields, in order, none of them decoded. -/
theorem init_parsed (h : (newMessage t).init pool junk mem slice = some (true, m)) :
    m.descriptor = t ∧ Sorted m.fields ∧ ∀ f ∈ m.fields, ∃ fd ∈ (pool t).fields, f.fieldDescriptor = some fd ∧ f.id = fd.number ∧
      ParsedField (pool t) f := by
  obtain ⟨fields, hparse, rfl⟩ := init_inv h
  obtain ⟨its, st', hrun⟩ := parseLoop_run (parseMessageLazy_loop hparse).2
  obtain ⟨hs, hparsed⟩ := hrun.invariant (I := fun s : ParserState × FieldMap => Sorted s.2 ∧ ∀ f ∈ s.2, ParsedField (pool t) f)
    (fun s _ s' hI hit => by
      have hfill := (parseStep_some hit).2.2
      exact ⟨fillField_sorted hI.1 hfill, fillField_parsed hI.2 hfill⟩)
    ⟨List.Pairwise.nil, fun _ hf => absurd hf List.not_mem_nil⟩
  obtain ⟨hknown, -, hd⟩ := splitUnknown_eq hs t
  refine ⟨hd, ?_, ?_⟩
  · rw [hknown]
    exact List.Pairwise.filter _ hs
  · intro f hf
    rw [hknown] at hf
    obtain ⟨hmem, hflag⟩ := List.mem_filter.mp hf
    have hfield := hparsed f hmem
    have hsome := hfield.unknown
    rw [show f.unknown = false by simpa using hflag] at hsome
    cases hfd : f.fieldDescriptor with
    | none =>
        rw [hfd] at hsome
        cases hsome
    | some fd =>
        have hfind : (pool t).findFieldByNumber f.id = some fd := hfield.fieldDescriptor.symm.trans hfd
        have hnumber : (fd.number : Int) = f.id := by simpa using List.find?_some hfind
        exact ⟨fd, List.mem_of_find?_eq_some hfind, rfl, hnumber.symm, hfield⟩

/-! ## The invariant

Pointers go to messages that were made later, so following them comes to an end. -/

/-- A field of the message at `q`. -/
structure LinkedField (w : World) (n₀ q : MessagePtr) (fd : FieldDescriptor) (f : Field) : Prop where
  id : f.id = fd.number
  fieldDescriptor : f.fieldDescriptor = some fd
  closed : f.decoded = false → Plain f.values ∧ f.values ≠ []
  links : fd.type = .message → f.decoded = true → ∀ v ∈ f.values, ∃ r, v.m = some r ∧ q < r ∧ n₀ ≤ r ∧ r < w.messages.length

/-- An ordered map of linked fields of the descriptor. -/
structure LinkedMessage (env : Env) (w : World) (n₀ q : MessagePtr) (m : Message) : Prop where
  sorted : Sorted m.fields
  fields : ∀ f ∈ m.fields, ∃ fd ∈ (env.pool m.descriptor).fields, LinkedField w n₀ q fd f

/-- The message at `p`, and every message from `n₀` on, point to messages behind them. -/
structure Linked (env : Env) (p n₀ : MessagePtr) (w : World) : Prop where
  lt : p < n₀
  le : n₀ ≤ w.messages.length
  messages : ∀ q m, q = p ∨ n₀ ≤ q → w.messages[q]? = some m → LinkedMessage env w n₀ q m

/-- A field stays linked in a larger world, -/
theorem LinkedField.mono (h : LinkedField w n₀ q fd f) (hlen : w.messages.length ≤ w'.messages.length) :
    LinkedField w' n₀ q fd f := by
  refine ⟨h.id, h.fieldDescriptor, h.closed, ?_⟩
  intro htype hdec v hv
  obtain ⟨r, hr, hqr, hn, hlt⟩ := h.links htype hdec v hv
  exact ⟨r, hr, hqr, hn, Nat.lt_of_lt_of_le hlt hlen⟩

/-- and so does a message. -/
theorem LinkedMessage.mono (h : LinkedMessage env w n₀ q m) (hlen : w.messages.length ≤ w'.messages.length) :
    LinkedMessage env w' n₀ q m := by
  refine ⟨h.sorted, ?_⟩
  intro f hf
  obtain ⟨fd, hfd, hlinked⟩ := h.fields f hf
  exact ⟨fd, hfd, hlinked.mono hlen⟩

/-- A parsed message is linked, -/
theorem linked_of_init (h : (newMessage t).init env.pool junk mem slice = some (true, m)) : LinkedMessage env w n₀ q m := by
  obtain ⟨hd, hs, hfields⟩ := init_parsed h
  refine ⟨hs, ?_⟩
  intro f hf
  obtain ⟨fd, hfd, hdescriptor, hid, hparsed⟩ := hfields f hf
  refine ⟨fd, by rw [hd]; exact hfd, hid, hdescriptor, fun _ => ⟨hparsed.plain, hparsed.nonempty⟩, ?_⟩
  intro _ hdec
  rw [hparsed.closed] at hdec
  cases hdec

/-- a new one too. -/
theorem linked_new : LinkedMessage env w n₀ q (newMessage t) := ⟨List.Pairwise.nil, fun _ hf => absurd hf List.not_mem_nil⟩

/-- The field of a number is linked. -/
theorem LinkedMessage.of_id (h : LinkedMessage env w n₀ q m) (hfd : fd ∈ (env.pool m.descriptor).fields)
    (hf : m.fields.find fd.number = some f) : LinkedField w n₀ q fd f := by
  obtain ⟨hmem, hid⟩ := FieldMap.find_some hf
  obtain ⟨gd, hgd, hlinked⟩ := h.fields f hmem
  have hnumber : gd.number = fd.number := Int.ofNat_inj.mp (hlinked.id.symm.trans hid)
  rw [← Descriptor.eq_of_number hgd hfd hnumber]
  exact hlinked

/-- One more message. -/
theorem Linked.append (h : Linked env p n₀ w) (hnew : ∀ u : World, LinkedMessage env u n₀ w.messages.length m) :
    Linked env p n₀ { w with messages := w.messages ++ [m] } := by
  have hlen : w.messages.length ≤ (w.messages ++ [m]).length := by
    rw [List.length_append]
    exact Nat.le_add_right _ _
  refine ⟨h.lt, Nat.le_trans h.le hlen, ?_⟩
  intro q m' hq hm'
  have hm'' : (w.messages ++ [m])[q]? = some m' := hm'
  by_cases hlt : q < w.messages.length
  · rw [List.getElem?_append_left hlt] at hm''
    exact (h.messages q m' hq hm'').mono hlen
  · obtain rfl : q = w.messages.length := by
      have hbound := (List.getElem?_eq_some_iff.mp hm'').1
      rw [List.length_append, List.length_singleton] at hbound
      exact Nat.le_antisymm (Nat.le_of_lt_succ hbound) (Nat.le_of_not_lt hlt)
    rw [List.getElem?_concat_length] at hm''
    cases hm''
    exact hnew _

/-- A change of one message. -/
theorem Linked.change {g : FieldMap → FieldMap} (h : Linked env p n₀ w) (hm : w.messages[q]? = some m)
    (hg : LinkedMessage env w n₀ q m → LinkedMessage env w n₀ q { m with fields := g m.fields }) :
    Linked env p n₀ (w.change q g) := by
  refine ⟨h.lt, by rw [length_change]; exact h.le, ?_⟩
  intro r m' hr hm'
  by_cases hrq : r = q
  · subst hrq
    rw [change_self hm] at hm'
    cases hm'
    exact (hg (h.messages r m hr hm)).mono (by rw [length_change])
  · rw [change_other hrq] at hm'
    exact (h.messages r m' hr hm').mono (by rw [length_change])

/-- Putting a field in, -/
theorem LinkedMessage.insert (h : LinkedMessage env w n₀ q m) (hfd : fd ∈ (env.pool m.descriptor).fields)
    (hnone : m.fields.find fd.number = none) (hf : LinkedField w n₀ q fd f) :
    LinkedMessage env w n₀ q { m with fields := FieldMap.insert f m.fields } := by
  refine ⟨sorted_insert h.sorted (by rw [hf.id]; exact hnone), ?_⟩
  intro g hg
  rcases FieldMap.mem_insert.mp hg with rfl | hg
  · exact ⟨fd, hfd, hf⟩
  · exact h.fields g hg

/-- storing one -/
theorem LinkedMessage.store (h : LinkedMessage env w n₀ q m) (hfd : fd ∈ (env.pool m.descriptor).fields)
    (hf : LinkedField w n₀ q fd f) : LinkedMessage env w n₀ q { m with fields := m.fields.modify f.id fun _ => f } := by
  refine ⟨sorted_modify h.sorted fun _ _ _ => rfl, ?_⟩
  intro g hg
  obtain ⟨g', hg', rfl | ⟨-, rfl⟩⟩ := FieldMap.mem_modify hg
  · exact h.fields g hg'
  · exact ⟨fd, hfd, hf⟩

/-- and erasing one keep it. -/
theorem LinkedMessage.erase (h : LinkedMessage env w n₀ q m) (id : Int) :
    LinkedMessage env w n₀ q { m with fields := m.fields.erase id } :=
  ⟨h.sorted.filter _, fun f hf => h.fields f (List.mem_of_mem_filter hf)⟩

/-! ## Edits

The calls, edit by edit. -/

/-- The messages that are decoded come last. -/
theorem decodeMessages_linked {junk : Junk} (h : Linked env p n₀ w)
    (hdecode : decodeMessages (env.withJunk junk) t w values = some (w₁, values')) :
    Linked env p n₀ w₁ ∧ ∀ v ∈ values', ∃ r, v.m = some r ∧ w.messages.length ≤ r ∧ r < w₁.messages.length := by
  induction values generalizing w values' with
  | nil =>
      cases hdecode
      exact ⟨h, fun v hv => absurd hv List.not_mem_nil⟩
  | cons v values ih =>
      obtain ⟨m, us, hinit, hrest, rfl⟩ := decodeMessages_cons hdecode
      obtain ⟨hlinked, hlast⟩ := ih (h.append fun u => linked_of_init hinit) hrest
      have hgrown : w.messages.length < (w.messages ++ [m]).length := by
        rw [List.length_append]
        exact Nat.lt_succ_self _
      have hbound := (decodeMessages_spec (p := 0) hrest).1.length
      refine ⟨hlinked, ?_⟩
      intro u hu
      rcases List.mem_cons.mp hu with rfl | hu
      · exact ⟨_, rfl, Nat.le_refl _, Nat.lt_of_lt_of_le hgrown hbound⟩
      · obtain ⟨r, hr, hle, hlt⟩ := hlast u hu
        exact ⟨r, hr, Nat.le_trans (Nat.le_of_lt hgrown) hle, hlt⟩

/-- Decoding a field, of whatever message, keeps the messages linked; those that a message field points to come last. -/
theorem decodeField_linked {junk : Junk} (h : Linked env p n₀ w) (hdecode : decodeField (env.withJunk junk) w f = some (w₁, f₁)) :
    Linked env p n₀ w₁ ∧ ∀ fd, f.fieldDescriptor = some fd → fd.type = .message →
      ∀ v ∈ f₁.values, ∃ r, v.m = some r ∧ w.messages.length ≤ r ∧ r < w₁.messages.length := by
  obtain ⟨fd, hfd⟩ := descriptor_of_decodes hdecode
  by_cases htype : fd.type = .message
  · rw [decodeField_message hfd htype] at hdecode
    obtain ⟨r, hr, heq⟩ := Option.map_eq_some_iff.mp hdecode
    cases heq
    obtain ⟨hlinked, hlast⟩ := decodeMessages_linked h hr
    exact ⟨hlinked, fun _ _ _ => hlast⟩
  · rw [decodeField_inPlace hfd htype] at hdecode
    obtain ⟨g, -, heq⟩ := Option.map_eq_some_iff.mp hdecode
    cases heq
    refine ⟨h, fun gd hgd htype' => ?_⟩
    rw [hfd] at hgd
    cases hgd
    exact absurd htype' htype

/-- Making a value keeps the messages that are there. -/
theorem Linked.made (h : Linked env p n₀ w) (hmade : w₁ = w ∨ ∃ v, Made w w₁ q fd v) :
    Linked env p n₀ w₁ ∧ w.messages.length ≤ w₁.messages.length := by
  rcases world_of_made hmade with rfl | rfl
  · exact ⟨h, Nat.le_refl _⟩
  · refine ⟨h.append fun u => linked_new, ?_⟩
    show w.messages.length ≤ (w.messages ++ [_]).length
    rw [List.length_append]
    exact Nat.le_add_right _ _

/-- A value that a call makes for a message field points to a message behind all others. -/
theorem Made.link (h : Made w w₁ q fd v) (hn : n₀ ≤ w.messages.length) (hq : q < w.messages.length) (htype : fd.type = .message) :
    ∃ r, v.m = some r ∧ q < r ∧ n₀ ≤ r ∧ r < w₁.messages.length := by
  rcases h.world with ⟨hne, -⟩ | ⟨-, hm, rfl⟩
  · exact absurd htype hne
  · refine ⟨_, hm, hq, hn, ?_⟩
    show w.messages.length < (w.messages ++ [_]).length
    rw [List.length_append]
    exact Nat.lt_succ_self _

/-- **An edit keeps the messages linked.** -/
theorem Linked.edit (h : Linked env p n₀ w) (hedit : Edit env q w w') : Linked env p n₀ w' := by
  cases hedit with
  | @decode junk m fd f f₁ w₁ hm hfd hf hdec hdecode =>
      obtain ⟨hheader, hext⟩ := decodeField_header hdecode
      have hheader' : f₁ = { f with decoded := true, values := f₁.values } := hheader
      obtain ⟨h₁, hlast⟩ := decodeField_linked h hdecode
      refine h₁.change ((hext (q + 1)).old q m (Nat.ne_of_lt (Nat.lt_succ_self q)) hm) fun hlinked => ?_
      have hfield := hlinked.of_id hfd hf
      refine hlinked.store hfd ?_
      rw [hheader']
      refine ⟨hfield.id, hfield.fieldDescriptor, fun hclosed => ?_, ?_⟩
      · cases hclosed
      · intro htype _ v hv
        obtain ⟨r, hr, hle, hlt⟩ := hlast fd hfield.fieldDescriptor htype v hv
        exact ⟨r, hr, Nat.lt_of_lt_of_le (List.getElem?_eq_some_iff.mp hm).1 hle, Nat.le_trans h.le hle, hlt⟩
  -- a new field, whose value is a scalar or points to the new message
  | @insert m fd w₁ v wireType hm hfd hnone hmade hwire =>
      obtain ⟨h₁, -⟩ := h.made (Or.inr ⟨_, hmade⟩)
      have hm₁ := found_of_made (Or.inr ⟨_, hmade⟩) hm
      refine h₁.change hm₁ fun hlinked => hlinked.insert hfd hnone ⟨rfl, rfl, ?_, ?_⟩
      · intro hclosed
        cases hclosed
      · intro htype _ u hu
        rw [List.mem_singleton.mp hu]
        exact hmade.link h.le (List.getElem?_eq_some_iff.mp hm).1 htype
  -- the values of a decoded field, some of them new
  | @revalue m fd f w₁ values hm hfd hf hdec hworld hne hsingle hvalues =>
      obtain ⟨h₁, hlen⟩ := h.made hworld
      have hm₁ := found_of_made hworld hm
      refine h₁.change hm₁ fun hlinked => ?_
      have hfield := hlinked.of_id hfd hf
      refine hlinked.store hfd ⟨hfield.id, hfield.fieldDescriptor, ?_, ?_⟩
      · intro hclosed
        rw [show f.decoded = false from hclosed] at hdec
        cases hdec
      · intro htype _ v hv
        rcases hvalues v hv with hv | hmade
        · exact hfield.links htype hdec v hv
        · exact hmade.link h.le (List.getElem?_eq_some_iff.mp hm).1 htype
  | erase hm hfd hf => exact h.change hm fun hlinked => hlinked.erase _

/-! ## Runs

From `FromString` on, every message that is reached is linked. -/

/-- **A message that was parsed is linked**, after every run of calls. -/
theorem linked_of_run {cs : List (MessagePtr × Call)} (hfresh : w₀.messages[p]? = some (newMessage t))
    (hfrom : w₀.fromString env.pool env.junk p data len = some (w₁, true))
    (hrun : Run (CallStep env (fun c => !c.parses) 0) w₁ cs w) : Linked env p w₀.messages.length w := by
  have hlt := (List.getElem?_eq_some_iff.mp hfresh).1
  unfold World.fromString at hfrom
  rw [hfresh] at hfrom
  obtain ⟨⟨ok, m⟩, hinit, heq⟩ := Option.map_eq_some_iff.mp hfrom
  cases heq
  have hstart : Linked env p w₀.messages.length { w₀ with messages := w₀.messages.set p m } := by
    refine ⟨hlt, by rw [List.length_set], ?_⟩
    intro q m' hq hm'
    have hm'' : (w₀.messages.set p m)[q]? = some m' := hm'
    obtain rfl : q = p := by
      have hbound := (List.getElem?_eq_some_iff.mp hm'').1
      rw [List.length_set] at hbound
      exact hq.resolve_right (Nat.not_le_of_lt hbound)
    rw [List.getElem?_set_self hlt] at hm''
    cases hm''
    exact linked_of_init hinit
  refine hrun.invariant (I := Linked env p w₀.messages.length) ?_ hstart
  intro u c u' h hstep
  exact hstep.invariant (I := Linked env p w₀.messages.length) (fun _ hc => by simpa using hc)
    (fun _ _ _ _ h hedit => h.edit hedit) h

end CompactProtobuf
end Snippets
