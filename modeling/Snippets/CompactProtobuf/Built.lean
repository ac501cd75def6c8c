import Snippets.CompactProtobuf.Edits
import Snippets.Lib.Run

/-!
# `CompactProtobuf.Built` — messages that were built by calls

A message that was made by `Add` and `Set` calls alone holds decoded fields of its descriptor, each with a value at least, and
points to messages that came after it. `built_of_run` is that invariant along a run of calls on a new message and on the
messages embedded in it.
-/

namespace Snippets

open Lib

namespace CompactProtobuf

variable {env : Env} {w w' w₁ : World} {p q : MessagePtr} {m : Message} {fd : FieldDescriptor} {f : Field} {v : Value}

/-! ## The invariant -/

/-- A decoded field of the descriptor, with values of its type. -/
structure BuiltField (w : World) (p : MessagePtr) (fd : FieldDescriptor) (f : Field) : Prop where
  decoded : f.decoded = true
  unknown : f.unknown = false
  id : f.id = fd.number
  wireType : getFieldWireType fd = some f.wireType
  fieldDescriptor : f.fieldDescriptor = some fd
  nonempty : f.values ≠ []
  single : fd.isRepeated = false → f.values.length = 1
  values : ∀ v ∈ f.values, BuiltValue w p fd v

/-- All fields of a message are built ones, in order, and none is unknown. -/
structure BuiltMessage (env : Env) (w : World) (p : MessagePtr) (m : Message) : Prop where
  sorted : Sorted m.fields
  unknownFields : m.unknownFields = none
  fields : ∀ f ∈ m.fields, ∃ fd ∈ (env.pool m.descriptor).fields, BuiltField w p fd f

/-- The messages from `p` on were built by calls. -/
def Built (env : Env) (p : MessagePtr) (w : World) : Prop :=
  ∀ q m, p ≤ q → w.messages[q]? = some m → BuiltMessage env w q m

/-! ## Worlds with the same messages, or more

What was built stays built when messages come, and when one of them gets other fields. -/

/-- Every message is still there, of the same type. -/
def Keeps (w w' : World) : Prop :=
  ∀ (q : MessagePtr) (m : Message), w.messages[q]? = some m → ∃ m', w'.messages[q]? = some m' ∧ m'.descriptor = m.descriptor

/-- Other fields. -/
theorem keeps_change {g : FieldMap → FieldMap} : Keeps w (w.change p g) := by
  intro q m hm
  by_cases hq : q = p
  · subst hq
    exact ⟨_, change_self hm, rfl⟩
  · exact ⟨m, (change_other hq).trans hm, rfl⟩

/-- Another message. -/
theorem keeps_append (m : Message) : Keeps w { w with messages := w.messages ++ [m] } := by
  intro q m' hm'
  refine ⟨m', ?_, rfl⟩
  show (w.messages ++ [m])[q]? = some m'
  rw [List.getElem?_append_left (List.getElem?_eq_some_iff.mp hm').1]
  exact hm'

/-- One thing after another. -/
theorem Keeps.trans {w₁ : World} (h : Keeps w w₁) (h' : Keeps w₁ w') : Keeps w w' := by
  intro q m hm
  obtain ⟨m₁, hm₁, hd₁⟩ := h q m hm
  obtain ⟨m', hm', hd'⟩ := h' q m₁ hm₁
  exact ⟨m', hm', hd'.trans hd₁⟩

/-- A value that points to a message still does. -/
theorem BuiltValue.mono (h : BuiltValue w p fd v) (hk : Keeps w w') : BuiltValue w' p fd v := by
  refine ⟨h.word, ?_⟩
  intro htype
  obtain ⟨q, m, hv, hlt, hm, hd⟩ := h.message htype
  obtain ⟨m', hm', hd'⟩ := hk q m hm
  exact ⟨q, m', hv, hlt, hm', hd'.trans hd⟩

/-- A field stays a built one. -/
theorem BuiltField.mono (h : BuiltField w p fd f) (hk : Keeps w w') : BuiltField w' p fd f :=
  { h with values := fun v hv => (h.values v hv).mono hk }

/-- A message stays a built one. -/
theorem BuiltMessage.mono (h : BuiltMessage env w p m) (hk : Keeps w w') : BuiltMessage env w' p m := by
  refine ⟨h.sorted, h.unknownFields, ?_⟩
  intro f hf
  obtain ⟨fd, hfd, hbuilt⟩ := h.fields f hf
  exact ⟨fd, hfd, hbuilt.mono hk⟩

/-- A change of one message that keeps it built. -/
theorem Built.change {g : FieldMap → FieldMap} (h : Built env p w) (hm : w.messages[q]? = some m)
    (hbuilt : BuiltMessage env w q { m with fields := g m.fields }) : Built env p (w.change q g) := by
  intro r m' hr hm'
  by_cases hrq : r = q
  · subst hrq
    rw [change_self hm] at hm'
    cases hm'
    exact hbuilt.mono keeps_change
  · rw [change_other hrq] at hm'
    exact (h r m' hr hm').mono keeps_change

/-- A message gets a new field. -/
theorem Built.insert (h : Built env p w) (hp : p ≤ q) (hm : w.messages[q]? = some m)
    (hfd : fd ∈ (env.pool m.descriptor).fields) (hnone : m.fields.find fd.number = none) (hf : BuiltField w q fd f) :
    Built env p (w.change q (FieldMap.insert f)) := by
  have hmsg := h q m hp hm
  apply h.change hm
  refine ⟨sorted_insert hmsg.sorted (by rw [hf.id]; exact hnone), hmsg.unknownFields, ?_⟩
  intro g hg
  rcases FieldMap.mem_insert.mp hg with rfl | hg
  · exact ⟨fd, hfd, hf⟩
  · exact hmsg.fields g hg

/-- A field of a message is replaced. -/
theorem Built.store (h : Built env p w) (hp : p ≤ q) (hm : w.messages[q]? = some m)
    (hfd : fd ∈ (env.pool m.descriptor).fields) (hf : BuiltField w q fd f) : Built env p (w.store q f) := by
  have hmsg := h q m hp hm
  apply h.change hm
  refine ⟨sorted_modify hmsg.sorted fun _ _ _ => rfl, hmsg.unknownFields, ?_⟩
  intro g hg
  obtain ⟨g', hg', rfl | ⟨-, rfl⟩⟩ := FieldMap.mem_modify hg
  · exact hmsg.fields g hg'
  · exact ⟨fd, hfd, hf⟩

/-- A new message. -/
theorem Built.append (h : Built env p w) (t : Nat) : Built env p { w with messages := w.messages ++ [newMessage t] } := by
  intro q m hq hm
  have hm' : (w.messages ++ [newMessage t])[q]? = some m := hm
  by_cases hlt : q < w.messages.length
  · rw [List.getElem?_append_left hlt] at hm'
    exact (h q m hq hm').mono (keeps_append _)
  · rw [List.getElem?_append_right (Nat.le_of_not_lt hlt)] at hm'
    have hmem := List.mem_of_getElem? hm'
    rw [List.mem_singleton.mp hmem]
    exact ⟨List.Pairwise.nil, rfl, fun f hf => absurd hf List.not_mem_nil⟩

/-- What the map holds under the number of a field. -/
theorem Built.find (h : Built env p w) (hp : p ≤ q) (hm : w.messages[q]? = some m) (hfd : fd ∈ (env.pool m.descriptor).fields)
    (hf : m.fields.find fd.number = some f) : BuiltField w q fd f := by
  obtain ⟨hmem, hid⟩ := FieldMap.find_some hf
  obtain ⟨gd, hgd, hbuilt⟩ := (h q m hp hm).fields f hmem
  have hnumber : gd.number = fd.number := Int.ofNat_inj.mp (hbuilt.id.symm.trans hid)
  rw [Descriptor.eq_of_number hgd hfd hnumber] at hbuilt
  exact hbuilt

/-- Every field of the message is decoded. -/
def AllDecoded (w : World) (p : MessagePtr) : Prop := ∀ m, w.messages[p]? = some m → ∀ f ∈ m.fields, f.decoded = true

/-- There is nothing left to decode. -/
theorem Built.allDecoded (h : Built env p w) (hp : p ≤ q) : AllDecoded w q := by
  intro m hm f hf
  obtain ⟨fd, -, hbuilt⟩ := (h q m hp hm).fields f hf
  exact hbuilt.decoded

/-! ## Calls -/

/-- A new field with its first value. -/
theorem newField_built {wireType : WireType} (hwire : getFieldWireType fd = some wireType) (hv : BuiltValue w p fd v) :
    BuiltField w p fd (newField fd wireType v) where
  decoded := rfl
  unknown := rfl
  id := rfl
  wireType := hwire
  fieldDescriptor := rfl
  nonempty := List.cons_ne_nil _ _
  single := fun _ => rfl
  values := fun u hu => by rw [List.mem_singleton.mp hu]; exact hv

/-- A built field with other values. -/
theorem BuiltField.withValues {values : List Value} (h : BuiltField w p fd f) (hne : values ≠ [])
    (hsingle : fd.isRepeated = false → values.length = 1) (hvalues : ∀ v ∈ values, BuiltValue w p fd v) :
    BuiltField w p fd { f with values := values } where
  decoded := h.decoded
  unknown := h.unknown
  id := h.id
  wireType := h.wireType
  fieldDescriptor := h.fieldDescriptor
  nonempty := hne
  single := hsingle
  values := hvalues

/-- Without one of its fields. -/
theorem BuiltMessage.erase (h : BuiltMessage env w p m) (id : Int) : BuiltMessage env w p { m with fields := m.fields.erase id } :=
  ⟨h.sorted.filter _, h.unknownFields, fun f hf => h.fields f (List.mem_of_mem_filter hf)⟩

/-- After a value has been made for an adder. -/
theorem Built.made (h : Built env p w) (hmade : w₁ = w ∨ ∃ v, Made w w₁ q fd v) : Built env p w₁ ∧ Keeps w w₁ := by
  rcases world_of_made hmade with rfl | rfl
  · exact ⟨h, fun r m hm => ⟨m, hm, rfl⟩⟩
  · exact ⟨h.append fd.messageType, keeps_append _⟩

/-- **An edit keeps the messages built**, and the type of each. -/
theorem Built.edit (h : Built env p w) (hp : p ≤ q) (hedit : Edit env q w w') : Built env p w' ∧ Keeps w w' := by
  cases hedit with
  | decode hm hfd hf hdec hdecode =>
      have hdecoded := h.allDecoded hp _ hm _ (FieldMap.find_some hf).1
      rw [hdec] at hdecoded
      cases hdecoded
  | insert hm hfd hnone hmade hwire =>
      obtain ⟨h₁, hkeeps⟩ := h.made (Or.inr ⟨_, hmade⟩)
      have hm₁ := found_of_made (Or.inr ⟨_, hmade⟩) hm
      exact ⟨h₁.insert hp hm₁ hfd hnone (newField_built hwire hmade.value), hkeeps.trans keeps_change⟩
  | revalue hm hfd hf hdec hworld hne hsingle hvalues =>
      obtain ⟨h₁, hkeeps⟩ := h.made hworld
      have hm₁ := found_of_made hworld hm
      have hbuilt := h₁.find hp hm₁ hfd hf
      refine ⟨h₁.store hp hm₁ hfd (hbuilt.withValues ?_ ?_ ?_), hkeeps.trans keeps_change⟩
      · exact hne hbuilt.nonempty
      · exact fun hrep => hsingle hrep (hbuilt.single hrep)
      · intro v hv
        rcases hvalues v hv with hv | hmade
        · exact hbuilt.values v hv
        · exact hmade.value
  | erase hm hfd hf => exact ⟨h.change hm ((h q _ hp hm).erase _), keeps_change⟩

/-- A call that builds does not parse. -/
theorem Call.builds_parses {c : Call} (h : c.builds = true) : c.parses = false := by cases c <;> first | rfl | cases h

/-- **Every message built by calls is built**: from a new message at the end of the heap, by calls on it and on the messages
    that come after it. -/
theorem built_of_run {t : Nat} {cs : List (MessagePtr × Call)} (hlast : p + 1 = w.messages.length)
    (hnew : w.messages[p]? = some (newMessage t)) (hrun : Run (CallStep env Call.builds p) w cs w') :
    Built env p w' ∧ ∃ m, w'.messages[p]? = some m ∧ m.descriptor = t := by
  apply hrun.invariant (I := fun u => Built env p u ∧ ∃ m, u.messages[p]? = some m ∧ m.descriptor = t)
  · rintro u c u' ⟨h, m, hm, hd⟩ hstep
    refine hstep.invariant (I := fun u => Built env p u ∧ ∃ m, u.messages[p]? = some m ∧ m.descriptor = t)
      (fun _ => Call.builds_parses) ?_ ⟨h, m, hm, hd⟩
    rintro q u u' hp ⟨h, m, hm, hd⟩ hedit
    obtain ⟨hbuilt, hkeeps⟩ := h.edit hp hedit
    obtain ⟨m', hm', hd'⟩ := hkeeps p m hm
    exact ⟨hbuilt, m', hm', hd'.trans hd⟩
  refine ⟨?_, newMessage t, hnew, rfl⟩
  intro q m hq hm
  have hlt := (List.getElem?_eq_some_iff.mp hm).1
  obtain rfl : q = p := by
    apply Nat.le_antisymm _ hq
    apply Nat.le_of_lt_succ
    rw [Nat.succ_eq_add_one, hlast]
    exact hlt
  rw [hnew] at hm
  cases hm
  exact ⟨List.Pairwise.nil, rfl, fun f hf => absurd hf List.not_mem_nil⟩

end CompactProtobuf
end Snippets
