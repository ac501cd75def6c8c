import Mathlib.Data.List.InsertIdx
import Mathlib.Logic.Function.Basic
import Snippets.CompactProtobuf.Accessors
import Snippets.CompactProtobuf.Progress
import Snippets.Lib.Run

/-!
# `CompactProtobuf.Repeated` — repeated fields are lists

What the integer, string and message calls on the repeated fields of a message are for: every field is a list of its own, to
which `Add` appends, in which `Set` replaces, and from which `Delete` removes (`Op.effect`). A message that was empty at first
behaves like these lists (`lists_of_run`): a field is in the map exactly when its list is not empty.

Fields of the deprecated type `group` have no wire type, so `AddMessage` asserts for them (`addMessage_group`).
-/

namespace Snippets

open Lib

namespace CompactProtobuf

/-! ## Calls

The calls on a repeated field, and how the lists answer them. -/

/-- An element: the two words of an integer, a string, or a message. -/
inductive Item
  | integer (low hi : Nat)
  | string (s : List UInt8)
  | message (q : Option MessagePtr)

/-- The calls that change a repeated field. -/
inductive Op
  | addInteger (name : String) (low hi : UInt32)
  | setInteger (name : String) (idx : Nat) (low hi : UInt32)
  | deleteInteger (name : String) (idx : Nat)
  | addString (name : String) (val : List UInt8)
  | setString (name : String) (idx : Nat) (val : List UInt8)
  | deleteString (name : String) (idx : Nat)
  | addMessage (name : String)
  | deleteMessage (name : String) (idx : Nat)

/-- The field a call is for. -/
def Op.name : Op → String
  | .addInteger name _ _ | .setInteger name _ _ _ | .deleteInteger name _ | .addString name _ | .setString name _ _
  | .deleteString name _ | .addMessage name | .deleteMessage name _ => name

/-- The position of `Set` and `Delete`. -/
def Op.idx : Op → Option Nat
  | .setInteger _ idx _ _ | .deleteInteger _ idx | .setString _ idx _ | .deleteString _ idx | .deleteMessage _ idx => some idx
  | .addInteger _ _ _ | .addString _ _ | .addMessage _ => none

/-- The types of the fields that a call is for. -/
def Op.kind : Op → FieldType → Bool
  | .addInteger _ _ _, type | .setInteger _ _ _ _, type | .deleteInteger _ _, type => type.isInteger
  | .addString _ _, type | .setString _ _ _, type | .deleteString _ _, type => type.isString
  | .addMessage _, type | .deleteMessage _ _, type => type = .message

/-- The call, with what it returns. -/
def Op.exec (env : Env) (w : World) (p : MessagePtr) : Op → Option (World × Option Item)
  | .addInteger name low hi => (w.addInteger env p name low hi).map fun w => (w, none)
  | .setInteger name idx low hi => (w.setInteger env p name idx low hi).map fun w => (w, none)
  | .deleteInteger name idx => (w.deleteInteger env p name idx).map fun r => (r.1, some (.integer r.2.1 r.2.2))
  | .addString name val => (w.addString env p name val).map fun w => (w, none)
  | .setString name idx val => (w.setString env p name idx val).map fun w => (w, none)
  | .deleteString name idx => (w.deleteString env p name idx).map fun r => (r.1, some (.string r.2))
  | .addMessage name => (w.addMessage env p name).map fun r => (r.1, some (.message r.2))
  | .deleteMessage name idx => (w.deleteMessage env p name idx).map fun r => (r.1, some (.message r.2))

/-- The `Get` of a field's type. -/
def World.getItem (env : Env) (w : World) (p : MessagePtr) (fd : FieldDescriptor) (idx : Nat) : Option (World × Item) :=
  if fd.type.isInteger then (w.getInteger env p fd.name idx).map fun r => (r.1, .integer r.2.1 r.2.2)
  else if fd.type.isString then (w.getString env p fd.name idx).map fun r => (r.1, .string r.2)
  else (w.getMessage env p fd.name idx).map fun r => (r.1, .message r.2)

/-! ## Lists

One list for each field. The lists are the specification, and name nothing of the message. -/

/-- The lists, by the names of the fields. -/
abbrev Lists := String → List Item

/-- An integer as a field of this type keeps it: the 32-bit types drop the high word. -/
def Item.ofWords (type : FieldType) (low hi : UInt32) : Item :=
  .integer low.toNat (if type = .fixed32 ∨ type = .sfixed32 then 0 else hi.toNat)

/-- What a call does to the list of its field, and returns; `new` is the message that `AddMessage` makes. -/
def Op.effect (type : FieldType) (new : MessagePtr) (xs : List Item) : Op → Option (List Item × Option Item)
  | .addInteger _ low hi => some (xs ++ [Item.ofWords type low hi], none)
  | .addString _ val => some (xs ++ [.string val], none)
  | .addMessage _ => some (xs ++ [.message (some new)], some (.message (some new)))
  | .setInteger _ idx low hi => if idx < xs.length then some (xs.set idx (Item.ofWords type low hi), none) else none
  | .setString _ idx val => if idx < xs.length then some (xs.set idx (.string val), none) else none
  | .deleteInteger _ idx | .deleteString _ idx | .deleteMessage _ idx => xs[idx]?.map fun x => (xs.eraseIdx idx, some x)

/-- The step relation of the lists. A new message is in no list. -/
def ListStep (d : Descriptor) (L : Lists) (call : Op × Option Item) (L' : Lists) : Prop :=
  ∃ fd ∈ d.fields, fd.name = call.1.name ∧ fd.isRepeated = true ∧ call.1.kind fd.type = true ∧
    ∃ new, (∀ gd ∈ d.fields, .message (some new) ∉ L gd.name) ∧
      ∃ xs, call.1.effect fd.type new (L fd.name) = some (xs, call.2) ∧ L' = Function.update L fd.name xs

/-- The calls on repeated fields, `Set` and `Delete` with an index below the field's size. -/
def ApiStep (env : Env) (p : MessagePtr) (t : Nat) (w : World) (call : Op × Option Item) (w' : World) : Prop :=
  (∃ fd ∈ (env.pool t).fields, fd.name = call.1.name ∧ fd.isRepeated = true ∧ call.1.kind fd.type = true) ∧
    (∀ idx, call.1.idx = some idx → ∃ w₁ n, w.getFieldSize env p call.1.name = some (w₁, n) ∧ idx < n) ∧
    call.1.exec env w p = some (w', call.2)

/-- What a client sees of the lists. -/
structure Agrees (env : Env) (p : MessagePtr) (t : Nat) (w : World) (L : Lists) : Prop where
  size : ∀ fd ∈ (env.pool t).fields, w.getFieldSize env p fd.name = some (w, (L fd.name).length)
  has : ∀ fd ∈ (env.pool t).fields, w.hasField env p fd.name = true ↔ L fd.name ≠ []
  get : ∀ fd ∈ (env.pool t).fields, ∀ idx x, (L fd.name)[idx]? = some x → w.getItem env p fd idx = some (w, x)
  step : ∀ op res L', ListStep (env.pool t) L (op, res) L' → ∃ r, op.exec env w p = some r

/-! ## The invariant

Every field holds the elements of its list, and a field that was never added to has none. -/

/-- The value of a field as an element. -/
def Value.item (type : FieldType) (v : Value) : Item :=
  match type.member with
  | some .varint | some .d => .integer (decodeUInt64 v.primitive).1 (decodeUInt64 v.primitive).2
  | some .f => .integer (decodeUInt64 v.f).1 (decodeUInt64 v.f).2
  | some .s => .string v.s
  | some .m | none => .message v.m

/-- A field that is in the map has been decoded, and has values. -/
structure FieldHolds (fd : FieldDescriptor) (xs : List Item) (f : Field) : Prop where
  decoded : f.decoded = true
  id : f.id = fd.number
  descriptor : f.fieldDescriptor = some fd
  nonempty : f.values ≠ []
  items : f.values.map (Value.item fd.type) = xs

/-- A field that is not there is an empty list. -/
def Holds (fd : FieldDescriptor) (xs : List Item) : Option Field → Prop
  | none => xs = []
  | some f => FieldHolds fd xs f

/-- **The invariant**: the message holds the lists. -/
structure Holding (env : Env) (p : MessagePtr) (t : Nat) (w : World) (L : Lists) : Prop where
  message : ∃ m, w.messages[p]? = some m ∧ m.descriptor = t ∧
    ∀ fd ∈ (env.pool t).fields, Holds fd (L fd.name) (m.fields.find fd.number)
  kinds : ∀ fd ∈ (env.pool t).fields, L fd.name ≠ [] →
    fd.isRepeated = true ∧ (fd.type.isInteger || fd.type.isString || fd.type.isMessage) = true
  pointers : ∀ fd ∈ (env.pool t).fields, ∀ q, .message (some q) ∈ L fd.name → q < w.messages.length

variable {env : Env} {w w₁ w' : World} {p q : MessagePtr} {t : Nat} {m : Message} {fd gd : FieldDescriptor} {f : Field} {L L' : Lists}
  {kind : FieldType → Bool} {idx : Nat} {v : Value} {x : Item} {xs : List Item} {g : FieldMap → FieldMap} {op : Op}

/-! ## Words

An integer reads back as the two words it was made of. -/

/-- What `SetInteger` stores is read as it was given. -/
theorem setIntegerValue_item {type : FieldType} (hkind : type.isInteger = true) (low hi : UInt32) (v : Value) :
    ∃ v', setIntegerValue type (joinWords low hi) v = some v' ∧ v'.item type = Item.ofWords type low hi := by
  have hwide := decodeUInt64_joinWords low hi
  have hlow := low.toNat_lt
  -- the high word is dropped
  have hnarrow : ∀ v : Value, decodeUInt64 (v.setF (joinWords low hi)).f = (low.toNat, 0) := by
    intro v
    rw [setF_f, joinWords_eq, decodeUInt64_eq]
    refine Prod.ext ?_ ?_
    · show (hi.toNat * 2 ^ 32 + low.toNat) % 2 ^ 32 % 2 ^ 32 = low.toNat
      omega
    · show (hi.toNat * 2 ^ 32 + low.toNat) % 2 ^ 32 / 2 ^ 32 % 2 ^ 32 = 0
      omega
  cases type with
  | double | float | string | bytes | message | group => cases hkind
  | fixed32 | sfixed32 =>
      refine ⟨_, rfl, ?_⟩
      simp [Value.item, Item.ofWords, FieldType.member, hnarrow]
  | int32 | int64 | uint32 | uint64 | bool | enum | sint32 | sint64 | fixed64 | sfixed64 =>
      refine ⟨_, rfl, ?_⟩
      simp [Value.item, Item.ofWords, FieldType.member, hwide]

/-- An integer element, as the getter reads it. -/
theorem retrieveIntegerValue_item (hfd : f.fieldDescriptor = some fd) (hv : f.values[idx]? = some v)
    (hkind : fd.type.isInteger = true) :
    ∃ n, retrieveIntegerValue f idx = some n ∧ v.item fd.type = .integer (decodeUInt64 n).1 (decodeUInt64 n).2 := by
  unfold retrieveIntegerValue Value.item
  simp only [hfd, hv]
  cases h : fd.type <;> simp_all [FieldType.isInteger, FieldType.member]

/-! ## One field

What the calls do to the one field they name; the others are found as before. -/

/-- The field is looked up with its list. -/
theorem Holding.find (kind : FieldType → Bool) (h : Holding env p t w L) (hfd : fd ∈ (env.pool t).fields) (hkind : kind fd.type = true) :
    ∃ m found, w.messages[p]? = some m ∧ m.descriptor = t ∧ w.lookup env p kind fd.name = some (fd, found) ∧
      m.fields.find fd.number = found ∧ Holds fd (L fd.name) found := by
  obtain ⟨m, hm, rfl, hfields⟩ := h.message
  exact ⟨m, _, hm, rfl, lookup_eq hm hfd hkind, rfl, hfields fd hfd⟩

/-- **Frame**: a change of the field with one number changes the list of that field. -/
theorem Holding.replace (h : Holding env p t w L) (hfd : fd ∈ (env.pool t).fields) (hrep : fd.isRepeated = true)
    (hkind : (fd.type.isInteger || fd.type.isString || fd.type.isMessage) = true) (hm : w.messages[p]? = some m)
    (hm₁ : w₁.messages[p]? = some m) (hlen : w.messages.length ≤ w₁.messages.length)
    (hother : ∀ id, id ≠ (fd.number : Int) → (g m.fields).find id = m.fields.find id)
    (hself : Holds fd xs ((g m.fields).find fd.number))
    (hpointers : ∀ q, Item.message (some q) ∈ xs → q < w₁.messages.length) :
    Holding env p t (w₁.change p g) (Function.update L fd.name xs) := by
  obtain ⟨m', hm', hdesc, hfields⟩ := h.message
  obtain rfl : m = m' := Option.some.inj (hm.symm.trans hm')
  have hname : ∀ gd ∈ (env.pool t).fields, gd ≠ fd → gd.name ≠ fd.name := by
    intro gd hgd hne heq
    exact hne (Descriptor.eq_of_name hgd hfd heq)
  -- the field has its new elements, and every other one its old ones
  refine ⟨⟨_, change_self hm₁, hdesc, ?_⟩, ?_, ?_⟩
  · intro gd hgd
    by_cases hne : gd = fd
    · subst hne
      rw [Function.update_self]
      exact hself
    · have hnumber : (gd.number : Int) ≠ fd.number := by
        intro heq
        exact hne (Descriptor.eq_of_number hgd hfd (by omega))
      rw [Function.update_of_ne (hname gd hgd hne), hother _ hnumber]
      exact hfields gd hgd
  · intro gd hgd hne'
    by_cases hne : gd = fd
    · subst hne
      exact ⟨hrep, hkind⟩
    · rw [Function.update_of_ne (hname gd hgd hne)] at hne'
      exact h.kinds gd hgd hne'
  · intro gd hgd q hq
    rw [length_change]
    by_cases hne : gd = fd
    · subst hne
      rw [Function.update_self] at hq
      exact hpointers q hq
    · rw [Function.update_of_ne (hname gd hgd hne)] at hq
      exact Nat.lt_of_lt_of_le (h.pointers gd hgd q hq) hlen

/-- The new field of `AddKnownField`. -/
theorem holds_known {wireType : WireType} (v : Value) :
    FieldHolds fd [v.item fd.type] { (⟨true, false, fd.number, wireType, some fd, []⟩ : Field) with values := [v] } :=
  ⟨rfl, rfl, rfl, List.cons_ne_nil _ _, rfl⟩

/-- New values under the same header. -/
theorem FieldHolds.store (hf : FieldHolds fd (L fd.name) f) {values : List Value} (hne : values ≠ [])
    (hitems : values.map (Value.item fd.type) = xs) : FieldHolds fd xs { f with values := values } :=
  ⟨hf.decoded, hf.id, hf.descriptor, hne, hitems⟩

/-- The lookups after storing a field. -/
theorem find_store {fields : FieldMap} (hid : f.id = (fd.number : Int)) {f₀ : Field} (hfind : fields.find fd.number = some f₀) :
    (∀ id, id ≠ (fd.number : Int) → (fields.modify f.id fun _ => f).find id = fields.find id) ∧
      (fields.modify f.id fun _ => f).find fd.number = some f := by
  have hmodify : ∀ id, (fields.modify f.id fun _ => f).find id = if id = (fd.number : Int) then some f else fields.find id := by
    intro id
    have hkeep : ∀ h : Field, h.id = f.id → ((fun _ => f) h : Field).id = f.id := fun _ _ => rfl
    rw [FieldMap.find_modify hkeep, hid]
    by_cases hid' : id = fd.number
    · rw [if_pos hid', if_pos hid', hid', hfind]
      rfl
    · rw [if_neg hid', if_neg hid']
  refine ⟨?_, ?_⟩
  · intro id hne
    rw [hmodify, if_neg hne]
  · rw [hmodify, if_pos rfl]

/-! ## The families of calls

`Add`, `Set` and `Delete` of each type are one function of the source, with the type's own reader and writer as
parameters. -/

/-- **`Add`** appends. -/
theorem Holding.add (make : World → FieldDescriptor → Option (World × Value)) {wireType : WireType} (h : Holding env p t w L)
    (hfd : fd ∈ (env.pool t).fields) (hrep : fd.isRepeated = true) (hkind : kind fd.type = true)
    (hkinds : (fd.type.isInteger || fd.type.isString || fd.type.isMessage) = true)
    (hwire : getFieldWireType fd = some wireType) (hmake : make w fd = some (w₁, v))
    (hold : ∀ m, w.messages[p]? = some m → w₁.messages[p]? = some m) (hlen : w.messages.length ≤ w₁.messages.length)
    (hpointer : ∀ q, v.item fd.type = .message (some q) → q < w₁.messages.length) :
    ∃ w', w.add env p kind make fd.name = some (w', v) ∧
      Holding env p t w' (Function.update L fd.name (L fd.name ++ [v.item fd.type])) := by
  obtain ⟨m, found, hm, -, hlookup, hfind, hholds⟩ := h.find kind hfd hkind
  have hpointers : ∀ q, Item.message (some q) ∈ L fd.name ++ [v.item fd.type] → q < w₁.messages.length := by
    intro q hq
    rcases List.mem_append.mp hq with hq | hq
    · exact Nat.lt_of_lt_of_le (h.pointers fd hfd q hq) hlen
    · exact hpointer q (List.mem_singleton.mp hq).symm
  -- the first element makes the field, any other goes behind the last
  cases found with
  | none =>
      have hnil : L fd.name = [] := hholds
      refine ⟨w₁.change p (FieldMap.insert { (⟨true, false, fd.number, wireType, some fd, []⟩ : Field) with values := [v] }), ?_, ?_⟩
      · unfold World.add World.addField knownField
        simp only [hlookup, hmake, hwire, Option.map_some, Option.bind_eq_bind, Option.bind_some, Option.pure_def]
      · refine h.replace hfd hrep hkinds hm (hold m hm) hlen ?_ ?_ hpointers
        · intro id hne
          rw [FieldMap.find_insert hfind, if_neg (Ne.symm hne)]
        · rw [FieldMap.find_insert hfind, if_pos rfl, hnil]
          exact holds_known v
  | some f =>
      have hf : FieldHolds fd (L fd.name) f := hholds
      obtain ⟨hother, hself⟩ := find_store (f := { f with values := f.values ++ [v] }) hf.id hfind
      refine ⟨w₁.store p { f with values := f.values ++ [v] }, ?_, ?_⟩
      · unfold World.add
        simp only [hlookup, hmake, guard, hrep, tryDecodeField_of_decoded hf.decoded, if_true, Option.bind_eq_bind,
          Option.bind_some, Option.pure_def]
      · refine h.replace hfd hrep hkinds hm (hold m hm) hlen hother ?_ hpointers
        rw [hself]
        refine hf.store (List.append_ne_nil_of_right_ne_nil _ (List.cons_ne_nil _ _)) ?_
        rw [List.map_append, hf.items]
        rfl

/-- A position of a list is a value of the field. -/
theorem Holding.at (h : Holding env p t w L) (hfd : fd ∈ (env.pool t).fields) (hkind : kind fd.type = true)
    (hx : (L fd.name)[idx]? = some x) :
    ∃ m f v, w.messages[p]? = some m ∧ w.lookup env p kind fd.name = some (fd, some f) ∧ m.fields.find fd.number = some f ∧
      FieldHolds fd (L fd.name) f ∧ f.values[idx]? = some v ∧ v.item fd.type = x ∧ idx < f.values.length ∧
      w.access env p fd f idx = some (w, f, if fd.isRepeated then idx else 0) := by
  obtain ⟨m, found, hm, -, hlookup, hfind, hholds⟩ := h.find kind hfd hkind
  cases found with
  | none =>
      have hnil : L fd.name = [] := hholds
      rw [hnil] at hx
      cases hx
  | some f =>
      have hf : FieldHolds fd (L fd.name) f := hholds
      have hitem := hx
      rw [← hf.items, List.getElem?_map] at hitem
      obtain ⟨v, hv, rfl⟩ := Option.map_eq_some_iff.mp hitem
      have hlt : idx < f.values.length := (List.getElem?_eq_some_iff.mp hv).1
      exact ⟨m, f, v, hm, hlookup, hfind, hf, hv, rfl, hlt, access_eq hf.decoded fun _ => hlt⟩

/-- **`Set`** replaces. -/
theorem Holding.set (fresh stored : FieldType → Value → Option Value) (h : Holding env p t w L)
    (hfd : fd ∈ (env.pool t).fields) (hrep : fd.isRepeated = true) (hkind : kind fd.type = true)
    (hkinds : (fd.type.isInteger || fd.type.isString || fd.type.isMessage) = true) (hidx : idx < (L fd.name).length)
    (hstored : ∀ v, ∃ v', stored fd.type v = some v' ∧ v'.item fd.type = x) (hx : ∀ q, x ≠ .message (some q)) :
    ∃ w', w.set env p kind fresh stored fd.name idx = some w' ∧
      Holding env p t w' (Function.update L fd.name ((L fd.name).set idx x)) := by
  obtain ⟨m, f, v, hm, hlookup, hfind, hf, hv, -, hlt, haccess⟩ := h.at hfd hkind (List.getElem?_eq_getElem hidx)
  obtain ⟨v', hv', hitem⟩ := hstored v
  rw [if_pos hrep] at haccess
  obtain ⟨hother, hself⟩ := find_store (f := { f with values := f.values.set idx v' }) hf.id hfind
  refine ⟨w.store p { f with values := f.values.set idx v' }, ?_, ?_⟩
  · unfold World.set
    simp only [hlookup, haccess, hv, hv', Option.bind_eq_bind, Option.bind_some, Option.pure_def]
  · refine h.replace hfd hrep hkinds hm hm (Nat.le_refl _) hother ?_ ?_
    · rw [hself]
      refine hf.store ?_ ?_
      · intro hnil
        have hlen := congrArg List.length hnil
        rw [List.length_set, List.length_nil] at hlen
        omega
      · rw [List.map_set, hf.items, hitem]
    · intro q hq
      rcases List.mem_or_eq_of_mem_set hq with hq | hq
      · exact h.pointers fd hfd q hq
      · exact absurd hq.symm (hx q)

/-- **`Delete`** removes, and returns what it removes. -/
theorem Holding.delete {β : Type} (read : Field → Nat → Option β) {r : β} (h : Holding env p t w L)
    (hfd : fd ∈ (env.pool t).fields) (hrep : fd.isRepeated = true) (hkind : kind fd.type = true)
    (hkinds : (fd.type.isInteger || fd.type.isString || fd.type.isMessage) = true) (hx : (L fd.name)[idx]? = some x)
    (hread : ∀ f v, f.fieldDescriptor = some fd → f.values[idx]? = some v → v.item fd.type = x → read f idx = some r) :
    ∃ w', w.delete env p kind read fd.name idx = some (w', r) ∧
      Holding env p t w' (Function.update L fd.name ((L fd.name).eraseIdx idx)) := by
  obtain ⟨m, f, v, hm, hlookup, hfind, hf, hv, hitem, hlt, haccess⟩ := h.at hfd hkind hx
  have hval := hread f v hf.descriptor hv hitem
  rw [if_pos hrep] at haccess
  have hitems : (f.values.eraseIdx idx).map (Value.item fd.type) = (L fd.name).eraseIdx idx := by
    rw [← List.eraseIdx_map, hf.items]
  have hpointers : ∀ q, Item.message (some q) ∈ (L fd.name).eraseIdx idx → q < w.messages.length := by
    intro q hq
    exact h.pointers fd hfd q (List.mem_of_mem_eraseIdx hq)
  -- the last element goes with the field
  by_cases hempty : (f.values.eraseIdx idx).isEmpty = true
  · refine ⟨w.change p fun fields => fields.erase f.id, ?_, ?_⟩
    · unfold World.delete
      simp only [hlookup, haccess, hval, guard, hlt, hempty, if_true, Option.bind_eq_bind, Option.bind_some, Option.pure_def]
    · refine h.replace hfd hrep hkinds hm hm (Nat.le_refl _) ?_ ?_ hpointers
      · intro id hne
        rw [FieldMap.find_erase, hf.id, if_neg hne]
      · rw [FieldMap.find_erase, hf.id, if_pos rfl, ← hitems, List.isEmpty_iff.mp hempty]
        rfl
  · obtain ⟨hother, hself⟩ := find_store (f := { f with values := f.values.eraseIdx idx }) hf.id hfind
    refine ⟨w.store p { f with values := f.values.eraseIdx idx }, ?_, ?_⟩
    · unfold World.delete
      simp only [hlookup, haccess, hval, guard, hlt, hempty, if_true, Option.bind_eq_bind, Option.bind_some, Option.pure_def]
      rfl
    · refine h.replace hfd hrep hkinds hm hm (Nat.le_refl _) hother ?_ hpointers
      rw [hself]
      refine hf.store ?_ hitems
      intro hnil
      exact hempty (List.isEmpty_iff.mpr hnil)

/-- `Get` reads. -/
theorem Holding.get {β : Type} (default : FieldDescriptor → Option β) (read : Field → Nat → Option β) {r : β} (h : Holding env p t w L)
    (hfd : fd ∈ (env.pool t).fields) (hrep : fd.isRepeated = true) (hkind : kind fd.type = true) (hx : (L fd.name)[idx]? = some x)
    (hread : ∀ f v, f.fieldDescriptor = some fd → f.values[idx]? = some v → v.item fd.type = x → read f idx = some r) :
    w.get env p kind default read fd.name idx = some (w, r) := by
  obtain ⟨m, f, v, hm, hlookup, hfind, hf, hv, hitem, hlt, haccess⟩ := h.at hfd hkind hx
  have hval := hread f v hf.descriptor hv hitem
  rw [if_pos hrep] at haccess
  unfold World.get
  simp only [hlookup, haccess, hval, Option.bind_eq_bind, Option.bind_some, Option.pure_def]

/-! ## Elements

By the kind of the field. -/

/-- A string, -/
theorem item_string {type : FieldType} (hkind : type.isString = true) (v : Value) : v.item type = .string v.s := by
  cases type <;> first | rfl | cases hkind

/-- and a message. -/
theorem item_message {type : FieldType} (hkind : type.isMessage = true) (v : Value) : v.item type = .message v.m := by
  cases type <;> first | rfl | cases hkind

/-- Every type but `group` has a wire type. -/
theorem getFieldWireType_some (hgroup : fd.type ≠ .group) : ∃ wireType, getFieldWireType fd = some wireType := by
  unfold getFieldWireType
  split
  · exact ⟨_, rfl⟩
  · cases htype : fd.type <;> first | exact ⟨_, rfl⟩ | exact absurd htype hgroup

/-- An element of an integer field is read as its two words. -/
theorem Holding.integer_at (h : Holding env p t w L) (hfd : fd ∈ (env.pool t).fields) (hkind : fd.type.isInteger = true)
    (hx : (L fd.name)[idx]? = some x) :
    ∃ r : Nat × Nat, x = .integer r.1 r.2 ∧ ∀ f v, f.fieldDescriptor = some fd → f.values[idx]? = some v → v.item fd.type = x →
      (retrieveIntegerValue f idx).map decodeUInt64 = some r := by
  obtain ⟨-, f, v, -, -, -, hf, hv, hitem, -⟩ := h.at hfd hkind hx
  obtain ⟨n, -, hn⟩ := retrieveIntegerValue_item hf.descriptor hv hkind
  refine ⟨decodeUInt64 n, hitem.symm.trans hn, ?_⟩
  intro f' v' hfd' hv' hitem'
  obtain ⟨n', hread, hn'⟩ := retrieveIntegerValue_item hfd' hv' hkind
  rw [hread, Option.map_some]
  have heq : Item.integer (decodeUInt64 n').1 (decodeUInt64 n').2 = Item.integer (decodeUInt64 n).1 (decodeUInt64 n).2 :=
    hn'.symm.trans (hitem'.trans (hitem.symm.trans hn))
  obtain ⟨h₁, h₂⟩ := Item.integer.inj heq
  exact congrArg some (Prod.ext h₁ h₂)

/-- The elements of a string field are strings, -/
theorem Holding.string_at (h : Holding env p t w L) (hfd : fd ∈ (env.pool t).fields) (hkind : fd.type.isString = true)
    (hx : (L fd.name)[idx]? = some x) :
    ∃ s, x = .string s ∧ ∀ (f : Field) v, f.fieldDescriptor = some fd → f.values[idx]? = some v → v.item fd.type = x →
      readString f idx = some s := by
  obtain ⟨-, f, v, -, -, -, -, -, hitem, -⟩ := h.at hfd hkind hx
  rw [item_string hkind] at hitem
  refine ⟨v.s, hitem.symm, ?_⟩
  intro f' v' _ hv' hitem'
  rw [item_string hkind] at hitem'
  unfold readString
  rw [hv', Option.map_some, Item.string.inj (hitem'.trans hitem.symm)]

/-- and those of a message field messages. -/
theorem Holding.message_at (h : Holding env p t w L) (hfd : fd ∈ (env.pool t).fields) (hkind : fd.type.isMessage = true)
    (hx : (L fd.name)[idx]? = some x) :
    ∃ q, x = .message q ∧ ∀ (f : Field) v, f.fieldDescriptor = some fd → f.values[idx]? = some v → v.item fd.type = x →
      readMessage f idx = some q := by
  obtain ⟨-, f, v, -, -, -, -, -, hitem, -⟩ := h.at hfd hkind hx
  rw [item_message hkind] at hitem
  refine ⟨v.m, hitem.symm, ?_⟩
  intro f' v' _ hv' hitem'
  rw [item_message hkind] at hitem'
  unfold readMessage
  rw [hv', Option.map_some, Item.message.inj (hitem'.trans hitem.symm)]

/-! ## Values that are added

A message that is added is new, so no list has it. -/

/-- A number or a string goes to the end of the list. -/
theorem Holding.addValue (make : FieldType → Value → Option Value) (h : Holding env p t w L)
    (hfd : fd ∈ (env.pool t).fields) (hrep : fd.isRepeated = true) (hkind : kind fd.type = true)
    (hkinds : (fd.type.isInteger || fd.type.isString || fd.type.isMessage) = true)
    (hgroup : fd.type ≠ .group) (hmake : make fd.type (newValue (env.junk .made)) = some v) (hitem : v.item fd.type = x)
    (hx : ∀ q, x ≠ .message (some q)) :
    ∃ w', w.add env p kind (makeValue env make) fd.name = some (w', v) ∧
      Holding env p t w' (Function.update L fd.name (L fd.name ++ [x])) := by
  obtain ⟨wireType, hwire⟩ := getFieldWireType_some hgroup
  have hmade : makeValue env make w fd = some (w, v) := by
    unfold makeValue
    rw [hmake, Option.map_some]
  subst hitem
  exact h.add _ hfd hrep hkind hkinds hwire hmade (fun _ hm => hm) (Nat.le_refl _) fun q hq => absurd hq (hx q)

/-- A new message goes to the end of the list. -/
theorem Holding.addNew (h : Holding env p t w L) (hfd : fd ∈ (env.pool t).fields) (hrep : fd.isRepeated = true)
    (htype : fd.type = .message) :
    ∃ w' v, w.add env p FieldType.isMessage (makeMessage env) fd.name = some (w', v) ∧ v.m = some w.messages.length ∧
      Holding env p t w' (Function.update L fd.name (L fd.name ++ [.message (some w.messages.length)])) := by
  have hmsg : fd.type.isMessage = true := by
    rw [htype]
    rfl
  have hkinds : (fd.type.isInteger || fd.type.isString || fd.type.isMessage) = true := by rw [hmsg, Bool.or_true]
  have hgroup : fd.type ≠ .group := by
    rw [htype]
    decide
  obtain ⟨wireType, hwire⟩ := getFieldWireType_some hgroup
  have hmake : makeMessage env w fd = some ({ w with messages := w.messages ++ [newMessage fd.messageType] },
      { newValue (env.junk .made) with m := some w.messages.length }) := by
    unfold makeMessage
    simp only [guard, htype, if_true, Option.bind_eq_bind, Option.bind_some, Option.pure_def]
  have hlen : (w.messages ++ [newMessage fd.messageType]).length = w.messages.length + 1 := List.length_append
  have hold : ∀ m, w.messages[p]? = some m → (w.messages ++ [newMessage fd.messageType])[p]? = some m := by
    intro m hm
    rw [List.getElem?_append_left (List.getElem?_eq_some_iff.mp hm).1]
    exact hm
  have hitem := item_message hmsg { newValue (env.junk .made) with m := some w.messages.length }
  -- the new message is the only one that was not there before
  have hpointer : ∀ q, ({ newValue (env.junk .made) with m := some w.messages.length } : Value).item fd.type = .message (some q) →
      q < (w.messages ++ [newMessage fd.messageType]).length := by
    intro q hq
    rw [hitem] at hq
    have hq' : w.messages.length = q := Option.some.inj (Item.message.inj hq)
    rw [hlen, ← hq']
    exact Nat.lt_succ_self _
  have hle : w.messages.length ≤ (w.messages ++ [newMessage fd.messageType]).length := by omega
  obtain ⟨w', hrun, hw'⟩ := h.add _ hfd hrep hmsg hkinds hwire hmake hold hle hpointer
  rw [hitem] at hw'
  exact ⟨w', _, hrun, rfl, hw'⟩

/-- A string is set. -/
theorem setStringValue_eq {type : FieldType} (hstr : type.isString = true) (val : List UInt8) (v : Value) :
    setStringValue type val v = some { v with s := val } := by
  cases type <;> first | rfl | cases hstr

/-! ## Runs

Call by call against the lists. -/

/-- **A call does to its field what it does to the list.** -/
theorem Holding.step (h : Holding env p t w L) (hfd : fd ∈ (env.pool t).fields) (hname : fd.name = op.name)
    (hrep : fd.isRepeated = true) (hkind : op.kind fd.type = true)
    (hidx : ∀ idx, op.idx = some idx → idx < (L fd.name).length) :
    ∃ w' xs res, op.exec env w p = some (w', res) ∧ op.effect fd.type w.messages.length (L fd.name) = some (xs, res) ∧
      Holding env p t w' (Function.update L fd.name xs) := by
  -- one case per call, by its family
  cases op with
  | addInteger name low hi =>
      obtain rfl : fd.name = name := hname
      have hint : fd.type.isInteger = true := hkind
      obtain ⟨v, hset, hitem⟩ := setIntegerValue_item hint low hi (newValue (env.junk .made))
      have hgroup : fd.type ≠ .group := by
        intro heq
        rw [heq] at hint
        cases hint
      obtain ⟨w', hrun, hw'⟩ := h.addValue (fun type => setIntegerValue type (joinWords low hi)) hfd hrep hint (by rw [hint]; rfl)
        hgroup hset hitem (fun q hq => by cases hq)
      refine ⟨w', _, none, ?_, rfl, hw'⟩
      show (Option.map Prod.fst (w.add env p _ _ fd.name)).map _ = _
      rw [hrun]
      rfl
  | setInteger name idx low hi =>
      obtain rfl : fd.name = name := hname
      have hint : fd.type.isInteger = true := hkind
      have hlt := hidx idx rfl
      obtain ⟨w', hrun, hw'⟩ := h.set (fun type => setIntegerValue type (joinWords low hi))
        (fun type => setIntegerValue type (joinWords low hi)) hfd hrep hint (by rw [hint]; rfl) hlt
        (setIntegerValue_item hint low hi) (fun q hq => by cases hq)
      refine ⟨w', _, none, ?_, if_pos hlt, hw'⟩
      show (w.setInteger env p fd.name idx low hi).map _ = _
      unfold World.setInteger
      dsimp only
      rw [hrun]
      rfl
  | deleteInteger name idx =>
      obtain rfl : fd.name = name := hname
      have hint : fd.type.isInteger = true := hkind
      have hx := List.getElem?_eq_getElem (hidx idx rfl)
      obtain ⟨r, hr, hread⟩ := h.integer_at hfd hint hx
      obtain ⟨w', hrun, hw'⟩ := h.delete (fun f idx => (retrieveIntegerValue f idx).map decodeUInt64) hfd hrep hint
        (by rw [hint]; rfl) hx hread
      refine ⟨w', _, some (.integer r.1 r.2), ?_, ?_, hw'⟩
      · show (w.delete env p _ _ fd.name idx).map _ = _
        rw [hrun]
        rfl
      · show (L fd.name)[idx]?.map _ = _
        rw [hx, ← hr]
        rfl
  | addString name val =>
      obtain rfl : fd.name = name := hname
      have hstr : fd.type.isString = true := hkind
      have hgroup : fd.type ≠ .group := by
        intro heq
        rw [heq] at hstr
        cases hstr
      obtain ⟨w', hrun, hw'⟩ := h.addValue (fun type => setStringValue type val) hfd hrep hstr (by rw [hstr, Bool.or_true]; rfl)
        hgroup (setStringValue_eq hstr val _) (item_string hstr _) (fun q hq => by cases hq)
      refine ⟨w', _, none, ?_, rfl, hw'⟩
      show (Option.map Prod.fst (w.add env p _ _ fd.name)).map _ = _
      rw [hrun]
      rfl
  | setString name idx val =>
      obtain rfl : fd.name = name := hname
      have hstr : fd.type.isString = true := hkind
      have hlt := hidx idx rfl
      have hstored : ∀ v : Value, ∃ v', (some { v with s := val } : Option Value) = some v' ∧ v'.item fd.type = .string val :=
        fun v => ⟨_, rfl, item_string hstr _⟩
      obtain ⟨w', hrun, hw'⟩ := h.set (fun type => setStringValue type val) (fun _ v => some { v with s := val }) hfd hrep hstr
        (by rw [hstr, Bool.or_true]; rfl) hlt hstored (fun q hq => by cases hq)
      refine ⟨w', _, none, ?_, if_pos hlt, hw'⟩
      show (w.set env p _ _ _ fd.name idx).map _ = _
      rw [hrun]
      rfl
  | deleteString name idx =>
      obtain rfl : fd.name = name := hname
      have hstr : fd.type.isString = true := hkind
      have hx := List.getElem?_eq_getElem (hidx idx rfl)
      obtain ⟨r, hr, hread⟩ := h.string_at hfd hstr hx
      obtain ⟨w', hrun, hw'⟩ := h.delete readString hfd hrep hstr (by rw [hstr, Bool.or_true]; rfl) hx hread
      refine ⟨w', _, some (.string r), ?_, ?_, hw'⟩
      · show (w.delete env p _ _ fd.name idx).map _ = _
        rw [hrun]
        rfl
      · show (L fd.name)[idx]?.map _ = _
        rw [hx, ← hr]
        rfl
  | addMessage name =>
      obtain rfl : fd.name = name := hname
      obtain ⟨w', v, hrun, hv, hw'⟩ := h.addNew hfd hrep (of_decide_eq_true hkind)
      refine ⟨w', _, some (.message (some w.messages.length)), ?_, rfl, hw'⟩
      show (Option.map _ (w.add env p _ _ fd.name)).map _ = _
      rw [hrun, ← hv]
      rfl
  | deleteMessage name idx =>
      obtain rfl : fd.name = name := hname
      have htype : fd.type = .message := of_decide_eq_true hkind
      have hmsg : fd.type.isMessage = true := by
        rw [htype]
        rfl
      have hx := List.getElem?_eq_getElem (hidx idx rfl)
      obtain ⟨r, hr, hread⟩ := h.message_at hfd hmsg hx
      obtain ⟨w', hrun, hw'⟩ := h.delete readMessage hfd hrep hmsg (by rw [hmsg, Bool.or_true]) hx hread
      refine ⟨w', _, some (.message r), ?_, ?_, hw'⟩
      · show (w.delete env p _ _ fd.name idx).map _ = _
        rw [hrun]
        rfl
      · show (L fd.name)[idx]?.map _ = _
        rw [hx, ← hr]
        rfl

/-- A call that the lists allow has its index in the list. -/
theorem Op.idx_lt {type : FieldType} {new : MessagePtr} {ys : List Item} {res : Option Item}
    (h : op.effect type new xs = some (ys, res)) : ∀ idx, op.idx = some idx → idx < xs.length := by
  intro idx hop
  cases op <;> cases hop
  case setInteger | setString =>
    dsimp only [Op.effect] at h
    split at h
    · assumption
    · cases h
  case deleteInteger | deleteString | deleteMessage =>
    obtain ⟨x, hx, -⟩ := Option.map_eq_some_iff.mp h
    exact (List.getElem?_eq_some_iff.mp hx).1

/-- The map and the lists agree. -/
theorem Holding.size (h : Holding env p t w L) (hfd : fd ∈ (env.pool t).fields) :
    w.getFieldSize env p fd.name = some (w, (L fd.name).length) ∧ (w.hasField env p fd.name = true ↔ L fd.name ≠ []) := by
  obtain ⟨m, found, -, -, hlookup, -, hholds⟩ := h.find (fun _ => true) hfd rfl
  unfold World.getFieldSize World.hasField
  simp only [hlookup]
  cases found with
  | none =>
      have hnil : L fd.name = [] := hholds
      rw [hnil]
      exact ⟨rfl, by simp⟩
  | some f =>
      have hf : FieldHolds fd (L fd.name) f := hholds
      have hlen : f.values.length = (L fd.name).length := by
        rw [← hf.items, List.length_map]
      refine ⟨?_, iff_of_true rfl ?_⟩
      · simp only [tryDecodeField_of_decoded hf.decoded, Option.bind_eq_bind, Option.bind_some, Option.pure_def, hlen]
      · intro hnil
        rw [hnil, List.length_nil] at hlen
        exact hf.nonempty (List.length_eq_zero_iff.mp hlen)

/-- A getter returns the element of the list. -/
theorem Holding.getItem (h : Holding env p t w L) (hfd : fd ∈ (env.pool t).fields) (hx : (L fd.name)[idx]? = some x) :
    w.getItem env p fd idx = some (w, x) := by
  have hne : L fd.name ≠ [] := by
    intro hnil
    rw [hnil] at hx
    cases hx
  obtain ⟨hrep, hkinds⟩ := h.kinds fd hfd hne
  unfold World.getItem
  by_cases hint : fd.type.isInteger = true
  · obtain ⟨r, rfl, hread⟩ := h.integer_at hfd hint hx
    rw [if_pos hint]
    show (w.get env p _ _ _ fd.name idx).map _ = _
    rw [h.get _ (fun f idx => (retrieveIntegerValue f idx).map decodeUInt64) hfd hrep hint hx hread]
    rfl
  · rw [if_neg hint]
    by_cases hstr : fd.type.isString = true
    · obtain ⟨s, rfl, hread⟩ := h.string_at hfd hstr hx
      rw [if_pos hstr]
      show (w.get env p _ _ _ fd.name idx).map _ = _
      rw [h.get _ readString hfd hrep hstr hx hread]
      rfl
    · have hmsg : fd.type.isMessage = true := by simpa [hint, hstr] using hkinds
      obtain ⟨q, rfl, hread⟩ := h.message_at hfd hmsg hx
      rw [if_neg hstr]
      show (w.get env p _ _ _ fd.name idx).map _ = _
      rw [h.get _ readMessage hfd hrep hmsg hx hread]
      rfl

/-- The next message is in no list. -/
theorem Holding.fresh (h : Holding env p t w L) : ∀ gd ∈ (env.pool t).fields, .message (some w.messages.length) ∉ L gd.name := by
  intro gd hgd hmem
  exact Nat.lt_irrefl _ (h.pointers gd hgd _ hmem)

/-- So the message and the lists agree, -/
theorem Holding.agrees (h : Holding env p t w L) : Agrees env p t w L := by
  refine ⟨fun fd hfd => (h.size hfd).1, fun fd hfd => (h.size hfd).2, fun fd hfd idx x hx => h.getItem hfd hx, ?_⟩
  rintro op res L' ⟨fd, hfd, hname, hrep, hkind, new, -, xs, heffect, -⟩
  obtain ⟨w', xs', res', hrun, -⟩ := h.step hfd hname hrep hkind (Op.idx_lt heffect)
  exact ⟨_, hrun⟩

/-- from a new message on. -/
theorem holding_new (hnew : w.messages[p]? = some (newMessage t)) : Holding env p t w fun _ => [] := by
  refine ⟨⟨_, hnew, rfl, fun fd _ => rfl⟩, fun fd _ hne => absurd rfl hne, ?_⟩
  intro fd _ q hq
  cases hq

/-- Every call is a step of the lists. -/
theorem Holding.simulates {call : Op × Option Item} (h : Holding env p t w L) (hst : ApiStep env p t w call w') :
    ∃ L', ListStep (env.pool t) L call L' ∧ Holding env p t w' L' := by
  obtain ⟨⟨fd, hfd, hname, hrep, hkind⟩, hidx, hexec⟩ := hst
  have hlt : ∀ idx, call.1.idx = some idx → idx < (L fd.name).length := by
    intro idx hop
    obtain ⟨w₁, n, hsize, hlt⟩ := hidx idx hop
    rw [← hname, (h.size hfd).1] at hsize
    cases hsize
    exact hlt
  obtain ⟨w₂, xs, res, hrun, heffect, hw₂⟩ := h.step hfd hname hrep hkind hlt
  rw [hexec] at hrun
  obtain ⟨rfl, hres⟩ := Prod.mk.inj (Option.some.inj hrun)
  exact ⟨_, ⟨fd, hfd, hname, hrep, hkind, _, h.fresh, xs, by rw [heffect, hres], rfl⟩, hw₂⟩

/-- **Repeated fields are lists**: the calls of a run do to the lists what they do to the message. -/
theorem lists_of_run {calls : List (Op × Option Item)} (hnew : w.messages[p]? = some (newMessage t))
    (hrun : Run (ApiStep env p t) w calls w') :
    ∃ L, Run (ListStep (env.pool t)) (fun _ => []) calls L ∧ Agrees env p t w' L := by
  have hsim : ∀ w₁ call w₂ L, Holding env p t w₁ L → ApiStep env p t w₁ call w₂ →
      ∃ L', ListStep (env.pool t) L call L' ∧ Holding env p t w₂ L' := fun _ _ _ _ h hst => h.simulates hst
  obtain ⟨L, hL, h⟩ := hrun.simulates hsim (holding_new hnew)
  exact ⟨L, hL, h.agrees⟩

/-- A message with a repeated `uint64 n = 1` and a repeated group `g = 2`. -/
def listDescriptor : Descriptor :=
  ⟨[⟨"n", 1, .uint64, .repeated, false, 0, 0, 0, [], firstNumber_pos, firstNumber_lt, unpacked_repeated⟩,
    ⟨"g", 2, .group, .repeated, false, 0, 0, 0, [], secondNumber_pos, secondNumber_lt, unpacked_repeated⟩], by decide, by decide⟩

/-- One field of each kind, -/
def listEnv : Env := ⟨fun _ => listDescriptor, zeroJunk, fun _ => 0, fun _ => 0⟩

/-- and a new message. -/
def emptyWorld : World := ⟨fun _ => 0, [newMessage 0]⟩

/-- The number 7 is added, and deleted again. -/
theorem lists_of_run_two : ∃ w' L,
    Run (ApiStep listEnv 0 0) emptyWorld [(.addInteger "n" 7 0, none), (.deleteInteger "n" 0, some (.integer 7 0))] w' ∧
      Run (ListStep listDescriptor) (fun _ => []) [(.addInteger "n" 7 0, none), (.deleteInteger "n" 0, some (.integer 7 0))] L ∧
      Agrees listEnv 0 0 w' L := by
  obtain ⟨w₁, hadd⟩ : ∃ w₁, ApiStep listEnv 0 0 emptyWorld (.addInteger "n" 7 0, none) w₁ := by
    refine ⟨_, ⟨_, List.mem_cons_self, rfl, rfl, rfl⟩, ?_, rfl⟩
    intro idx hidx
    cases hidx
  obtain ⟨w₂, hdelete⟩ : ∃ w₂, ApiStep listEnv 0 0 w₁ (.deleteInteger "n" 0, some (.integer 7 0)) w₂ := by
    cases hadd.2.2
    refine ⟨_, ⟨_, List.mem_cons_self, rfl, rfl, rfl⟩, ?_, rfl⟩
    intro idx hidx
    cases hidx
    exact ⟨_, 1, rfl, Nat.zero_lt_one⟩
  have hrun := (Run.single hadd).tail hdelete
  obtain ⟨L, hL, h⟩ := lists_of_run rfl hrun
  exact ⟨w₂, L, hrun, hL, h⟩

/-- **`AddMessage` fails** on a repeated group. -/
theorem addMessage_group : ∃ fd ∈ listDescriptor.fields, fd.name = "g" ∧ fd.isRepeated = true ∧ fd.type.isMessage = true ∧
    (emptyWorld.addMessage listEnv 0 "g").isNone := by
  refine ⟨_, List.mem_cons_of_mem _ List.mem_cons_self, rfl, rfl, rfl, ?_⟩
  decide

end CompactProtobuf
end Snippets
