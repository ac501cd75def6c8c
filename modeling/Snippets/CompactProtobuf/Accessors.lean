import Snippets.CompactProtobuf.Api

/-!
# `CompactProtobuf.Accessors` — looking up a field, and changing a message

What the accessors share: names and numbers determine a field descriptor, a lookup finds what the map holds under the
number, and a change of one message leaves the others alone.
-/

namespace Snippets

open Lib

namespace CompactProtobuf

variable {env : Env} {w w' : World} {p q : MessagePtr} {m : Message} {d : Descriptor} {fd gd : FieldDescriptor} {f : Field}
  {kind : FieldType → Bool} {name : String} {found : Option Field} {g : FieldMap → FieldMap} {idx : Nat} {v : Value}

/-! ## Descriptors

The fields of a descriptor have different names and different numbers, so that a lookup by either finds the one
field. -/

/-- Names determine the field. -/
theorem Descriptor.eq_of_name (hfd : fd ∈ d.fields) (hgd : gd ∈ d.fields) (h : fd.name = gd.name) : fd = gd :=
  List.inj_on_of_nodup_map d.nodup_name hfd hgd h

/-- Numbers do, too. -/
theorem Descriptor.eq_of_number (hfd : fd ∈ d.fields) (hgd : gd ∈ d.fields) (h : fd.number = gd.number) : fd = gd :=
  List.inj_on_of_nodup_map d.nodup_number hfd hgd h

/-- A field is found by its name. -/
theorem Descriptor.findFieldByName_eq (hfd : fd ∈ d.fields) : d.findFieldByName fd.name = some fd := by
  unfold Descriptor.findFieldByName
  cases h : d.fields.find? fun gd => gd.name = fd.name with
  | none => exact absurd (decide_eq_true rfl) (List.find?_eq_none.mp h fd hfd)
  | some gd =>
      have hname : gd.name = fd.name := by simpa using List.find?_some h
      rw [d.eq_of_name (List.mem_of_find?_eq_some h) hfd hname]

/-- What is found by a name is a field with this name. -/
theorem Descriptor.mem_of_findFieldByName (h : d.findFieldByName name = some fd) : fd ∈ d.fields ∧ fd.name = name :=
  ⟨List.mem_of_find?_eq_some h, by simpa using List.find?_some h⟩

/-- A field is found by its number. -/
theorem Descriptor.findFieldByNumber_eq (hfd : fd ∈ d.fields) : d.findFieldByNumber fd.number = some fd := by
  unfold Descriptor.findFieldByNumber
  cases h : d.fields.find? fun gd => (gd.number : Int) = fd.number with
  | none => exact absurd (decide_eq_true rfl) (List.find?_eq_none.mp h fd hfd)
  | some gd =>
      have hnumber : gd.number = fd.number := by simpa using List.find?_some h
      rw [d.eq_of_number (List.mem_of_find?_eq_some h) hfd hnumber]

/-- A field of the right kind passes the check. -/
theorem check_eq (hfd : fd ∈ d.fields) (hkind : kind fd.type = true) : d.check kind fd.name = some fd := by
  unfold Descriptor.check
  rw [Descriptor.findFieldByName_eq hfd, Option.filter_some, if_pos hkind]

/-- What passes it is a field of the right kind, with the name that was asked for. -/
theorem check_inv (h : d.check kind name = some fd) : fd ∈ d.fields ∧ fd.name = name ∧ kind fd.type = true := by
  unfold Descriptor.check at h
  obtain ⟨hfind, hkind⟩ := Option.filter_eq_some_iff.mp h
  exact ⟨(Descriptor.mem_of_findFieldByName hfind).1, (Descriptor.mem_of_findFieldByName hfind).2, hkind⟩

/-! ## Wire types

A packed field is length-delimited; of any other the member of its type says which. -/

/-- The wire types of fields that are not packed. -/
theorem getFieldWireType_unpacked (hpacked : fd.packed = false) :
    getFieldWireType fd = match fd.type.member with
      | some .varint => some .kVarint
      | some .f => some .k32Bits
      | some .d => some .k64Bits
      | some .s | some .m => some .kLengthDelimited
      | none => none :=
  if_neg (by rw [hpacked]; exact Bool.false_ne_true)

/-- The wire type of a packed field. -/
theorem wireType_of_packed {wire : WireType} (h : getFieldWireType fd = some wire) (hpacked : fd.packed = true) :
    wire = .kLengthDelimited := by
  unfold getFieldWireType at h
  rw [if_pos hpacked] at h
  exact (Option.some.inj h).symm

/-! ## Words

The Lua side has 64-bit values as two halves. -/

/-- The two halves put together. -/
theorem joinWords_eq (low hi : UInt32) : joinWords low hi = hi.toNat * 2 ^ 32 + low.toNat := by
  have hlow := low.toNat_lt
  have hhi := hi.toNat_lt
  unfold joinWords
  rw [Nat.shiftLeft_eq, Nat.mod_eq_of_lt (by omega), ← Nat.shiftLeft_eq, ← Nat.shiftLeft_add_eq_or_of_lt hlow]

/-- A value taken apart. -/
theorem decodeUInt64_eq (val : Nat) : decodeUInt64 val = (val % 2 ^ 32, val / 2 ^ 32 % 2 ^ 32) := by
  have hand : ∀ n : Nat, n &&& 0xffffffff = n % 2 ^ 32 := fun n => Nat.and_two_pow_sub_one_eq_mod n 32
  unfold decodeUInt64
  rw [hand, hand, Nat.shiftRight_eq_div_pow]

/-- Putting the halves together and taking them apart gives the same halves. -/
theorem decodeUInt64_joinWords (low hi : UInt32) : decodeUInt64 (joinWords low hi) = (low.toNat, hi.toNat) := by
  have hlow := low.toNat_lt
  have hhi := hi.toNat_lt
  rw [decodeUInt64_eq, joinWords_eq]
  refine Prod.ext ?_ ?_
  · show (hi.toNat * 2 ^ 32 + low.toNat) % 2 ^ 32 = low.toNat
    omega
  · show (hi.toNat * 2 ^ 32 + low.toNat) / 2 ^ 32 % 2 ^ 32 = hi.toNat
    omega

/-- The lower half of the union after four bytes of it have been written. -/
theorem setF_f (v : Value) (n : Nat) : (v.setF n).f = n % 2 ^ 32 := by
  unfold Value.f Value.setF
  dsimp only
  omega

/-! ## Lookups

Every accessor begins with the descriptor of the name, checks its kind, and looks for the field under its number.
A field that is there may have to be decoded. -/

/-- The lookup of a field of the descriptor. -/
theorem lookup_eq (hm : w.messages[p]? = some m) (hfd : fd ∈ (env.pool m.descriptor).fields) (hkind : kind fd.type = true) :
    w.lookup env p kind fd.name = some (fd, m.fields.find fd.number) := by
  unfold World.lookup
  simp only [hm, check_eq hfd hkind, Option.bind_eq_bind, Option.bind_some, Option.pure_def]

/-- What a lookup that succeeds has found. -/
theorem lookup_inv (h : w.lookup env p kind name = some (fd, found)) :
    ∃ m, w.messages[p]? = some m ∧ fd ∈ (env.pool m.descriptor).fields ∧ fd.name = name ∧ kind fd.type = true ∧
      found = m.fields.find fd.number := by
  unfold World.lookup at h
  cases hm : w.messages[p]? with
  | none =>
      rw [hm] at h
      cases h
  | some m =>
      rw [hm] at h
      cases hfd : (env.pool m.descriptor).check kind name with
      | none =>
          simp only [hfd, Option.bind_eq_bind, Option.bind_some, Option.bind_none] at h
          cases h
      | some fd' =>
          simp only [hfd, Option.bind_eq_bind, Option.bind_some, Option.pure_def, Option.some.injEq, Prod.mk.injEq] at h
          obtain ⟨rfl, rfl⟩ := h
          obtain ⟨h₁, h₂, h₃⟩ := check_inv hfd
          exact ⟨m, rfl, h₁, h₂, h₃, rfl⟩

/-- A decoded field is left as it is. -/
theorem tryDecodeField_of_decoded (hf : f.decoded = true) : w.tryDecodeField env p f = some (w, f) := by
  unfold World.tryDecodeField
  rw [if_pos hf]

/-- One that is not decoded is decoded and stored. -/
theorem tryDecodeField_of_undecoded (hf : f.decoded = false) :
    w.tryDecodeField env p f = (decodeField env w f).map fun r => (r.1.store p r.2, r.2) := by
  unfold World.tryDecodeField
  rw [if_neg (by rw [hf]; exact Bool.false_ne_true)]

/-- Access to a decoded field. -/
theorem access_eq (hf : f.decoded = true) (hidx : fd.isRepeated = true → idx < f.values.length) :
    w.access env p fd f idx = some (w, f, if fd.isRepeated then idx else 0) := by
  have hvalid : checkValidIndex f fd idx = true := by
    unfold checkValidIndex
    cases hrep : fd.isRepeated with
    | false => rfl
    | true =>
        have hlt := hidx hrep
        simp [hlt]
  unfold World.access
  simp only [guard, hvalid, tryDecodeField_of_decoded hf, if_true, Option.bind_eq_bind, Option.bind_some, Option.pure_def]

/-! ## Changes

Only the message that is changed is another one afterwards. -/

/-- The message that is changed. -/
theorem change_self (hm : w.messages[p]? = some m) : (w.change p g).messages[p]? = some { m with fields := g m.fields } := by
  unfold World.change
  rw [List.getElem?_modify_eq, hm]
  rfl

/-- Any other message. -/
theorem change_other (hne : q ≠ p) : (w.change p g).messages[q]? = w.messages[q]? := by
  unfold World.change
  exact List.getElem?_modify_ne _ _ (Ne.symm hne)

@[simp] theorem length_change : (w.change p g).messages.length = w.messages.length := List.length_modify _ _ _

@[simp] theorem change_mem : (w.change p g).mem = w.mem := rfl

end CompactProtobuf
end Snippets
