import Snippets.Lib.KeySort
import Snippets.CompactProtobuf.Encoder

/-!
# `CompactProtobuf.PassThrough` — relaying a message that nobody touched

A message that was parsed and not read holds its records as slices of the input. `EncodeMessage` copies them under
fresh tags: known fields first, unknown fields after, each in the order of the field numbers.
-/

namespace Snippets

open Lib

namespace CompactProtobuf

/-! ## What a relay emits -/

/-- The tag `EncodeMessage` writes: the shortest varint of its value. -/
def Record.minimalTag (r : Record) : List UInt8 := encodeVarint (r.number * 8 + r.wire.code)

/-- The record under its minimal tag. -/
def Record.relay (r : Record) : List UInt8 := r.minimalTag ++ r.payload

/-- The descriptor has a field with the record's number. -/
def Descriptor.knows (d : Descriptor) (r : Record) : Bool := (d.findFieldByNumber r.number).isSome

/-- Known records first, unknown records after, each stably sorted by field number. -/
def relayOrder (d : Descriptor) (rs : List Record) : List Record :=
  sortByKey Record.number (rs.filter d.knows) ++ sortByKey Record.number (rs.filter fun r => !d.knows r)

/-! ## One field -/

variable {pool : Pool} {junk : Junk} {mem : Mem} {d : Descriptor} {rs : List Record} {fields : FieldMap}

/-- **The tag of a field**: no bit is lost for a number below `2^29`. -/
theorem tagBytes_eq {f : Field} {n : Nat} (hid : f.id = n) (hn : n < 2 ^ 29) :
    tagBytes f = encodeVarint (n * 8 + f.wireType.code) := by
  have hmod : (f.id % 2 ^ 32).toNat = n := by omega
  have hshift : n <<< 3 % 2 ^ 32 = n <<< 3 := by
    rw [Nat.shiftLeft_eq]
    exact Nat.mod_eq_of_lt (by omega)
  have hor : n <<< 3 + f.wireType.code = n <<< 3 ||| f.wireType.code :=
    Nat.shiftLeft_add_eq_or_of_lt f.wireType.code_lt n
  unfold tagBytes
  rw [hmod, hshift, ← hor, Nat.shiftLeft_eq]

/-- When the elements match the elements of another list, that list says what is appended. -/
theorem encodeAll_forall₂ {α β : Type} {encode : β → Encoded} {bytes : α → List UInt8} {R : α → β → Prop}
    {xs : List α} {ys : List β} (h : List.Forall₂ R xs ys)
    (hbytes : ∀ x ∈ xs, ∀ y, R x y → encode y = some (some (bytes x))) :
    encodeAll encode ys = some (some (xs.map bytes).flatten) := by
  induction h with
  | nil => rfl
  | cons hxy _ ih =>
      apply encodeAll_cons_of_some (hbytes _ List.mem_cons_self _ hxy)
      apply ih
      intro x hx
      exact hbytes x (List.mem_cons_of_mem _ hx)

theorem LoadedField.number_lt {n : Nat} {f : Field} (h : LoadedField mem d rs n f) : n < 2 ^ 29 := by
  obtain ⟨r, hr⟩ := List.exists_mem_of_ne_nil _ h.nonempty
  have hnum : r.number = n := (mem_group.mp hr).2
  rw [← hnum]
  exact r.number_lt

/-- An undecoded field is written out as the records it holds. -/
theorem LoadedField.encodeRaw {n : Nat} {f : Field} (h : LoadedField mem d rs n f) (hid : f.id = n) :
    CompactProtobuf.encodeRaw mem f = some (some ((numbered n rs).map Record.relay).flatten) := by
  apply encodeAll_forall₂ h.values
  intro r hr v hv
  have hnum : r.number = n := (mem_group.mp hr).2
  have htag : tagBytes f = r.minimalTag := by
    rw [tagBytes_eq hid h.number_lt, h.wire r hr, ← hnum]
    rfl
  show (CompactProtobuf.appendSlice mem v.encoded).map _ = _
  rw [hv.placed.appendSlice, htag]
  rfl

/-! ## A map of fields -/

/-- The fields `part` of a loaded map are written out as the records `ss` they hold, sorted by number. -/
theorem encodeRaw_part {part : FieldMap} {ss : List Record} (hs : Sorted part)
    (hpart : ∀ f ∈ part, ∃ n : Nat, f.id = n ∧ LoadedField mem d rs n f ∧ numbered n rs = numbered n ss)
    (hall : ∀ r ∈ ss, ∃ f ∈ part, f.id = r.number) :
    encodeAll (encodeRaw mem) part = some (some ((sortByKey Record.number ss).map Record.relay).flatten) := by
  have hfield : ∀ f ∈ part, encodeRaw mem f = some (some ((numbered f.id.toNat ss).map Record.relay).flatten) := by
    intro f hf
    obtain ⟨n, hid, hl, hn⟩ := hpart f hf
    have hnat : f.id.toNat = n := by omega
    rw [hl.encodeRaw hid, hn, hnat]
  have hkeys : (part.map fun f => f.id.toNat).Pairwise (· < ·) := by
    rw [List.pairwise_map]
    apply List.Pairwise.imp_of_mem _ hs
    intro f g hf hg hlt
    obtain ⟨n, hid, -⟩ := hpart f hf
    obtain ⟨k, hid', -⟩ := hpart g hg
    omega
  have hcover : ∀ r ∈ ss, r.number ∈ part.map fun f => f.id.toNat := by
    intro r hr
    obtain ⟨f, hf, hid⟩ := hall r hr
    exact List.mem_map.mpr ⟨f, hf, by omega⟩
  rw [encodeAll_eq hfield, sortByKey_eq hkeys hcover]
  congr 2
  -- both sides list the groups, field by field
  rw [List.flatMap_map, List.flatMap, List.map_flatten, List.flatten_flatten, List.map_map, List.map_map]
  rfl

theorem LoadedField.unknown_iff {n : Nat} {f : Field} (h : LoadedField mem d rs n f) (r : Record) (hr : r.number = n) :
    f.unknown = !d.knows r := by
  rw [h.unknown]
  unfold Descriptor.knows
  rw [hr]
  cases d.findFieldByNumber n <;> rfl

/-- The known or the unknown half of a loaded map. -/
theorem Loaded.encodeRaw_half (h : Loaded mem d rs fields) (unknown : Bool) :
    encodeAll (encodeRaw mem) (fields.filter fun f => f.unknown == unknown) =
      some (some ((sortByKey Record.number (rs.filter fun r => d.knows r == !unknown)).map Record.relay).flatten) := by
  apply encodeRaw_part (h.sorted.filter _)
  · intro f hf
    obtain ⟨hmem, hu⟩ := List.mem_filter.mp hf
    obtain ⟨n, hid, hl⟩ := h.field f hmem
    refine ⟨n, hid, hl, ?_⟩
    unfold numbered
    rw [List.filter_filter]
    apply List.filter_congr
    intro r hr
    by_cases hn : r.number = n
    · have hk := hl.unknown_iff r hn
      rw [eq_of_beq hu] at hk
      simp [hn, hk]
    · simp [hn]
  · intro r hr
    obtain ⟨hmem, hk⟩ := List.mem_filter.mp hr
    obtain ⟨f, hf, hid⟩ := h.all r hmem
    obtain ⟨n, hn, hl⟩ := h.field f hf
    refine ⟨f, List.mem_filter.mpr ⟨hf, ?_⟩, hid⟩
    rw [hl.unknown_iff r (by omega), eq_of_beq hk]
    simp

/-! ## The whole message -/

/-- Every required field of a message that was parsed is among its known fields. -/
theorem StoredMap.checkAllRequiredField (h : StoredMap mem d rs fields)
    (hreq : ∀ fd ∈ d.fields, fd.label = .required → ∃ r ∈ rs, r.number = fd.number) :
    CompactProtobuf.checkAllRequiredField (fields.filter fun f => f.unknown == false) d = true := by
  unfold CompactProtobuf.checkAllRequiredField
  rw [List.all_eq_true]
  intro fd hfd
  by_cases hlab : fd.label = .required
  · obtain ⟨r, hr, hnum⟩ := hreq fd hfd hlab
    obtain ⟨f, hf, hid⟩ := h.all r hr
    obtain ⟨n, hn, hl⟩ := h.field f hf
    have hknown : f.unknown = false := by
      rw [hl.unknown, Option.isNone_eq_false_iff]
      unfold Descriptor.findFieldByNumber
      rw [List.find?_isSome]
      exact ⟨fd, hfd, by simp; omega⟩
    have hmem : f ∈ fields.filter fun f => f.unknown == false := List.mem_filter.mpr ⟨hf, by simp [hknown]⟩
    have hsorted : Sorted (fields.filter fun f => f.unknown == false) := h.sorted.filter _
    have hfind := hsorted.find_eq hmem
    rw [hid, hnum] at hfind
    rw [hfind]
    simp
  · simp [hlab]

/-- `splitUnknown_eq` with the two halves told apart by the flag. -/
theorem splitUnknown_halves (hs : Sorted fields) (t : Nat) :
    (splitUnknown ⟨t, fields, none⟩).fields = fields.filter (fun f => f.unknown == false) ∧
      (splitUnknown ⟨t, fields, none⟩).unknownFields.getD [] = fields.filter (fun f => f.unknown == true) ∧
      (splitUnknown ⟨t, fields, none⟩).descriptor = t := by
  obtain ⟨hknown, hunknown, hdesc⟩ := splitUnknown_eq hs t
  refine ⟨hknown.trans ?_, hunknown.trans ?_, hdesc⟩
  · apply List.filter_congr
    intro f _
    cases f.unknown <;> rfl
  · apply List.filter_congr
    intro f _
    cases f.unknown <;> rfl

/-- A message that was only loaded is written out as its records, in relay order. -/
theorem Loaded.encodeFields (h : Loaded mem d rs fields) (embedded : MessagePtr → Encoded) (t : Nat) :
    CompactProtobuf.encodeFields mem embedded (splitUnknown ⟨t, fields, none⟩) =
      some (some ((relayOrder d rs).map Record.relay).flatten) := by
  obtain ⟨hknown, hunknown, -⟩ := splitUnknown_halves h.sorted t
  have hraw : encodeAll (encodeField mem embedded) (fields.filter fun f => f.unknown == false) =
      encodeAll (encodeRaw mem) (fields.filter fun f => f.unknown == false) := by
    apply encodeAll_congr
    intro f hf
    obtain ⟨n, -, hl⟩ := h.field f (List.mem_of_mem_filter hf)
    exact encodeField_undecoded embedded hl.decoded
  unfold CompactProtobuf.encodeFields relayOrder
  rw [hknown, hunknown, hraw, h.encodeRaw_half false, h.encodeRaw_half true]
  simp

variable {w : World} {p : MessagePtr} {t data : Nat}

/-- A string argument that holds the bytes. -/
theorem placed_string {bytes : List UInt8} (hmem : mem.Holds data bytes) (hroom : data + bytes.length + 16 ≤ 2 ^ 64) :
    Placed mem (stringSlice data bytes.length) bytes := by
  have hslice : stringSlice data bytes.length = ⟨data, data + bytes.length⟩ := by
    unfold stringSlice
    rw [toSize_of_range (by omega) (by omega)]
    congr 1
  rw [hslice]
  exact ⟨hmem, rfl, hroom⟩

/-- **`FromString` of the bytes of records**, for a fresh message: it succeeds and holds those that are kept. -/
theorem fromString_stored (hfresh : w.messages[p]? = some (newMessage t)) (hmem : w.mem.Holds data (bytesOf rs))
    (hroom : data + (bytesOf rs).length + 16 ≤ 2 ^ 64)
    (hreq : ∀ fd ∈ (pool t).fields, fd.label = .required → ∃ r ∈ rs, r.number = fd.number) :
    ∃ fields, StoredMap w.mem (pool t) rs fields ∧ w.fromString pool junk p data (bytesOf rs).length =
      some ({ w with messages := w.messages.set p (splitUnknown ⟨t, fields, none⟩) }, true) := by
  obtain ⟨fields, hparse, hstored⟩ := @parse_stored junk _ _ _ _ (placed_string hmem hroom) hreq
  have hinit : (newMessage t).init pool junk w.mem (stringSlice data (bytesOf rs).length) =
      some (true, splitUnknown ⟨t, fields, none⟩) := by
    have hlazy : parseMessageLazy junk w.mem (pool (newMessage t).descriptor) (stringSlice data (bytesOf rs).length)
        (newMessage t).fields = some (true, fields) := hparse
    unfold Message.init
    rw [hlazy]
    rfl
  refine ⟨fields, hstored, ?_⟩
  unfold World.fromString
  rw [hfresh]
  simp only [hinit, Option.map_some]

/-- What `ToString` of it appends. -/
theorem StoredMap.toString (h : StoredMap w.mem (pool t) rs fields) (hp : p < w.messages.length)
    (hreq : ∀ fd ∈ (pool t).fields, fd.label = .required → ∃ r ∈ rs, r.number = fd.number) {out : List UInt8}
    (hout : ∀ embedded, CompactProtobuf.encodeFields w.mem embedded (splitUnknown ⟨t, fields, none⟩) = some (some out)) :
    World.toString pool { w with messages := w.messages.set p (splitUnknown ⟨t, fields, none⟩) } p = some (some out) := by
  obtain ⟨hknown, -, hdesc⟩ := splitUnknown_halves h.sorted t
  unfold World.toString encodeMessage
  simp only [List.getElem?_set_self hp]
  rw [hdesc, hknown, if_pos (h.checkAllRequiredField hreq), hout]

/-- **Lossless pass-through.** A message that is parsed and written out again, with no accessor in between, keeps
    every record: known fields first, unknown fields after, each stably sorted by number, the payloads as they were
    under minimal tags. Bytes that are in this order already come out unchanged. -/
theorem toString_fromString (hfresh : w.messages[p]? = some (newMessage t)) (hmem : w.mem.Holds data (bytesOf rs))
    (hroom : data + (bytesOf rs).length + 16 ≤ 2 ^ 64) (hreg : Regular (pool t) rs)
    (hreq : ∀ fd ∈ (pool t).fields, fd.label = .required → ∃ r ∈ rs, r.number = fd.number) :
    ∃ w', w.fromString pool junk p data (bytesOf rs).length = some (w', true) ∧
      w'.toString pool p = some (some ((relayOrder (pool t) rs).map Record.relay).flatten) ∧
      (relayOrder (pool t) rs = rs → (∀ r ∈ rs, r.tag = r.minimalTag) →
        w'.toString pool p = some (some (bytesOf rs))) := by
  obtain ⟨fields, hstored, hfrom⟩ := @fromString_stored pool junk _ _ _ _ _ hfresh hmem hroom hreq
  have hout := hstored.toString (List.getElem?_eq_some_iff.mp hfresh).1 hreq
    fun embedded => (hstored.loaded hreg).encodeFields embedded t
  refine ⟨_, hfrom, hout, ?_⟩
  intro horder htags
  rw [hout, horder]
  unfold bytesOf
  congr 3
  apply List.map_congr_left
  intro r hr
  unfold Record.relay Record.bytes
  rw [htags r hr]

/-- A field `a = 1` that must be there. -/
def requiredField : FieldDescriptor := ⟨"a", 1, .uint64, .required, false, 0, 0, 0, [], firstNumber_pos, firstNumber_lt, unpacked_repeated⟩

def requiredDescriptor : Descriptor := ⟨[requiredField], by decide, by decide⟩

/-- An unknown string, `2 = "x"`. -/
def unknownRecord : Record :=
  ⟨2, .kLengthDelimited, [0x12], [1], [1, 0x78], by decide, by decide, ⟨by decide, by decide⟩, by decide,
    .delimited ⟨by decide, by decide⟩ (by decide)⟩

/-- The required field, `1 = 5`, under a tag of two bytes. -/
def longTagRecord : Record :=
  ⟨1, .kVarint, [0x88, 0x00], [], [5], firstNumber_pos, firstNumber_lt, ⟨by decide, by decide⟩, by decide,
    .varint ⟨by decide, by decide⟩⟩

/-- The number 1 as a varint. -/
def varintRecord : Record :=
  ⟨1, .kVarint, [0x08], [], [5], firstNumber_pos, firstNumber_lt, ⟨by decide, by decide⟩, by decide, .varint ⟨by decide, by decide⟩⟩

/-- The number 1 as a string. -/
def stringRecord : Record :=
  ⟨1, .kLengthDelimited, [0x0a], [1], [1, 0x78], firstNumber_pos, firstNumber_lt, ⟨by decide, by decide⟩, by decide,
    .delimited ⟨by decide, by decide⟩ (by decide)⟩

theorem toString_fromString_twoRecords : ∃ w',
    World.fromString (fun _ => requiredDescriptor) zeroJunk ⟨memAt [0x12, 1, 0x78, 0x88, 0, 5], [newMessage 0]⟩ 0 4096 6 =
      some (w', true) ∧
    w'.toString (fun _ => requiredDescriptor) 0 = some (some [0x08, 5, 0x12, 1, 0x78]) := by
  obtain ⟨w', h₁, h₂, -⟩ := @toString_fromString (fun _ => requiredDescriptor) zeroJunk [unknownRecord, longTagRecord]
    ⟨memAt [0x12, 1, 0x78, 0x88, 0, 5], [newMessage 0]⟩ 0 0 4096 rfl (Mem.holds_iff_read.mpr (by decide +kernel))
    (by decide) ⟨by decide, by decide⟩ (by decide)
  refine ⟨w', h₁, h₂.trans ?_⟩
  decide +kernel

end CompactProtobuf
end Snippets
