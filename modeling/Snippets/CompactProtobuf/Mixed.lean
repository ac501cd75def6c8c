import Snippets.CompactProtobuf.PassThrough

/-!
# `CompactProtobuf.Mixed` — records of one number under several wire types

The wire type is a member of the field, not of its values: `fill fields` sets it from the first record of a number, and
`EncodeMessage` puts it into the tag of every value. A record with another wire type is written out under the wrong one
(`StoredMap.relayed`). Since tags are prefix-free, no other reading of the output puts it right (`arrangement_unique`).
-/

namespace Snippets

open Lib

namespace CompactProtobuf

variable {pool : Pool} {junk : Junk} {mem : Mem} {d : Descriptor} {rs : List Record} {fields : FieldMap} {f : Field}
  {w : World} {p : MessagePtr} {n t data : Nat} {out : List UInt8} {r s : Record} {wire : WireType}

/-! ## The property -/

/-- The payload of a record under a tag with some wire type. -/
def Record.under (r : Record) (wire : WireType) : List UInt8 := encodeVarint (r.number * 8 + wire.code) ++ r.payload

/-- The records that are kept are written out, each under its wire type in `wireOf`. Those of one number stay in order; the
    numbers may come in any order. -/
structure Arranged (d : Descriptor) (rs : List Record) (wireOf : Record → WireType) (order : List Record) (out : List UInt8) :
    Prop where
  kept : ∀ n, numbered n order = keptOf d rs n
  bytes : out = (order.map fun r => r.under (wireOf r)).flatten

/-- Every record of a repeated or unknown field is written out under its own wire type. -/
def EmitsOwn (d : Descriptor) (rs : List Record) (out : List UInt8) : Prop :=
  ∃ wireOf order, Arranged d rs wireOf order out ∧ ∀ r ∈ order, d.keepsAll r.number = true → wireOf r = r.wire

/-! ## Output can be read in one way only -/

theorem under_lt (r : Record) (wire : WireType) : r.number * 8 + wire.code < 2 ^ 64 := by
  have h₁ := r.number_lt
  have h₂ := wire.code_lt
  omega

/-- The tag shows the number and the wire type. -/
theorem under_inj {wire' : WireType} {rest rest' : List UInt8} (h : r.under wire ++ rest = s.under wire' ++ rest') :
    r.number = s.number ∧ wire = wire' ∧ r.payload ++ rest = s.payload ++ rest' := by
  unfold Record.under at h
  rw [List.append_assoc, List.append_assoc] at h
  obtain ⟨htag, hrest⟩ := encodeVarint_append_inj (under_lt r wire) (under_lt s wire') h
  have h₁ := wire.code_lt
  have h₂ := wire'.code_lt
  have hcode : wire.code = wire'.code := by omega
  refine ⟨by omega, ?_, hrest⟩
  revert hcode
  cases wire <;> cases wire' <;> decide

theorem under_ne_nil (r : Record) (wire : WireType) : r.under wire ≠ [] :=
  List.append_ne_nil_of_left_ne_nil (encodeVarint_varint10 (under_lt r wire)).1.1.ne_nil _

theorem numbered_cons (n : Nat) (r : Record) (rs : List Record) :
    numbered n (r :: rs) = if r.number = n then r :: numbered n rs else numbered n rs := by
  unfold numbered
  rw [List.filter_cons]
  simp only [decide_eq_true_eq]

/-- **Two arrangements of the same bytes** give every record the same wire type. -/
theorem arrangement_unique {wireOf wireOf' : Record → WireType} {order order' : List Record}
    (hsame : ∀ n, numbered n order = numbered n order')
    (hbytes : (order.map fun r => r.under (wireOf r)).flatten = (order'.map fun r => r.under (wireOf' r)).flatten) :
    ∀ r ∈ order, wireOf r = wireOf' r := by
  induction order generalizing order' with
  | nil =>
      intro r hr
      cases hr
  | cons r order ih =>
      cases order' with
      | nil =>
          rw [List.map_cons, List.flatten_cons] at hbytes
          exact absurd hbytes (List.append_ne_nil_of_left_ne_nil (under_ne_nil _ _) _)
      | cons r' order' =>
          rw [List.map_cons, List.flatten_cons, List.map_cons, List.flatten_cons] at hbytes
          obtain ⟨hnumber, hwire, hrest⟩ := under_inj hbytes
          -- both are the first record with their number
          have hfirst := hsame r.number
          rw [numbered_cons, if_pos rfl, numbered_cons, if_pos hnumber.symm] at hfirst
          obtain ⟨rfl, -⟩ := List.cons.inj hfirst
          have hrest' : ∀ n, numbered n order = numbered n order' := by
            intro n
            have hn := hsame n
            rw [numbered_cons, numbered_cons] at hn
            split at hn
            · exact (List.cons.inj hn).2
            · exact hn
          intro x hx
          rcases List.mem_cons.mp hx with rfl | hx
          · exact hwire
          · exact ih hrest' (List.append_cancel_left hrest) x hx

/-! ## What is written out -/

/-- The wire type of the first record with a number. -/
def firstWire (rs : List Record) (n : Nat) : WireType := ((numbered n rs).head?.map Record.wire).getD .kVarint

theorem number_of_keptOf (h : r ∈ keptOf d rs n) : r.number = n :=
  of_decide_eq_true (List.mem_filter.mp (mem_kept h)).2

/-- An undecoded field is written out under the wire type of its first record. -/
theorem StoredField.encodeRaw (h : StoredField mem d rs n f) (hid : f.id = n) :
    CompactProtobuf.encodeRaw mem f =
      some (some ((keptOf d rs n).map fun r => r.under (firstWire rs r.number)).flatten) := by
  apply encodeAll_forall₂ h.values
  intro r hr v hv
  have hnum := number_of_keptOf hr
  have htag : tagBytes f = encodeVarint (r.number * 8 + (firstWire rs r.number).code) := by
    rw [tagBytes_eq hid (by rw [← hnum]; exact r.number_lt), hnum]
    unfold firstWire
    rw [h.wire]
    rfl
  show (CompactProtobuf.appendSlice mem v.encoded).map _ = _
  rw [hv.placed.appendSlice, htag]
  rfl

/-- The fields of a map, one after the other. -/
theorem encodeRaw_fields {part : FieldMap} (h : ∀ f ∈ part, ∃ n : Nat, f.id = n ∧ StoredField mem d rs n f) :
    encodeAll (encodeRaw mem) part = some (some
      (((part.flatMap fun f => keptOf d rs f.id.toNat).map fun r => r.under (firstWire rs r.number)).flatten)) := by
  have hfield : ∀ f ∈ part, encodeRaw mem f =
      some (some ((keptOf d rs f.id.toNat).map fun r => r.under (firstWire rs r.number)).flatten) := by
    intro f hf
    obtain ⟨n, hid, hl⟩ := h f hf
    have hnat : f.id.toNat = n := by omega
    rw [hl.encodeRaw hid, hnat]
  rw [encodeAll_eq hfield]
  congr 2
  rw [List.flatMap, List.map_flatten, List.flatten_flatten, List.map_map, List.map_map]
  rfl

theorem numbered_keptOf (n k : Nat) : numbered n (keptOf d rs k) = if k = n then keptOf d rs n else [] := by
  unfold numbered
  split
  next h =>
    subst h
    exact List.filter_eq_self.mpr fun r hr => decide_eq_true (number_of_keptOf hr)
  next h =>
    apply List.filter_eq_nil_iff.mpr
    intro r hr hn
    exact h ((number_of_keptOf hr).symm.trans (of_decide_eq_true hn))

/-- Listing the fields lists the records of every number. -/
theorem numbered_fields {part : FieldMap} (hnodup : (part.map fun f => f.id.toNat).Nodup)
    (hall : keptOf d rs n ≠ [] → n ∈ part.map fun f => f.id.toNat) :
    numbered n (part.flatMap fun f => keptOf d rs f.id.toNat) = keptOf d rs n := by
  have hsplit : ∀ ks : List Nat, numbered n (ks.flatMap fun k => keptOf d rs k) = ks.flatMap fun k => if k = n then keptOf d rs n else [] := by
    intro ks
    unfold numbered
    rw [List.filter_flatMap]
    congr 1
    funext k
    exact numbered_keptOf n k
  have hmap : (part.flatMap fun f => keptOf d rs f.id.toNat) = (part.map fun f => f.id.toNat).flatMap fun k => keptOf d rs k :=
    (List.flatMap_map _ _ _).symm
  rw [hmap, hsplit]
  generalize (part.map fun f => f.id.toNat) = ks at hnodup hall
  induction ks with
  | nil =>
      by_contra hne
      exact List.not_mem_nil (hall (Ne.symm hne))
  | cons k ks ih =>
      obtain ⟨hk, hks⟩ := List.nodup_cons.mp hnodup
      rw [List.flatMap_cons]
      by_cases hkn : k = n
      · subst hkn
        have hrest : (ks.flatMap fun j => if j = k then keptOf d rs k else []) = [] := by
          apply List.flatMap_eq_nil_iff.mpr
          intro j hj
          rw [if_neg]
          rintro rfl
          exact hk hj
        rw [if_pos rfl, hrest, List.append_nil]
      · rw [if_neg hkn, List.nil_append]
        apply ih hks
        intro hne
        rcases List.mem_cons.mp (hall hne) with h | h
        · exact absurd h.symm hkn
        · exact h

/-- **What is written out for a message that was only parsed**: the records that are kept, under the wire type of the first
    with their number. -/
theorem StoredMap.relayed (h : StoredMap mem d rs fields) (t : Nat) :
    ∃ order out, (∀ embedded, CompactProtobuf.encodeFields mem embedded (splitUnknown ⟨t, fields, none⟩) = some (some out)) ∧
      Arranged d rs (fun r => firstWire rs r.number) order out := by
  obtain ⟨hknown, hunknown, -⟩ := splitUnknown_halves h.sorted t
  have hraw : ∀ embedded, encodeAll (encodeField mem embedded) (fields.filter fun f => f.unknown == false) =
      encodeAll (encodeRaw mem) (fields.filter fun f => f.unknown == false) := by
    intro embedded
    apply encodeAll_congr
    intro f hf
    obtain ⟨n, -, hl⟩ := h.field f (List.mem_of_mem_filter hf)
    exact encodeField_undecoded embedded hl.decoded
  have hperm : ((fields.filter fun f => f.unknown == false) ++ fields.filter fun f => f.unknown == true).Perm fields := by
    have hsplit := List.filter_append_perm (fun f : Field => f.unknown == false) fields
    have hnot : (fields.filter fun f => !(f.unknown == false)) = fields.filter fun f => f.unknown == true := by
      apply List.filter_congr
      intro f _
      cases f.unknown <;> rfl
    rw [hnot] at hsplit
    exact hsplit
  have hnodup : (fields.map fun f => f.id.toNat).Nodup := by
    apply List.Pairwise.imp (R := fun i j : Nat => i < j) Nat.ne_of_lt
    rw [List.pairwise_map]
    apply List.Pairwise.imp_of_mem _ h.sorted
    intro f g hf hg hlt
    obtain ⟨n, hid, -⟩ := h.field f hf
    obtain ⟨k, hid', -⟩ := h.field g hg
    omega
  refine ⟨((fields.filter fun f => f.unknown == false) ++ fields.filter fun f => f.unknown == true).flatMap
    fun f => keptOf d rs f.id.toNat, _, ?_, ?_, rfl⟩
  · intro embedded
    unfold CompactProtobuf.encodeFields
    rw [hknown, hunknown, hraw, encodeRaw_fields fun f hf => h.field f (List.mem_of_mem_filter hf),
      encodeRaw_fields fun f hf => h.field f (List.mem_of_mem_filter hf)]
    simp only [Option.map_some, List.flatMap_append, List.map_append, List.flatten_append]
  · intro n
    apply numbered_fields ((hperm.map _).nodup_iff.mpr hnodup)
    intro hne
    obtain ⟨r, hr⟩ := List.exists_mem_of_ne_nil _ hne
    have hnum := number_of_keptOf hr
    obtain ⟨f, hf, hid⟩ := h.all r (List.mem_of_mem_filter (mem_kept hr))
    exact (hperm.map _).mem_iff.mpr (List.mem_map.mpr ⟨f, hf, by omega⟩)

/-- A number under two wire types is not written out properly. -/
theorem Arranged.not_emitsOwn {order : List Record} (h : Arranged d rs (fun r => firstWire rs r.number) order out)
    (hkeeps : d.keepsAll n = true) (hr : r ∈ numbered n rs) (hs : s ∈ numbered n rs) (hne : r.wire ≠ s.wire) :
    ¬ EmitsOwn d rs out := by
  rintro ⟨wireOf, order', h', hown⟩
  have hsame : ∀ n, numbered n order = numbered n order' := fun n => (h.kept n).trans (h'.kept n).symm
  have hwires := arrangement_unique hsame (h.bytes.symm.trans h'.bytes)
  have hfirst : ∀ x ∈ numbered n rs, x.wire = firstWire rs n := by
    intro x hx
    have hkept : x ∈ numbered n order := by
      rw [h.kept]
      unfold keptOf
      rw [hkeeps]
      exact hx
    obtain ⟨hmem, hnum⟩ := List.mem_filter.mp hkept
    have hnum' : x.number = n := of_decide_eq_true hnum
    have hmem' : x ∈ order' := by
      rw [hsame] at hkept
      exact List.mem_of_mem_filter hkept
    rw [← hown x hmem' (by rw [hnum']; exact hkeeps), ← hwires x hmem, hnum']
  exact hne ((hfirst r hr).trans (hfirst s hs).symm)

/-- **No message with a repeated or unknown number under two wire types is written out with the wire types it had.** -/
theorem not_emitsOwn_of_mixed (hfresh : w.messages[p]? = some (newMessage t)) (hmem : w.mem.Holds data (bytesOf rs))
    (hroom : data + (bytesOf rs).length + 16 ≤ 2 ^ 64)
    (hreq : ∀ fd ∈ (pool t).fields, fd.label = .required → ∃ r ∈ rs, r.number = fd.number)
    (hkeeps : (pool t).keepsAll n = true) (hr : r ∈ numbered n rs) (hs : s ∈ numbered n rs) (hne : r.wire ≠ s.wire) :
    ∃ w' out, w.fromString pool junk p data (bytesOf rs).length = some (w', true) ∧
      w'.toString pool p = some (some out) ∧ ¬ EmitsOwn (pool t) rs out := by
  obtain ⟨fields, hstored, hfrom⟩ := @fromString_stored pool junk _ _ _ _ _ hfresh hmem hroom hreq
  obtain ⟨order, out, hout, harranged⟩ := hstored.relayed t
  exact ⟨_, out, hfrom, hstored.toString (List.getElem?_eq_some_iff.mp hfresh).1 hreq hout,
    harranged.not_emitsOwn hkeeps hr hs hne⟩

theorem mem_twoWires : varintRecord ∈ numbered 1 [varintRecord, stringRecord] ∧ stringRecord ∈ numbered 1 [varintRecord, stringRecord] :=
  ⟨List.mem_filter.mpr ⟨List.mem_cons_self, by decide⟩, List.mem_filter.mpr ⟨List.mem_cons_of_mem _ List.mem_cons_self, by decide⟩⟩

theorem not_emitsOwn_twoWires : ∃ w' out,
    World.fromString (fun _ => emptyDescriptor) zeroJunk ⟨memAt [0x08, 5, 0x0a, 1, 0x78], [newMessage 0]⟩ 0 4096 5 = some (w', true) ∧
      w'.toString (fun _ => emptyDescriptor) 0 = some (some out) ∧ ¬ EmitsOwn emptyDescriptor [varintRecord, stringRecord] out :=
  @not_emitsOwn_of_mixed (fun _ => emptyDescriptor) zeroJunk [varintRecord, stringRecord]
    ⟨memAt [0x08, 5, 0x0a, 1, 0x78], [newMessage 0]⟩ 0 1 0 4096 varintRecord stringRecord rfl
    (Mem.holds_iff_read.mpr (by decide +kernel)) (by decide) (by decide) rfl mem_twoWires.1 mem_twoWires.2 (by decide)

/-- The string comes out under the tag of a varint. -/
theorem string_under_varint :
    (World.fromString (fun _ => emptyDescriptor) zeroJunk ⟨memAt [0x08, 5, 0x0a, 1, 0x78], [newMessage 0]⟩ 0 4096 5).bind
      (fun r => r.1.toString (fun _ => emptyDescriptor) 0) = some (some [0x08, 5, 0x08, 1, 0x78]) ∧
    ¬ EmitsOwn emptyDescriptor [varintRecord, stringRecord] [0x08, 5, 0x08, 1, 0x78] := by
  have harranged : Arranged emptyDescriptor [varintRecord, stringRecord]
      (fun r => firstWire [varintRecord, stringRecord] r.number) [varintRecord, stringRecord] [0x08, 5, 0x08, 1, 0x78] :=
    ⟨fun _ => rfl, by decide +kernel⟩
  exact ⟨by decide +kernel, harranged.not_emitsOwn rfl mem_twoWires.1 mem_twoWires.2 (by decide)⟩

end CompactProtobuf
end Snippets
