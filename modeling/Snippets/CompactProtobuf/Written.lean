import Snippets.CompactProtobuf.Emitted
import Snippets.CompactProtobuf.Packed

/-!
# `CompactProtobuf.Written` — decoding what was written out

The parser keeps a value as a slice. When the slice holds what was written out for a value (`Written`), decoding gives that
value back (`SameContent`): one by one in place (`decodeInPlace_written`), and all at once in a packed field
(`decodePacked_written`).
-/

namespace Snippets

open Lib

namespace CompactProtobuf

variable {env : Env} {w w' : World} {p q : MessagePtr} {m : Message} {fd : FieldDescriptor} {f f' : Field} {v v' : Value}
  {mem : Mem} {embedded : MessagePtr → Encoded} {type : FieldType} {r : Record} {R : MessagePtr → MessagePtr → Prop}
  {junk : Junk}

/-! ## Values

What a slice that holds a written value reads as, member by member. -/

/-- A value, and what it is after it was written out and decoded. `R` relates the embedded messages. -/
def SameContent (R : MessagePtr → MessagePtr → Prop) (type : FieldType) (v v' : Value) : Prop :=
  match type.member with
  | some .varint => v'.primitive = wordOf type v
  | some .f => v'.f = v.f
  | some .d => v'.primitive = v.primitive
  | some .s => v'.s = v.s
  | some .m => ∃ q q', v.m = some q ∧ v'.m = some q' ∧ R q q'
  | none => False

/-- Values with the same content keep it under a weaker relation of messages. -/
theorem SameContent.mono {S : MessagePtr → MessagePtr → Prop} (h : SameContent R type v v') (hRS : ∀ q q', R q q' → S q q') :
    SameContent S type v v' := by
  unfold SameContent at h ⊢
  split at h
  · exact h
  · exact h
  · exact h
  · exact h
  · obtain ⟨q, q', hq, hq', hR⟩ := h
    exact ⟨q, q', hq, hq', hRS q q' hR⟩
  · exact h

/-- A payload in memory is shorter than the address space. -/
theorem Held.length_lt (h : Held mem r v') : r.payload.length < 2 ^ 64 := by
  have h₁ := h.endAddr
  have h₂ := h.room
  omega

/-- `ParseVarint` at the start of a slice. -/
theorem parseVarint_start {slice : Slice} {bs : List UInt8} (hp : Placed mem slice bs) :
    (parseVarint mem (startState junk slice)).v.primitive = varintVal bs := by
  unfold parseVarint
  rw [hp.parseVarintInternal_eq rfl (Nat.zero_le _)]
  rfl

/-- A slice that holds a varint parses as its number, -/
theorem Held.varint {x : Nat} (junk : Junk) (h : Held mem r v') (hr : r.payload = encodeVarint x) (hx : x < 2 ^ 64) :
    (parseVarint mem (startState junk v'.encoded)).v.primitive = x := by
  rw [parseVarint_start h.placed, hr]
  have hval := varintVal_encode hx []
  rw [List.append_nil] at hval
  exact hval

/-- one that holds bytes of a fixed width as these, -/
theorem Held.fixed {n x : Nat} (h : Held mem r v') (hr : r.payload = toLe n x) : ofLe (mem.read v'.encoded.start n) = x % 256 ^ n := by
  have hread := Mem.holds_iff_read.mp h.holds
  rw [hr, toLe_length] at hread
  rw [hread, ofLe_toLe]

/-- The slice behind the length prefix. -/
theorem Held.body {body : List UInt8} (h : Held mem r v') (hr : r.payload = delimit body)
    (hpre : r.pre = encodeVarint body.length) (hwire : r.wire = .kLengthDelimited) :
    Placed mem (embeddedSlice v') body ∧ embeddedSlice v' = ⟨v'.encoded.start + r.pre.length, v'.encoded.endAddr⟩ :=
  h.placed_body (by rw [hr, hpre]; rfl) hwire

/-- and one that holds a string as its length and its bytes. -/
theorem Held.string {body : List UInt8} (junk : Junk) (h : Held mem r v') (hr : r.payload = delimit body)
    (hpre : r.pre = encodeVarint body.length) (hwire : r.wire = .kLengthDelimited) :
    let len := (parseVarintInternal mem (startState junk v'.encoded)).2
    v'.encoded.start + len ≤ v'.encoded.endAddr ∧
      mem.read ((v'.encoded.start + len : Nat) : Int) (v'.encoded.endAddr - (v'.encoded.start + len)) = body := by
  intro len
  obtain ⟨hplaced, hslice⟩ := h.body hr hpre hwire
  have hbody : body.length < 2 ^ 64 := by
    have hlt := h.length_lt
    rw [hr, delimit, List.length_append] at hlt
    omega
  have hlen : len = r.pre.length := by
    show (parseVarintInternal mem (startState junk v'.encoded)).2 = _
    rw [h.placed.parseVarintInternal_eq rfl (Nat.zero_le _), hr, hpre]
    exact varintLen_encode hbody body
  rw [hslice] at hplaced
  have hend : v'.encoded.endAddr = v'.encoded.start + r.pre.length + body.length := hplaced.endAddr
  rw [hlen, hend, Nat.add_sub_cancel_left]
  exact ⟨Nat.le_add_right _ _, Mem.holds_iff_read.mp hplaced.holds⟩

/-! ## Fields

One value after the other, each in its own slice. -/

/-- A value that was written out, and the slice of it that the parser found. -/
def Written (embedded : MessagePtr → Encoded) (mem : Mem) (fd : FieldDescriptor) (v v' : Value) : Prop :=
  ∃ r, Carries embedded fd.type v r.pre r.payload ∧ getFieldWireType fd = some r.wire ∧ Held mem r v'

/-- The second field waits for its decoding. -/
def Waits (embedded : MessagePtr → Encoded) (mem : Mem) (fd : FieldDescriptor) (f f' : Field) : Prop :=
  if fd.packed then ∃ v' r packed, f'.values = [v'] ∧ encodeAll (encodePackedValue fd.type) f.values = some (some packed) ∧
    r.payload = delimit packed ∧ r.pre = encodeVarint packed.length ∧ r.wire = .kLengthDelimited ∧ Held mem r v'
  else List.Forall₂ (Written embedded mem fd) f.values f'.values

/-- A decoder that gives each value back gives all of them. -/
theorem mapM_forall₂ {α : Type} {P Q : α → Value → Prop} {decode : Value → Option Value} {values : List α} {values' : List Value}
    (hdecode : ∀ v v', P v v' → ∃ u, decode v' = some u ∧ Q v u) (h : List.Forall₂ P values values') :
    ∃ us, values'.mapM decode = some us ∧ List.Forall₂ Q values us := by
  induction h with
  | nil => exact ⟨[], rfl, List.Forall₂.nil⟩
  | cons hv _ ih =>
      obtain ⟨u, hu, hQ⟩ := hdecode _ _ hv
      obtain ⟨us, hus, hrest⟩ := ih
      refine ⟨u :: us, ?_, List.Forall₂.cons hQ hrest⟩
      rw [List.mapM_cons, hu, hus]
      rfl

/-- The same for the field. -/
theorem decodeEach_written {α : Type} {P Q : α → Value → Prop} {decode : Value → Option Value} {values : List α}
    (hdecode : ∀ v v', P v v' → ∃ u, decode v' = some u ∧ Q v u) (h : List.Forall₂ P values f'.values) :
    ∃ f₁, decodeEach decode f' = some f₁ ∧ List.Forall₂ Q values f₁.values := by
  obtain ⟨us, hus, hQ⟩ := mapM_forall₂ hdecode h
  refine ⟨{ f' with decoded := true, values := us }, ?_, hQ⟩
  unfold decodeEach
  rw [hus]
  rfl

/-- A built value that is written out in place. -/
theorem decodeInPlace_written (R : MessagePtr → MessagePtr → Prop) (junk : Junk) (hplain : fd.type.plain = true)
    (hpacked : fd.packed = false) (htype : fd.type ≠ .message) (hbuilt : ∀ v ∈ f.values, BuiltValue w p fd v)
    (h : List.Forall₂ (Written embedded mem fd) f.values f'.values) :
    ∃ f₁, decodeInPlace junk mem fd f' = some f₁ ∧ List.Forall₂ (SameContent R fd.type) f.values f₁.values := by
  have hall : List.Forall₂ (fun v v' => BuiltValue w p fd v ∧ Written embedded mem fd v v') f.values f'.values :=
    (List.forall₂_and_left _ _).mpr ⟨hbuilt, h⟩
  unfold decodeInPlace
  rw [if_neg (by rw [hpacked]; exact Bool.false_ne_true)]
  unfold SameContent
  cases hfd : fd.type <;> dsimp only [FieldType.member]
  case message => exact absurd hfd htype
  case sint32 | sint64 | group =>
    rw [hfd] at hplain
    exact absurd hplain (by decide)
  -- a varint of the word that the type keeps
  case int32 | int64 | uint32 | uint64 | bool | enum =>
    apply decodeEach_written _ hall
    rintro v v' ⟨hv, r, hcarries, -, hheld⟩
    have hmember : fd.type.member = some .varint := by rw [hfd]; rfl
    unfold Carries at hcarries
    rw [hmember] at hcarries
    have hword := hheld.varint junk hcarries (wordOf_lt fd.type (hv.word (Or.inl hmember)))
    rw [hfd] at hword
    exact ⟨_, rfl, hword⟩
  -- four bytes
  case fixed32 | sfixed32 | float =>
    apply decodeEach_written _ hall
    rintro v v' ⟨hv, r, hcarries, -, hheld⟩
    have hmember : fd.type.member = some .f := by rw [hfd]; rfl
    unfold Carries at hcarries
    rw [hmember] at hcarries
    refine ⟨_, rfl, ?_⟩
    rw [hheld.fixed hcarries, setF_f]
    have hlt : v.f < 2 ^ 32 := Nat.mod_lt _ (Nat.two_pow_pos 32)
    have hpow : (256 : Nat) ^ 4 = 2 ^ 32 := by decide
    rw [hpow, Nat.mod_mod, Nat.mod_eq_of_lt hlt]
  -- eight bytes
  case fixed64 | sfixed64 | double =>
    apply decodeEach_written _ hall
    rintro v v' ⟨hv, r, hcarries, -, hheld⟩
    have hmember : fd.type.member = some .d := by rw [hfd]; rfl
    unfold Carries at hcarries
    rw [hmember] at hcarries
    refine ⟨_, rfl, ?_⟩
    have hpow : (256 : Nat) ^ 8 = 2 ^ 64 := by decide
    show ofLe (mem.read v'.encoded.start 8) = v.primitive
    rw [hheld.fixed hcarries, hpow, Nat.mod_eq_of_lt (hv.word (Or.inr hmember))]
  -- a length and that many bytes
  case string | bytes =>
    apply decodeEach_written _ hall
    rintro v v' ⟨hv, r, hcarries, hwire, hheld⟩
    have hmember : fd.type.member = some .s := by rw [hfd]; rfl
    have hlen : r.wire = .kLengthDelimited := by
      rw [getFieldWireType_unpacked hpacked, hmember] at hwire
      exact (Option.some.inj hwire).symm
    unfold Carries at hcarries
    rw [hmember] at hcarries
    obtain ⟨hle, hread⟩ := hheld.string junk hcarries.1 hcarries.2 hlen
    dsimp only
    rw [if_pos hle]
    exact ⟨_, rfl, hread⟩

/-! ## Packed fields

All values in one slice, one behind the other. -/

/-- An element that was written out. -/
theorem element_of_encoded {x : Value} {front : List UInt8} (hplain : fd.type.plain = true) (hbuilt : BuiltValue w p fd x)
    (hencode : encodePackedValue fd.type x = some (some front)) :
    ElementOk fd.type front ∧ ∀ R y, HoldsElement fd.type front y → SameContent R fd.type x y := by
  unfold ElementOk HoldsElement SameContent elementWord
  cases hfd : fd.type <;> dsimp only [FieldType.member]
  case string | bytes | message | group =>
    rw [hfd] at hencode
    cases hencode
  case sint32 | sint64 =>
    rw [hfd] at hplain
    exact absurd hplain (by decide)
  -- as in place: a varint
  case int32 | int64 | uint32 | uint64 | bool | enum =>
    have hmember : fd.type.member = some .varint := by rw [hfd]; rfl
    have hlt := wordOf_lt fd.type (hbuilt.word (Or.inl hmember))
    have hfront : front = encodeVarint (wordOf fd.type x) := by
      have hvalue := encodeVarintValue_eq (v := x) hplain hmember
      rw [hfd] at hencode hvalue ⊢
      exact Option.some.inj (Option.some.inj (hencode.symm.trans hvalue))
    obtain ⟨h10, hval⟩ := encodeVarint_varint10 hlt
    rw [hfront]
    refine ⟨h10, ?_⟩
    intro R y hy
    rw [← hfd]
    rw [hval, Nat.mod_eq_of_lt hlt] at hy
    exact hy
  -- four bytes, and eight
  case fixed32 | sfixed32 | float =>
    have hfront : front = toLe 4 x.f := by
      rw [hfd] at hencode
      exact (Option.some.inj (Option.some.inj hencode)).symm
    rw [hfront]
    refine ⟨toLe_length _ _, ?_⟩
    intro R y hy
    have hpow : (256 : Nat) ^ 4 = 2 ^ 32 := by decide
    have hlt : x.f < 2 ^ 32 := Nat.mod_lt _ (Nat.two_pow_pos 32)
    rw [ofLe_toLe, hpow, Nat.mod_eq_of_lt hlt] at hy
    exact hy
  case fixed64 | sfixed64 | double =>
    have hmember : fd.type.member = some .d := by rw [hfd]; rfl
    have hfront : front = toLe 8 x.primitive := by
      rw [hfd] at hencode
      exact (Option.some.inj (Option.some.inj hencode)).symm
    rw [hfront]
    refine ⟨toLe_length _ _, ?_⟩
    intro R y hy
    have hpow : (256 : Nat) ^ 8 = 2 ^ 64 := by decide
    rw [ofLe_toLe, hpow, Nat.mod_eq_of_lt (hbuilt.word (Or.inr hmember))] at hy
    exact hy

/-- What was written for a list was written for its head and for the rest. -/
theorem encodeAll_cons_inv {α : Type} {encode : α → Encoded} {x : α} {xs : List α} {bytes : List UInt8}
    (h : encodeAll encode (x :: xs) = some (some bytes)) :
    ∃ front rest, encode x = some (some front) ∧ encodeAll encode xs = some (some rest) ∧ bytes = front ++ rest := by
  unfold encodeAll at h
  split at h
  next front hfront =>
    obtain ⟨o, ho, heq⟩ := Option.map_eq_some_iff.mp h
    obtain ⟨rest, rfl, heq'⟩ := Option.map_eq_some_iff.mp heq
    exact ⟨front, rest, hfront, ho, heq'.symm⟩
  next hne => exact absurd h (hne bytes)

/-- What an encoder appends for each element of a list. -/
theorem encodeAll_inv {α : Type} {encode : α → Encoded} {xs : List α} {bytes : List UInt8}
    (h : encodeAll encode xs = some (some bytes)) :
    ∃ es, bytes = es.flatten ∧ List.Forall₂ (fun x e => encode x = some (some e)) xs es := by
  induction xs generalizing bytes with
  | nil =>
      cases h
      exact ⟨[], rfl, List.Forall₂.nil⟩
  | cons x xs ih =>
      obtain ⟨front, rest, hfront, hrest, rfl⟩ := encodeAll_cons_inv h
      obtain ⟨es, rfl, hes⟩ := ih hrest
      exact ⟨front :: es, rfl, List.Forall₂.cons hfront hes⟩

/-- **A packed field that was written out is decoded to its values.** -/
theorem decodePacked_written (R : MessagePtr → MessagePtr → Prop) (junk : Junk) {packed : List UInt8}
    (hplain : fd.type.plain = true) (hne : f.values ≠ []) (hbuilt : ∀ v ∈ f.values, BuiltValue w p fd v)
    (hvalues : f'.values = [v']) (hencode : encodeAll (encodePackedValue fd.type) f.values = some (some packed))
    (hr : r.payload = delimit packed) (hpre : r.pre = encodeVarint packed.length) (hwire : r.wire = .kLengthDelimited)
    (hheld : Held mem r v') :
    ∃ f₁, decodePacked junk mem fd.type f' = some f₁ ∧ List.Forall₂ (SameContent R fd.type) f.values f₁.values := by
  obtain ⟨hp, -⟩ := hheld.body hr hpre hwire
  obtain ⟨es, rfl, hes⟩ := encodeAll_inv hencode
  have hall := (List.forall₂_and_left _ _).mpr ⟨hbuilt, hes⟩
  have hok : ∀ e ∈ es, ElementOk fd.type e := by
    intro e he
    obtain ⟨x, -, hx, henc⟩ := exists_of_mem_right hall he
    exact (element_of_encoded hplain hx henc).1
  have hne' : es ≠ [] := by
    intro hnil
    have hlen := hes.length_eq
    rw [hnil] at hlen
    exact hne (List.length_eq_zero_iff.mp hlen)
  obtain ⟨f₁, hdecode, -, helements⟩ := decodePacked_elements junk hvalues hp hok hne'
  refine ⟨f₁, hdecode, (forall₂_comp hall helements).imp ?_⟩
  rintro x y ⟨e, -, ⟨hx, henc⟩, hy⟩
  exact (element_of_encoded hplain hx henc).2 R y hy

end CompactProtobuf
end Snippets
