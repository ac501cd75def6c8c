import Snippets.CompactProtobuf.Message

/-!
# `CompactProtobuf.Records` — what the parsers do on a byte string in memory

A parser works on addresses; its inputs are byte strings. `Placed mem slice bs` says that `slice` is exactly the
string `bs` in memory. From it every parser is described by the bytes at its position: `varintLen`, `lazyLen` and
`varintVal` are the two lengths and the value the varint loops find at the front of a byte string, whatever that
string is.
-/

namespace Snippets

open Lib

namespace CompactProtobuf

/-- The slice is the byte string `bs`, which keeps clear of the last sixteen addresses. -/
structure Placed (mem : Mem) (slice : Slice) (bs : List UInt8) : Prop where
  holds : mem.Holds slice.start bs
  endAddr : slice.endAddr = slice.start + bs.length
  room : slice.endAddr + 16 ≤ 2 ^ 64

/-! ## The varint at the front of a byte string -/

/-- The length `ParseVarintInternal` finds. -/
def varintLen (bs : List UInt8) : Nat := Varint.conts (bs.take 10) + 1

/-- The value `ParseVarintInternal` finds. -/
def varintVal (bs : List UInt8) : Nat := Varint.value ((bs.take 10).take (varintLen bs)) % 2 ^ 64

/-- The length `ParseVarintLazy` finds. -/
def lazyLen (bs : List UInt8) : Nat := Varint.conts (bs.take 9) + 1

theorem varintLen_le (bs : List UInt8) : 1 ≤ varintLen bs ∧ varintLen bs ≤ 11 ∧ varintLen bs ≤ bs.length + 1 := by
  have h₁ := Varint.conts_take_le 10 bs
  have h₂ := Varint.conts_le_length (bs.take 10)
  rw [List.length_take] at h₂
  unfold varintLen
  omega

theorem lazyLen_le (bs : List UInt8) : 1 ≤ lazyLen bs ∧ lazyLen bs ≤ 10 ∧ lazyLen bs ≤ bs.length + 1 := by
  have h₁ := Varint.conts_take_le 9 bs
  have h₂ := Varint.conts_le_length (bs.take 9)
  rw [List.length_take] at h₂
  unfold lazyLen
  omega

theorem varintVal_lt (bs : List UInt8) : varintVal bs < 2 ^ 64 := Nat.mod_lt _ (by decide)

section Complete

variable {c rest : List UInt8} (hc : Varint.Complete c) (h10 : c.length ≤ 10)
include hc h10

theorem varintLen_complete : varintLen (c ++ rest) = c.length :=
  hc.conts_take (by omega) rest

theorem lazyLen_complete : lazyLen (c ++ rest) = c.length :=
  hc.conts_take (by omega) rest

theorem varintVal_complete : varintVal (c ++ rest) = Varint.value c % 2 ^ 64 := by
  unfold varintVal
  rw [varintLen_complete hc h10, List.take_take, Nat.min_eq_left h10, List.take_left]

end Complete

/-! ## The parsers on a placed string -/

variable {mem : Mem} {slice : Slice} {bs : List UInt8} {st : ParserState}

/-- Positions little past the end give exact addresses. -/
theorem Placed.cur_eq (hp : Placed mem slice bs) (hs : st.slice = slice) (hpos : st.pos ≤ bs.length + 9) :
    st.cur = slice.start + st.pos := by
  have h₁ := hp.endAddr
  have h₂ := hp.room
  unfold ParserState.cur
  rw [hs, toSize_of_range (by omega) (by omega)]
  omega

/-- The loop of `ParseMessageLazy` goes on exactly inside the string. -/
theorem Placed.cur_lt_iff (hp : Placed mem slice bs) (hs : st.slice = slice) (hpos : st.pos ≤ bs.length + 9) :
    st.cur < st.slice.endAddr ↔ st.pos < bs.length := by
  have h₁ := hp.endAddr
  rw [hp.cur_eq hs hpos, hs]
  omega

/-- The loop of `ParseVarintInternal` from the start of a byte string. -/
theorem parseVarintLoop_front {cur : Nat} (hbs : mem.Holds cur bs) :
    parseVarintLoop mem (cur + bs.length) 10 cur 1 0 = (varintVal bs, varintLen bs) := by
  rw [parseVarintLoop_eq 10 cur hbs rfl (le_refl 1) (by decide) (by decide)]
  unfold varintVal varintLen
  refine Prod.ext ?_ (Nat.add_comm _ _)
  simp

/-- The rest of the string, from a position in it. -/
theorem Placed.drop (hp : Placed mem slice bs) {pos : Nat} (hle : pos ≤ bs.length) :
    mem.Holds ((slice.start + pos : Nat) : Int) (bs.drop pos) ∧ slice.endAddr = slice.start + pos + (bs.drop pos).length := by
  have hend := hp.endAddr
  refine ⟨?_, ?_⟩
  · push_cast
    exact hp.holds.drop pos hle
  · rw [List.length_drop]
    omega

theorem Placed.parseVarintLoop_eq (hp : Placed mem slice bs) {pos : Nat} (hpos : pos ≤ bs.length + 1) :
    parseVarintLoop mem slice.endAddr 10 (slice.start + pos) 1 0 = (varintVal (bs.drop pos), varintLen (bs.drop pos)) := by
  have hend := hp.endAddr
  by_cases hle : pos ≤ bs.length
  · obtain ⟨hholds, hlen⟩ := hp.drop hle
    rw [hlen, parseVarintLoop_front hholds]
  · -- one past the end: the loop sees nothing
    have hnil : bs.drop pos = [] := List.drop_eq_nil_of_le (by omega)
    rw [hnil]
    unfold parseVarintLoop
    rw [if_neg (by omega)]
    decide

theorem Placed.parseVarintLazyLoop_eq (hp : Placed mem slice bs) {pos : Nat} (hpos : pos ≤ bs.length + 1) :
    parseVarintLazyLoop mem slice.endAddr 9 (slice.start + pos) 1 = lazyLen (bs.drop pos) := by
  have hend := hp.endAddr
  by_cases hle : pos ≤ bs.length
  · obtain ⟨hholds, hlen⟩ := hp.drop hle
    rw [hlen, CompactProtobuf.parseVarintLazyLoop_eq 9 _ hholds]
    exact Nat.add_comm _ _
  · have hnil : bs.drop pos = [] := List.drop_eq_nil_of_le (by omega)
    rw [hnil]
    unfold parseVarintLazyLoop
    rw [if_neg (by omega)]
    decide

/-- `ParseVarintInternal` up to one past the end. -/
theorem Placed.parseVarintInternal_eq (hp : Placed mem slice bs) (hs : st.slice = slice)
    (hpos : st.pos ≤ bs.length + 1) :
    parseVarintInternal mem st =
      ({ st with v := { st.v with primitive := varintVal (bs.drop st.pos) } }, varintLen (bs.drop st.pos)) := by
  unfold parseVarintInternal
  rw [hp.cur_eq hs (by omega), hs, hp.parseVarintLoop_eq hpos]

/-- The state after a valid tag: `ParseTag` steps over it and leaves its value in the union. -/
def afterTag (bs : List UInt8) (st : ParserState) (w : WireType) : ParserState :=
  { st with
    pos := st.pos + varintLen (bs.drop st.pos)
    fieldId := getFieldId (varintVal (bs.drop st.pos))
    wireType := w
    v := { st.v with primitive := varintVal (bs.drop st.pos) } }

/-- The tag ends at most one byte past the end. -/
theorem afterTag_pos_le (hpos : st.pos < bs.length) (w : WireType) : (afterTag bs st w).pos ≤ bs.length + 1 := by
  have h := (varintLen_le (bs.drop st.pos)).2.2
  rw [List.length_drop] at h
  show st.pos + varintLen (bs.drop st.pos) ≤ _
  omega

theorem Placed.parseTag_eq (hp : Placed mem slice bs) (hs : st.slice = slice) (hpos : st.pos < bs.length) :
    (∃ w, getWireType (varintVal (bs.drop st.pos)) = some w ∧ parseTag mem st = (.kOk, afterTag bs st w)) ∨
      (getWireType (varintVal (bs.drop st.pos)) = none ∧ ∃ st', parseTag mem st = (.kInvalidWireType, st')) := by
  have hle := afterTag_pos_le hpos .kVarint
  have hroom := hp.room
  have hend := hp.endAddr
  have hposEq : toSize ((st.pos : Int) + varintLen (bs.drop st.pos)) = st.pos + varintLen (bs.drop st.pos) := by
    change st.pos + varintLen (bs.drop st.pos) ≤ _ at hle
    rw [toSize_of_range (by omega) (by omega)]
    omega
  unfold parseTag parseVarint
  rw [hp.parseVarintInternal_eq hs (by omega)]
  simp only [hposEq]
  cases hw : getWireType (varintVal (bs.drop st.pos)) with
  | some w => exact Or.inl ⟨w, rfl, rfl⟩
  | none => exact Or.inr ⟨rfl, _, rfl⟩

/-! ## One record -/

/-- The fields a parser of values sets. -/
def withValue (st : ParserState) (pos : Nat) (encoded : Slice) (primitive : Nat) : ParserState :=
  { st with pos := pos, v := { st.v with encoded := encoded, primitive := primitive } }

/-- A varint record always ends with `kOk`. -/
theorem Placed.parseVarintLazy_eq (hp : Placed mem slice bs) (st : ParserState) (hs : st.slice = slice)
    (hpos : st.pos ≤ bs.length + 1) :
    parseVarintLazy mem st = withValue st (st.pos + lazyLen (bs.drop st.pos))
      ⟨slice.start + st.pos, slice.start + (st.pos + lazyLen (bs.drop st.pos))⟩ st.v.primitive := by
  have hl := (lazyLen_le (bs.drop st.pos)).2.2
  have hend := hp.endAddr
  have hroom := hp.room
  rw [List.length_drop] at hl
  have hposEq : toSize ((st.pos : Int) + lazyLen (bs.drop st.pos)) = st.pos + lazyLen (bs.drop st.pos) := by
    rw [toSize_of_range (by omega) (by omega)]; omega
  have hendEq : toSize ((slice.start : Int) + (st.pos + lazyLen (bs.drop st.pos) : Nat)) =
      slice.start + (st.pos + lazyLen (bs.drop st.pos)) := by
    rw [toSize_of_range (by omega) (by omega)]; omega
  unfold parseVarintLazy
  rw [hp.cur_eq hs (by omega), hs, hp.parseVarintLazyLoop_eq hpos]
  simp only [hposEq, hendEq]
  unfold withValue
  rw [hs]

/-- A fixed-width record ends with `kOk` exactly when its bytes are there. -/
theorem Placed.parseFixedLazy_eq (hp : Placed mem slice bs) (st : ParserState) (hs : st.slice = slice)
    (hpos : st.pos ≤ bs.length + 1) (width : Nat) (hw : width ≤ 8) :
    (st.pos + width ≤ bs.length ∧ parseFixedLazy width st = (.kOk, withValue st (st.pos + width)
        ⟨slice.start + st.pos, slice.start + st.pos + width⟩ st.v.primitive)) ∨
      (bs.length < st.pos + width ∧ parseFixedLazy width st = (.kNeedsMore, st)) := by
  have hend := hp.endAddr
  have hroom := hp.room
  have hcur := hp.cur_eq hs (show st.pos ≤ _ by omega)
  have hposEq : toSize ((st.pos : Int) + width) = st.pos + width := by
    rw [toSize_of_range (by omega) (by omega)]; omega
  have hendEq : toSize ((slice.start + st.pos : Nat) + (width : Int)) = slice.start + st.pos + width := by
    rw [toSize_of_range (by omega) (by omega)]; omega
  unfold parseFixedLazy
  rw [hcur]
  simp only [hposEq, hendEq]
  rw [hs]
  by_cases hle : st.pos + width ≤ bs.length
  · refine Or.inl ⟨hle, ?_⟩
    rw [if_neg (by omega)]
    unfold withValue
    rw [hs]
  · refine Or.inr ⟨by omega, ?_⟩
    rw [if_pos (by omega)]

/-- A length-delimited record ends with `kOk` exactly when the 64-bit sum of its end is not past the end. -/
theorem Placed.parseLengthDelimitedLazy_eq (hp : Placed mem slice bs) (st : ParserState) (hs : st.slice = slice)
    (hpos : st.pos ≤ bs.length + 1) :
    let l := varintLen (bs.drop st.pos)
    let p := varintVal (bs.drop st.pos)
    let e := toSize ((slice.start : Int) + st.pos + l + p)
    (e ≤ slice.endAddr ∧ parseLengthDelimitedLazy mem st =
        (.kOk, withValue st (toSize ((st.pos : Int) + l + p)) ⟨slice.start + st.pos, e⟩ l)) ∨
      (slice.endAddr < e ∧ ∃ st', parseLengthDelimitedLazy mem st = (.kNeedsMore, st')) := by
  intro l p e
  unfold parseLengthDelimitedLazy
  rw [hp.parseVarintInternal_eq hs hpos]
  have hcur := hp.cur_eq hs (show st.pos ≤ _ by omega)
  by_cases hle : e ≤ slice.endAddr
  · refine Or.inl ⟨hle, ?_⟩
    simp only [hs]
    rw [if_neg (Nat.not_lt.mpr hle)]
    unfold withValue
    show (ParserStatus.kOk, _) = _
    simp only [ParserState.cur, hs] at hcur ⊢
    rw [hcur]
  · refine Or.inr ⟨by omega, { st with v := { st.v with primitive := p } }, ?_⟩
    simp only [hs]
    rw [if_pos (Nat.lt_of_not_le hle)]

/-- The width of a fixed-width wire type. -/
def WireType.width : WireType → Nat
  | .k64Bits => 8
  | _ => 4

/-- What a record that ends with `kOk` does, by wire type. -/
inductive RecordOk (slice : Slice) (bs : List UInt8) (st : ParserState) : ParserState → Prop
  | varint (w : getWireType (varintVal (bs.drop st.pos)) = some .kVarint) (pos : Nat)
      (hpos : pos = st.pos + varintLen (bs.drop st.pos)) :
      RecordOk slice bs st (withValue (afterTag bs st .kVarint) (pos + lazyLen (bs.drop pos))
        ⟨slice.start + pos, slice.start + (pos + lazyLen (bs.drop pos))⟩ (varintVal (bs.drop st.pos)))
  | delimited (w : getWireType (varintVal (bs.drop st.pos)) = some .kLengthDelimited) (pos e : Nat)
      (hpos : pos = st.pos + varintLen (bs.drop st.pos))
      (he : e = toSize ((slice.start : Int) + pos + varintLen (bs.drop pos) + varintVal (bs.drop pos)))
      (hle : e ≤ slice.endAddr) :
      RecordOk slice bs st (withValue (afterTag bs st .kLengthDelimited)
        (toSize ((pos : Int) + varintLen (bs.drop pos) + varintVal (bs.drop pos))) ⟨slice.start + pos, e⟩
        (varintLen (bs.drop pos)))
  | fixed (w : WireType) (hw : getWireType (varintVal (bs.drop st.pos)) = some w) (h : w = .k64Bits ∨ w = .k32Bits)
      (pos : Nat) (hpos : pos = st.pos + varintLen (bs.drop st.pos)) (hle : pos + w.width ≤ bs.length) :
      RecordOk slice bs st (withValue (afterTag bs st w) (pos + w.width)
        ⟨slice.start + pos, slice.start + pos + w.width⟩ (varintVal (bs.drop st.pos)))

/-- **Inversion of `parseRecord`** on a placed string. -/
theorem Placed.parseRecord_ok (hp : Placed mem slice bs) (hs : st.slice = slice) (hpos : st.pos < bs.length)
    {st' : ParserState} (h : parseRecord mem st = (.kOk, st')) : RecordOk slice bs st st' := by
  unfold parseRecord parseValueLazy at h
  rcases hp.parseTag_eq hs hpos with ⟨w, hw, htag⟩ | ⟨-, st₁, htag⟩
  · rw [htag] at h
    have hle := afterTag_pos_le hpos w
    cases w with
    | kVarint =>
        obtain rfl := (Prod.mk.inj h).2
        rw [hp.parseVarintLazy_eq (afterTag bs st .kVarint) hs hle]
        exact RecordOk.varint hw _ rfl
    | kLengthDelimited =>
        rcases hp.parseLengthDelimitedLazy_eq (afterTag bs st .kLengthDelimited) hs hle with
          ⟨he, hok⟩ | ⟨-, st₁, hbad⟩
        · have hst := (Prod.mk.inj (hok.symm.trans h)).2
          rw [← hst]
          exact RecordOk.delimited hw _ _ rfl rfl he
        · exact absurd (Prod.mk.inj (hbad.symm.trans h)).1 (by decide)
    | k64Bits =>
        rcases hp.parseFixedLazy_eq (afterTag bs st .k64Bits) hs hle 8 (le_refl 8) with ⟨he, hok⟩ | ⟨-, hbad⟩
        · have hst := (Prod.mk.inj (hok.symm.trans h)).2
          rw [← hst]
          exact RecordOk.fixed .k64Bits hw (Or.inl rfl) _ rfl he
        · exact absurd (Prod.mk.inj (hbad.symm.trans h)).1 (by decide)
    | k32Bits =>
        rcases hp.parseFixedLazy_eq (afterTag bs st .k32Bits) hs hle 4 (by omega) with
          ⟨he, hok⟩ | ⟨-, hbad⟩
        · have hst := (Prod.mk.inj (hok.symm.trans h)).2
          rw [← hst]
          exact RecordOk.fixed .k32Bits hw (Or.inr rfl) _ rfl he
        · exact absurd (Prod.mk.inj (hbad.symm.trans h)).1 (by decide)
  · rw [htag] at h
    exact absurd (Prod.mk.inj h).1 (by decide)

end CompactProtobuf
end Snippets
