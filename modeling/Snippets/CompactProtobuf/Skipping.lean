import Snippets.CompactProtobuf.Codec

/-!
# `CompactProtobuf.Skipping` — a varint that is skipped, and decoded later

`ParseVarintLazy` steps over at most ten bytes, `ParseVarint` over eleven. And both step over a byte that is not there when the
slice ends within the varint: the byte behind the slice is recorded with the others, and `DecodeVarint` reads it. So the two
agree exactly on varints with at most nine continuation bytes, behind which the slice goes on or a byte follows that spells
nothing (`skipAgrees_iff`).
-/

namespace Snippets

open Lib

namespace CompactProtobuf

variable {mem : Mem} {front rest bs : List UInt8} {st : ParserState}

/-- The two parsers agree on the varint at the position, and it is decoded from the slice that was recorded as it would be there. -/
structure SkipAgrees (mem : Mem) (st : ParserState) : Prop where
  pos : (parseVarintLazy mem st).pos = (parseVarint mem st).pos
  value : ∀ junk, (parseVarint mem (startState junk (parseVarintLazy mem st).v.encoded)).v.primitive =
    (parseVarint mem st).v.primitive

/-- The varint has at most nine continuation bytes. If it has no others in the slice, the seven bits behind the slice are zero, as
    far as they belong to its word. -/
structure Skippable (mem : Mem) (endAddr : Nat) (rest : List UInt8) : Prop where
  short : Varint.conts rest ≤ 9
  cut : Varint.conts rest = rest.length → 2 ^ 64 ∣ 2 ^ (7 * rest.length) * ((mem endAddr).toNat % 128)

/-! ## Lengths -/

theorem varintLen_eq (bs : List UInt8) : varintLen bs = min 10 (Varint.conts bs) + 1 := by
  unfold varintLen
  rw [Varint.conts_take]

theorem lazyLen_eq (bs : List UInt8) : lazyLen bs = min 9 (Varint.conts bs) + 1 := by
  unfold lazyLen
  rw [Varint.conts_take]

theorem lazyLen_eq_iff (bs : List UInt8) : lazyLen bs = varintLen bs ↔ Varint.conts bs ≤ 9 := by
  rw [lazyLen_eq, varintLen_eq]
  omega

/-- The bytes of a short varint. -/
theorem varintVal_eq (h : Varint.conts bs ≤ 9) : varintVal bs = Varint.value (bs.take (lazyLen bs)) % 2 ^ 64 := by
  have hlen := (lazyLen_eq_iff bs).mpr h
  have hle := (lazyLen_le bs).2.1
  unfold varintVal
  rw [List.take_take, ← hlen, Nat.min_eq_left hle]

/-! ## Values -/

/-- What is skipped is decoded to the same value, where it lies in the slice. -/
theorem varintVal_take (h : Varint.conts rest ≤ 9) :
    varintVal (rest.take (lazyLen rest)) = varintVal rest := by
  have hlazy := lazyLen_eq rest
  have hconts : Varint.conts (rest.take (lazyLen rest)) = Varint.conts rest := by
    rw [Varint.conts_take]
    omega
  have hlen : lazyLen (rest.take (lazyLen rest)) = lazyLen rest := by rw [lazyLen_eq, hconts, ← hlazy]
  rw [varintVal_eq (by omega), varintVal_eq h, hlen, List.take_take, Nat.min_self]

/-- A byte behind continuation bytes. -/
theorem varintVal_concat (h : Varint.conts rest ≤ 9) (hall : Varint.conts rest = rest.length) (b : UInt8) :
    varintVal (rest ++ [b]) = (Varint.value rest + 2 ^ (7 * rest.length) * (b.toNat % 128)) % 2 ^ 64 := by
  have hle := Varint.le_conts_append hall [b]
  have hlen := varintLen_eq (rest ++ [b])
  have hvalue : Varint.value [b] = b.toNat % 128 := by simp [Varint.value]
  have hten : (rest ++ [b]).take 10 = rest ++ [b] := List.take_of_length_le (by simp; omega)
  unfold varintVal
  rw [hten, List.take_of_length_le (by simp; omega), Varint.value_append, hvalue]

theorem varintVal_all (h : Varint.conts rest ≤ 9) (hall : Varint.conts rest = rest.length) :
    varintVal rest = Varint.value rest % 2 ^ 64 := by
  have hlazy := lazyLen_eq rest
  rw [varintVal_eq h, List.take_of_length_le (by omega)]

/-- With a byte behind it a varint is decoded to what it was, exactly when that byte spells nothing. -/
theorem varintVal_concat_iff (h : Varint.conts rest ≤ 9) (hall : Varint.conts rest = rest.length) (b : UInt8) :
    varintVal (rest ++ [b]) = varintVal rest ↔ 2 ^ 64 ∣ 2 ^ (7 * rest.length) * (b.toNat % 128) := by
  rw [varintVal_concat h hall, varintVal_all h hall]
  constructor
  · intro heq
    have hsub := Nat.sub_mod_eq_zero_of_mod_eq heq
    rw [Nat.add_sub_cancel_left] at hsub
    exact Nat.dvd_of_mod_eq_zero hsub
  · rintro ⟨c, hc⟩
    rw [hc, Nat.add_mul_mod_self_left]

/-! ## The recorded slice -/

/-- `ParseVarint` from the start of a slice. -/
theorem parseVarint_slice {a : Nat} (hbs : mem.Holds a bs) (hlt : a + bs.length < 2 ^ 64) (junk : Junk) :
    (parseVarint mem (startState junk ⟨a, a + bs.length⟩)).v.primitive = varintVal bs := by
  have hcur : (startState junk ⟨a, a + bs.length⟩).cur = a := by
    show toSize ((a : Int) + (0 : Nat)) = a
    rw [toSize_of_range (by omega) (by omega)]
    omega
  have hval : (parseVarint mem (startState junk ⟨a, a + bs.length⟩)).v.primitive =
      (parseVarintLoop mem (a + bs.length) 10 (startState junk ⟨a, a + bs.length⟩).cur 1 0).1 := rfl
  rw [hval, hcur, parseVarintLoop_front hbs]

/-- The recorded slice has the bytes that were stepped over, of the rest and the byte behind it. -/
theorem Inside.recorded (h : Inside mem st front rest) (junk : Junk) :
    (parseVarint mem (startState junk (parseVarintLazy mem st).v.encoded)).v.primitive =
      varintVal ((rest ++ [mem st.slice.endAddr]).take (lazyLen rest)) := by
  have hend := h.placed.endAddr
  have hroom := h.placed.room
  have hpos := h.pos
  have hle := (lazyLen_le rest).2.2
  rw [List.length_append] at hend
  have hholds : mem.Holds ((st.slice.start + st.pos : Nat) : Int) (rest ++ [mem st.slice.endAddr]) := by
    have hrest := (Mem.holds_append.mp h.placed.holds).2
    have hstart : ((st.slice.start + st.pos : Nat) : Int) = st.slice.start + front.length := by omega
    have hbehind : (st.slice.start : Int) + front.length + rest.length = st.slice.endAddr := by omega
    rw [hstart]
    refine Mem.holds_append.mpr ⟨hrest, ?_⟩
    rw [hbehind]
    exact ⟨rfl, trivial⟩
  have hlen : ((rest ++ [mem st.slice.endAddr]).take (lazyLen rest)).length = lazyLen rest := by
    rw [List.length_take, List.length_append, List.length_singleton]
    omega
  have htaken := hholds
  rw [← List.take_append_drop (lazyLen rest) (rest ++ [mem st.slice.endAddr])] at htaken
  have hdecoded := parseVarint_slice (Mem.holds_append.mp htaken).1 (by omega) junk
  rw [hlen] at hdecoded
  rw [h.placed.parseVarintLazy_eq st rfl (by rw [List.length_append]; omega), h.drop, ← hdecoded]
  unfold withValue
  simp only [Nat.add_assoc]

/-! ## Agreement -/

/-- **A varint is skipped as it is decoded exactly when it is short, and nothing behind the slice adds to it.** -/
theorem skipAgrees_iff (h : Inside mem st front rest) : SkipAgrees mem st ↔ Skippable mem st.slice.endAddr rest := by
  have hlazy := lazyLen_eq rest
  have hle := Varint.conts_le_length rest
  have hpos : (parseVarintLazy mem st).pos = (parseVarint mem st).pos ↔ Varint.conts rest ≤ 9 := by
    have hskip : (parseVarintLazy mem st).pos = st.pos + lazyLen rest := by
      rw [h.placed.parseVarintLazy_eq st rfl (by rw [h.pos, List.length_append]; omega), h.drop]
      rfl
    rw [hskip, h.parseVarint_eq, ← lazyLen_eq_iff]
    exact Nat.add_left_cancel_iff
  have hvalue : (parseVarint mem st).v.primitive = varintVal rest := by rw [h.parseVarint_eq]
  -- where the slice goes on behind the continuation bytes, nothing behind it is read
  have hinner (hlt : Varint.conts rest < rest.length) :
      (rest ++ [mem st.slice.endAddr]).take (lazyLen rest) = rest.take (lazyLen rest) :=
    List.take_append_of_le_length (by omega)
  have houter (hshort : Varint.conts rest ≤ 9) (hall : Varint.conts rest = rest.length) :
      (rest ++ [mem st.slice.endAddr]).take (lazyLen rest) = rest ++ [mem st.slice.endAddr] :=
    List.take_of_length_le (by rw [List.length_append, List.length_singleton]; omega)
  constructor
  · intro hagrees
    have hshort := hpos.mp hagrees.pos
    refine ⟨hshort, ?_⟩
    intro hall
    have heq := hagrees.value zeroJunk
    rw [h.recorded, hvalue, houter hshort hall] at heq
    exact (varintVal_concat_iff hshort hall _).mp heq
  · intro hskip
    refine ⟨hpos.mpr hskip.short, ?_⟩
    intro junk
    rw [h.recorded, hvalue]
    rcases Nat.lt_or_eq_of_le hle with hlt | hall
    · rw [hinner hlt]
      exact varintVal_take hskip.short
    · rw [houter hskip.short hall]
      exact (varintVal_concat_iff hskip.short hall _).mpr (hskip.cut hall)

/-- The state of a parser at the start of the slice that `memAt` fills with `bs`. -/
def atStart (bs : List UInt8) : ParserState := startState zeroJunk ⟨4096, 4096 + bs.length⟩

/-- `150`, in two bytes. -/
theorem skipAgrees_150 : SkipAgrees (memAt [0x96, 0x01]) (atStart [0x96, 0x01]) :=
  (@skipAgrees_iff _ [] _ _ ⟨⟨Mem.holds_iff_read.mpr (by decide +kernel), rfl, by decide⟩, rfl⟩).mpr
    ⟨by decide, fun hall => absurd hall (by decide)⟩

/-- Ten continuation bytes are stepped over in ten bytes or eleven; and a slice that ends behind `0x80`, with a `1` behind it, is
    decoded to `0` at its place and to `128` from what was recorded. -/
theorem not_skipAgrees_tenBytes :
    ¬ SkipAgrees (memAt (List.replicate 10 0x80 ++ [0x01])) (atStart (List.replicate 10 0x80 ++ [0x01])) ∧
      ¬ SkipAgrees (memAt [0x80, 0x01]) (atStart [0x80]) := by
  constructor
  · intro h
    exact absurd h.pos (by decide +kernel)
  · intro h
    exact absurd (h.value zeroJunk) (by decide +kernel)

end CompactProtobuf
end Snippets
