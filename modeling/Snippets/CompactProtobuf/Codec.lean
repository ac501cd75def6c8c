import Snippets.CompactProtobuf.Encoder
import Snippets.CompactProtobuf.Progress

/-!
# `CompactProtobuf.Codec` — varints are written and read back

`EncodeVarint` writes every 64-bit word in one to ten bytes, `ParseVarint` reads it back from them whatever follows, and nothing
shorter is read as that word (`varint_codec`). The same goes for a tag and `ParseTag`.
-/

namespace Snippets

open Lib

namespace CompactProtobuf

variable {mem : Mem} {slice : Slice} {front cs rest : List UInt8} {st : ParserState} {v : Nat}

/-- A parser inside a byte string: it has `front` behind it, and `rest` ahead. -/
structure Inside (mem : Mem) (st : ParserState) (front rest : List UInt8) : Prop where
  placed : Placed mem st.slice (front ++ rest)
  pos : st.pos = front.length

theorem Inside.drop (h : Inside mem st front rest) : (front ++ rest).drop st.pos = rest := by
  rw [h.pos, List.drop_left]

theorem Inside.parseVarint_eq (h : Inside mem st front rest) :
    parseVarint mem st = { st with pos := st.pos + varintLen rest, v := { st.v with primitive := varintVal rest } } := by
  have hle := (varintLen_le rest).2.2
  have hend := h.placed.endAddr
  have hroom := h.placed.room
  have hpos := h.pos
  rw [List.length_append] at hend
  unfold parseVarint
  rw [h.placed.parseVarintInternal_eq rfl (by rw [List.length_append]; omega), h.drop]
  dsimp only
  rw [toSize_of_range (by omega) (by omega)]
  rfl

/-! ## Varints -/

/-- What `EncodeVarint` and `ParseVarint` promise about a word. -/
structure VarintCodec (v : Nat) : Prop where
  bounded : 1 ≤ (encodeVarint v).length ∧ (encodeVarint v).length ≤ 10
  parsed : ∀ {mem st front rest}, Inside mem st front (encodeVarint v ++ rest) →
    parseVarint mem st = { st with pos := st.pos + (encodeVarint v).length, v := { st.v with primitive := v } }
  shortest : ∀ {mem st front cs rest}, Inside mem st front (cs ++ rest) → (parseVarint mem st).v.primitive = v →
    (parseVarint mem st).pos = st.pos + cs.length → (encodeVarint v).length ≤ cs.length

/-- A varint of `cs.length` bytes spells less than `128 ^ cs.length`. -/
theorem varintVal_lt_pow (h : varintLen (cs ++ rest) = cs.length) : varintVal (cs ++ rest) < 128 ^ cs.length := by
  have hlt := Varint.value_lt (((cs ++ rest).take 10).take cs.length)
  have hle : (((cs ++ rest).take 10).take cs.length).length ≤ cs.length := List.length_take_le _ _
  have hpow : (2 : Nat) ^ (7 * cs.length) = 128 ^ cs.length := Nat.pow_mul 2 7 cs.length
  unfold varintVal
  rw [h, ← hpow]
  calc Varint.value (((cs ++ rest).take 10).take cs.length) % 2 ^ 64
      ≤ Varint.value (((cs ++ rest).take 10).take cs.length) := Nat.mod_le _ _
    _ < 2 ^ (7 * (((cs ++ rest).take 10).take cs.length).length) := hlt
    _ ≤ 2 ^ (7 * cs.length) := Nat.pow_le_pow_right (by decide) (by omega)

theorem encodeVarint_shortest (h : varintLen (cs ++ rest) = cs.length) :
    (encodeVarint (varintVal (cs ++ rest))).length ≤ cs.length := by
  have hpos := (varintLen_le (cs ++ rest)).1
  obtain ⟨n, hn⟩ : ∃ n, cs.length = n + 1 := ⟨cs.length - 1, by omega⟩
  have hlt := varintVal_lt_pow h
  unfold encodeVarint
  rw [encodeVarintLoop_eq]
  rw [hn] at hlt ⊢
  exact Varint.digits_length_le_of_lt hlt 11

theorem varintCodec_of_lt (hv : v < 2 ^ 64) : VarintCodec v := by
  obtain ⟨hc, -⟩ := encodeVarint_varint10 hv
  refine ⟨⟨hc.1.length_pos, hc.2⟩, ?_, ?_⟩
  · intro mem st front rest h
    rw [h.parseVarint_eq, varintLen_encode hv, varintVal_encode hv]
  · intro mem st front cs rest h hval hpos
    rw [h.parseVarint_eq] at hval hpos
    have hlen : varintLen (cs ++ rest) = cs.length := Nat.add_left_cancel hpos
    rw [← hval]
    exact encodeVarint_shortest hlen

/-! ## Tags -/

/-- `(id << 3) | wire_type`. -/
def tagOf (id : Nat) (w : WireType) : Nat := id <<< 3 ||| w.code

theorem tagOf_eq (id : Nat) (w : WireType) : tagOf id w = id * 8 + w.code := by
  have hcode : w.code < 2 ^ 3 := w.code_lt
  unfold tagOf
  rw [← Nat.shiftLeft_add_eq_or_of_lt hcode, Nat.shiftLeft_eq]

/-- What `EncodeVarint` and `ParseTag` promise about a tag. -/
def TagCodec (id : Nat) (w : WireType) : Prop :=
  ∀ {mem st front rest}, Inside mem st front (encodeVarint (tagOf id w) ++ rest) →
    ∃ st', parseTag mem st = (.kOk, st') ∧ st'.fieldId = id ∧ st'.wireType = w ∧
      st'.pos = st.pos + (encodeVarint (tagOf id w)).length

theorem tagCodec_of_lt {id : Nat} (hid : id < 2 ^ 29) (w : WireType) : TagCodec id w := by
  intro mem st front rest h
  have hcode := w.code_lt
  have hlt : tagOf id w < 2 ^ 64 := by
    rw [tagOf_eq]
    omega
  unfold parseTag
  rw [(varintCodec_of_lt hlt).parsed h]
  simp only [tagOf_eq, getWireType_tag, getFieldId_tag hid]
  exact ⟨_, rfl, rfl, rfl, rfl⟩

/-- **Varints and tags are read back as they were written.** -/
theorem varint_codec : (∀ v < 2 ^ 64, VarintCodec v) ∧ ∀ id, 1 ≤ id → id < 2 ^ 29 → ∀ w, TagCodec id w :=
  ⟨fun _ hv => varintCodec_of_lt hv, fun _ _ hid w => tagCodec_of_lt hid w⟩

/-- The largest word and the largest tag, behind one byte and before another. -/
theorem varint_codec_max :
    (∃ st, parseVarint (memAt ([7] ++ (encodeVarint (2 ^ 64 - 1) ++ [7]))) st =
      { st with pos := 11, v := { st.v with primitive := 2 ^ 64 - 1 } }) ∧ TagCodec (2 ^ 29 - 1) .k32Bits := by
  refine ⟨⟨⟨⟨4096, 4108⟩, 1, 0, .kVarint, newValue ⟨⟨0, 0⟩, 0⟩⟩, ?_⟩, varint_codec.2 _ (by decide) (by decide) _⟩
  have hinside : Inside (memAt ([7] ++ (encodeVarint (2 ^ 64 - 1) ++ [7]))) ⟨⟨4096, 4108⟩, 1, 0, .kVarint, newValue ⟨⟨0, 0⟩, 0⟩⟩ [7]
      (encodeVarint (2 ^ 64 - 1) ++ [7]) :=
    ⟨⟨Mem.holds_iff_read.mpr (by decide +kernel), by decide +kernel, by decide⟩, rfl⟩
  rw [(varint_codec.1 _ (by decide)).parsed hinside]
  have hlen : (encodeVarint (2 ^ 64 - 1)).length = 10 := by decide +kernel
  rw [hlen]

end CompactProtobuf
end Snippets
