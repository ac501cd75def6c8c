import Snippets.Lib.Bytes
import Snippets.Lib.Varint

/-!
# `CompactProtobuf.Wire` — the wire-level parsers of `pb_parser/src/protobuf_parser.cc`

The parsers walk raw memory: a `Slice` is a pair of addresses, `pos` an offset from its start, and every sum of
the two is a 64-bit word (`toSize`). Nothing stops a parser from computing an address outside its slice, so
memory is a total map and what lies around a slice is arbitrary.

A `Value` holds one 64-bit union, `primitive`: `varint`, `d.u` and `len` are the whole word, `f.u` is its low
half. Members that a C++ constructor leaves uninitialised come from a parameter (`Junk`): each value that a call
makes finds something of its own.
-/

namespace Snippets

open Lib

namespace CompactProtobuf

/-! ## Data -/

structure Slice where
  start : Nat
  endAddr : Nat
deriving DecidableEq

inductive WireType
  | kVarint
  | k64Bits
  | kLengthDelimited
  | k32Bits
deriving DecidableEq

/-- The enumerator's value. -/
def WireType.code : WireType → Nat
  | .kVarint => 0
  | .k64Bits => 1
  | .kLengthDelimited => 2
  | .k32Bits => 5

/-- `Message *`: an index into the heap of messages. -/
abbrev MessagePtr := Nat

structure Value where
  encoded : Slice
  primitive : Nat
  m : Option MessagePtr
  s : List UInt8
deriving DecidableEq

/-- What `new Value` finds in the members its constructor does not set. -/
structure Found where
  encoded : Slice
  primitive : Nat

/-- The values that one call makes: in the parser's state for the slice at `start`, for the record in front of the
    address `cur`, for an element of a packed field, for the embedded message `q`, and by the accessor itself. -/
inductive Site
  | state (start : Nat)
  | parsed (cur : Nat)
  | element (idx : Nat)
  | message (q : MessagePtr) (site : Site)
  | made

/-- What the values that a call makes find. -/
abbrev Junk := Site → Found

/-- What is found by the values that are made for the embedded message `q`. -/
def Junk.inside (junk : Junk) (q : MessagePtr) : Junk := fun site => junk (.message q site)

/-- `new Value`: a null `m`, an empty `s`, and no other member set. -/
def newValue (found : Found) : Value := ⟨found.encoded, found.primitive, none, []⟩

/-- `decoded.primitive.f.u`. -/
def Value.f (v : Value) : Nat := v.primitive % 2 ^ 32

/-- `decoded.primitive.f.u = x`: the high half of the union keeps its bytes. -/
def Value.setF (v : Value) (x : Nat) : Value :=
  { v with primitive := v.primitive / 2 ^ 32 * 2 ^ 32 + x % 2 ^ 32 }

inductive ParserStatus
  | kOk
  | kUnknownError
  | kInvalidWireType
  | kNeedsMore
deriving DecidableEq

structure ParserState where
  slice : Slice
  pos : Nat
  fieldId : Int
  wireType : WireType
  v : Value

/-- `slice.start + pos`. -/
def ParserState.cur (st : ParserState) : Nat := toSize (st.slice.start + st.pos)

/-! ## Tags and varints -/

/-- `GetFieldId`: the shifted tag as an `int`. -/
def getFieldId (val : Nat) : Int := toInt32 ((val >>> 3 : Nat) : Int)

/-- `GetWireType`, with `none` for a value that names no enumerator. -/
def getWireType (val : Nat) : Option WireType :=
  match val &&& 0x7 with
  | 0 => some .kVarint
  | 1 => some .k64Bits
  | 2 => some .kLengthDelimited
  | 5 => some .k32Bits
  | _ => none

def more (byte : UInt8) : Bool := byte &&& 0x80 != 0

def getValue (byte : UInt8) : Nat := (byte &&& 0x7f).toNat

/-- The loop of `ParseVarintInternal`; the counter is how often `len <= kMaxVarintLength` still holds. -/
def parseVarintLoop (mem : Mem) (e : Nat) : Nat → Nat → Nat → Nat → Nat × Nat
  | 0, _, len, val => (val, len)
  | n + 1, cur, len, val =>
      if cur < e then
        let part := (getValue (mem cur) <<< ((len - 1) * 7)) % 2 ^ 64
        let val := val ||| part
        if more (mem cur) then parseVarintLoop mem e n (cur + 1) (len + 1) val else (val, len)
      else (val, len)

/-- `ParseVarintInternal`, whose status is always `kOk`: the new state and the length. -/
def parseVarintInternal (mem : Mem) (st : ParserState) : ParserState × Nat :=
  let (val, len) := parseVarintLoop mem st.slice.endAddr 10 st.cur 1 0
  ({ st with v := { st.v with primitive := val } }, len)

/-- `ParseVarint`, whose status is always `kOk`. -/
def parseVarint (mem : Mem) (st : ParserState) : ParserState :=
  let (st, len) := parseVarintInternal mem st
  { st with pos := toSize (st.pos + len) }

def parseTag (mem : Mem) (st : ParserState) : ParserStatus × ParserState :=
  let st := parseVarint mem st
  let tag := st.v.primitive
  let st := { st with fieldId := getFieldId tag }
  match getWireType tag with
  | some w => (.kOk, { st with wireType := w })
  | none => (.kInvalidWireType, st)

/-- The loop of `ParseVarintLazy`; the counter is how often `len < kMaxVarintLength` still holds. -/
def parseVarintLazyLoop (mem : Mem) (e : Nat) : Nat → Nat → Nat → Nat
  | 0, _, len => len
  | n + 1, cur, len =>
      if cur < e then
        if more (mem cur) then parseVarintLazyLoop mem e n (cur + 1) (len + 1) else len
      else len

/-- `ParseVarintLazy`, whose status is always `kOk`. -/
def parseVarintLazy (mem : Mem) (st : ParserState) : ParserState :=
  let len := parseVarintLazyLoop mem st.slice.endAddr 9 st.cur 1
  let pos := toSize (st.pos + len)
  { st with
    v := { st.v with encoded := ⟨st.cur, toSize (st.slice.start + pos)⟩ }
    pos := pos }

/-! ## Length-delimited and fixed-width values -/

def parseLengthDelimitedLazy (mem : Mem) (st : ParserState) : ParserStatus × ParserState :=
  let (st, len) := parseVarintInternal mem st
  let partLen := st.v.primitive
  let e := toSize (st.slice.start + st.pos + len + partLen)
  if e > st.slice.endAddr then (.kNeedsMore, st)
  else
    (.kOk, { st with
      v := { st.v with encoded := ⟨st.cur, e⟩, primitive := len }
      pos := toSize (st.pos + len + partLen) })

/-- `Parse64BitsLazy` and `Parse32BitsLazy` differ in the width only. -/
def parseFixedLazy (width : Nat) (st : ParserState) : ParserStatus × ParserState :=
  let e := toSize (st.cur + width)
  if e > st.slice.endAddr then (.kNeedsMore, st)
  else (.kOk, { st with v := { st.v with encoded := ⟨st.cur, e⟩ }, pos := toSize (st.pos + width) })

def parse64BitsLazy (st : ParserState) : ParserStatus × ParserState := parseFixedLazy 8 st

def parse32BitsLazy (st : ParserState) : ParserStatus × ParserState := parseFixedLazy 4 st

def parse64Bits (mem : Mem) (st : ParserState) : ParserStatus × ParserState :=
  if toSize (st.cur + 8) > st.slice.endAddr then (.kNeedsMore, st)
  else (.kOk, { st with v := { st.v with primitive := ofLe (mem.read st.cur 8) }, pos := toSize (st.pos + 8) })

def parse32Bits (mem : Mem) (st : ParserState) : ParserStatus × ParserState :=
  if toSize (st.cur + 4) > st.slice.endAddr then (.kNeedsMore, st)
  else (.kOk, { st with v := st.v.setF (ofLe (mem.read st.cur 4)), pos := toSize (st.pos + 4) })

/-- The switch on `state.wire_type` in the loop of `ParseMessageLazy`. -/
def parseValueLazy (mem : Mem) (st : ParserState) : ParserStatus × ParserState :=
  match st.wireType with
  | .kVarint => (.kOk, parseVarintLazy mem st)
  | .kLengthDelimited => parseLengthDelimitedLazy mem st
  | .k64Bits => parse64BitsLazy st
  | .k32Bits => parse32BitsLazy st

/-- One record: the body of the loop of `ParseMessageLazy` up to `fill fields`. -/
def parseRecord (mem : Mem) (st : ParserState) : ParserStatus × ParserState :=
  match parseTag mem st with
  | (.kOk, st) => parseValueLazy mem st
  | (status, st) => (status, st)

/-! ## What the varint loops compute -/

theorem more_iff (b : UInt8) : more b = true ↔ 128 ≤ b.toNat := by
  have hlt := b.toNat_lt
  have hand : (b &&& 0x80).toNat = (b.toNat.testBit 7).toNat * 128 := by
    rw [UInt8.toNat_and]
    exact Nat.and_two_pow b.toNat 7
  have hbit : b.toNat.testBit 7 = decide (128 ≤ b.toNat) := by
    rw [Nat.testBit_eq_decide_div_mod_eq]
    congr 1
    rw [eq_iff_iff]
    omega
  rw [hbit] at hand
  unfold more
  rw [bne_iff_ne, ne_eq, ← UInt8.toNat_inj, hand]
  by_cases h : 128 ≤ b.toNat <;> simp [h]

theorem getValue_eq (b : UInt8) : getValue b = b.toNat % 128 := by
  unfold getValue
  rw [UInt8.toNat_and]
  exact Nat.and_two_pow_sub_one_eq_mod b.toNat 7

/-- Adding a group above the bits already there. -/
theorem or_part {val x k : Nat} (hval : val < 2 ^ k) (hk : k ≤ 64) :
    val ||| (x <<< k) % 2 ^ 64 = (val + 2 ^ k * x) % 2 ^ 64 := by
  obtain ⟨j, hj⟩ := Nat.exists_eq_add_of_le hk
  have hpow : 2 ^ 64 = 2 ^ k * 2 ^ j := by rw [hj, Nat.pow_add]
  have hshift : (x <<< k) % 2 ^ 64 = (x % 2 ^ j) <<< k := by
    rw [Nat.shiftLeft_eq, Nat.shiftLeft_eq, hpow, Nat.mul_comm x, Nat.mul_mod_mul_left, Nat.mul_comm]
  rw [hshift, Nat.or_comm, ← Nat.shiftLeft_add_eq_or_of_lt hval, Nat.shiftLeft_eq, hpow, Nat.mod_mul]
  have h₁ : (val + 2 ^ k * x) % 2 ^ k = val := by rw [Nat.add_mul_mod_self_left, Nat.mod_eq_of_lt hval]
  have h₂ : (val + 2 ^ k * x) / 2 ^ k = x := by
    rw [Nat.add_mul_div_left _ _ (Nat.two_pow_pos k), Nat.div_eq_of_lt hval, Nat.zero_add]
  rw [h₁, h₂, Nat.mul_comm]
  exact Nat.add_comm _ _

/-- **The varint loop on the bytes it sees**: it stops on the byte after the continuation bytes, or after
    `n` bytes, or at the end of the slice, and adds up the groups it has read. -/
theorem parseVarintLoop_eq {mem : Mem} (n cur : Nat) {len val : Nat} {bs : List UInt8}
    (hbs : mem.Holds cur bs) (hn : n + len = 11) (hlen : 1 ≤ len) (hval : val < 2 ^ ((len - 1) * 7))
    (h64 : val < 2 ^ 64) :
    parseVarintLoop mem (cur + bs.length) n cur len val =
      ((val + 2 ^ ((len - 1) * 7) * Varint.value ((bs.take n).take (Varint.conts (bs.take n) + 1))) % 2 ^ 64,
        len + Varint.conts (bs.take n)) := by
  induction n generalizing cur len val bs with
  | zero =>
      simp only [parseVarintLoop, List.take_zero, List.take_nil, Varint.value, Varint.conts_nil, Nat.mul_zero,
        Nat.add_zero, Nat.mod_eq_of_lt h64]
  | succ n ih =>
      cases bs with
      | nil =>
          simp only [parseVarintLoop, List.take_nil, Varint.value, Varint.conts_nil, Nat.mul_zero, Nat.add_zero,
            Nat.mod_eq_of_lt h64, List.length_nil, lt_self_iff_false, if_false]
      | cons b bs =>
          obtain ⟨hb, hrest⟩ := hbs
          have hpart := or_part (x := b.toNat % 128) hval (by omega)
          have hlt : cur < cur + (b :: bs).length := by rw [List.length_cons]; omega
          unfold parseVarintLoop
          rw [if_pos hlt, hb, getValue_eq]
          simp only [hpart]
          rw [List.take_succ_cons]
          by_cases hm : more b = true
          · -- a continuation byte: the rest is read from the next byte on
            have hb128 := (more_iff b).mp hm
            have hpow : 2 ^ ((len + 1 - 1) * 7) = 2 ^ ((len - 1) * 7) * 128 := by
              have : (len + 1 - 1) * 7 = (len - 1) * 7 + 7 := by omega
              rw [this, Nat.pow_add]
            have hnew : (val + 2 ^ ((len - 1) * 7) * (b.toNat % 128)) < 2 ^ ((len + 1 - 1) * 7) := by
              rw [hpow]
              have : b.toNat % 128 + 1 ≤ 128 := by omega
              have := Nat.mul_le_mul_left (2 ^ ((len - 1) * 7)) this
              rw [Nat.mul_add_one] at this
              omega
            have hend : cur + (b :: bs).length = cur + 1 + bs.length := by rw [List.length_cons]; omega
            rw [if_pos hm, hend, ih (cur + 1) (by push_cast; exact hrest) (by omega) (by omega)
              (lt_of_le_of_lt (Nat.mod_le _ _) hnew) (Nat.mod_lt _ (by decide)), Varint.conts_cons_of_le hb128,
              List.take_succ_cons, Varint.value, Nat.mod_add_mod, hpow]
            refine Prod.ext (congrArg (· % 2 ^ 64) ?_) ?_
            · show _ = _
              ring
            · show _ = _
              omega
          · have hb128 : b.toNat < 128 := by
              have := mt (more_iff b).mpr hm
              omega
            rw [if_neg hm, Varint.conts_cons_of_lt hb128]
            simp [Varint.value]

/-- The lazy loop counts the same bytes. -/
theorem parseVarintLazyLoop_eq {mem : Mem} (n cur : Nat) {len : Nat} {bs : List UInt8} (hbs : mem.Holds cur bs) :
    parseVarintLazyLoop mem (cur + bs.length) n cur len = len + Varint.conts (bs.take n) := by
  induction n generalizing cur len bs with
  | zero => simp [parseVarintLazyLoop]
  | succ n ih =>
      cases bs with
      | nil => simp [parseVarintLazyLoop]
      | cons b bs =>
          obtain ⟨hb, hrest⟩ := hbs
          have hlt : cur < cur + (b :: bs).length := by rw [List.length_cons]; omega
          unfold parseVarintLazyLoop
          rw [if_pos hlt, hb, List.take_succ_cons]
          by_cases hm : more b = true
          · have hend : cur + (b :: bs).length = cur + 1 + bs.length := by rw [List.length_cons]; omega
            rw [if_pos hm, hend, ih (cur + 1) (by push_cast; exact hrest),
              Varint.conts_cons_of_le ((more_iff b).mp hm)]
            omega
          · have hb128 : b.toNat < 128 := by
              have := mt (more_iff b).mpr hm
              omega
            rw [if_neg hm, Varint.conts_cons_of_lt hb128]
            rfl

end CompactProtobuf
end Snippets
