import Mathlib.Data.Nat.Bitwise
import Snippets.CompactProtobuf.Rewritten

/-!
# `CompactProtobuf.Zigzag` — signed fields

`ZigzagDecode` takes the standard zigzag code back to the number. `ZigZagEncode` is to make that code from the two's complement
word, but shifts the word right without the sign, so that only the last bit of the code of a negative number is flipped. A
signed number is written out in its standard code, and read again, exactly when it is not negative
(`signed_roundTrip_iff_nonneg`).
-/

namespace Snippets

open Lib

namespace CompactProtobuf

variable {env : Env} {w w' w₀ w₁ : World} {p p' : MessagePtr} {m : Message} {fd : FieldDescriptor} {f : Field} {v : Value}
  {mem : Mem} {type : FieldType} {t data size idx : Nat} {wire : WireType} {es : List (List UInt8)} {out : List UInt8}
  {rs : List Record}

/-! ## Numbers

The code of a word `x` of `k + 1` bits, shifted with zeros where the sign should come in. -/

/-- The standard zigzag code. -/
def zigzag (n : Int) : Nat := if 0 ≤ n then (2 * n).toNat else (-2 * n - 1).toNat

/-- The signed number in the two words of `GetInteger`. -/
def signedOf (type : FieldType) (words : Nat × Nat) : Int :=
  match type with
  | .sint32 => toInt32 words.1
  | _ => if words.2 < 2 ^ 31 then ((words.2 * 2 ^ 32 + words.1 : Nat) : Int) else ((words.2 * 2 ^ 32 + words.1 : Nat) : Int) - 2 ^ 64

/-- The last bit of an even number is set by adding one. -/
theorem even_xor_one {a : Nat} (h : a % 2 = 0) : a ^^^ 1 = a + 1 := by
  have hdiv : (a ^^^ 1) / 2 = a / 2 := by rw [Nat.xor_div_two, Nat.div_eq_of_lt Nat.one_lt_two, Nat.xor_zero]
  have hmod : (a ^^^ 1) % 2 = 1 := by
    rw [Nat.xor_mod_two_eq]
    omega
  omega

/-- The number that a word of `k + 1` bits stands for. -/
def signedBits (k x : Nat) : Int := if x < 2 ^ k then (x : Int) else (x : Int) - 2 ^ (k + 1)

/-- What `ZigZagEncode` makes of a word of `k + 1` bits. -/
def shiftedCode (k x : Nat) : Nat := if x < 2 ^ k then 2 * x else 2 * x - 2 ^ (k + 1) + 1

section Bits

variable {k x : Nat}

/-- The source's expression, as a number, -/
theorem shift_xor (hx : x < 2 ^ (k + 1)) : (x <<< 1 % 2 ^ (k + 1)) ^^^ (x >>> k) = shiftedCode k x := by
  have hpow : 2 ^ (k + 1) = 2 * 2 ^ k := Nat.pow_succ'
  have hleft : x <<< 1 = 2 * x := by rw [Nat.shiftLeft_eq, Nat.pow_one, Nat.mul_comm]
  unfold shiftedCode
  rw [hleft, Nat.shiftRight_eq_div_pow]
  rw [hpow] at hx ⊢
  split
  next hlt => rw [Nat.mod_eq_of_lt (by omega), Nat.div_eq_of_lt hlt, Nat.xor_zero]
  next hge =>
    -- the sign bit comes out alone
    have hsign : x / 2 ^ k = 1 := Nat.div_eq_of_lt_le (by omega) (by omega)
    have hmod : 2 * x % (2 * 2 ^ k) = 2 * x - 2 * 2 ^ k := by
      rw [Nat.mod_eq_sub_mod (by omega), Nat.mod_eq_of_lt (by omega)]
    rw [hsign, hmod, even_xor_one (by omega)]

/-- which has as many bits as the word. -/
theorem shiftedCode_lt (hx : x < 2 ^ (k + 1)) : shiftedCode k x < 2 ^ (k + 1) := by
  have hpow : 2 ^ (k + 1) = 2 * 2 ^ k := Nat.pow_succ'
  unfold shiftedCode
  split <;> omega

/-- A code that is off is off by an odd multiple of two. -/
theorem shiftedCode_eq_zigzag (hk : 1 ≤ k) (hx : x < 2 ^ (k + 1)) :
    shiftedCode k x = zigzag (signedBits k x) ↔ 0 ≤ signedBits k x := by
  obtain ⟨j, rfl⟩ := Nat.exists_eq_add_of_le' hk
  have hpow : 2 ^ (j + 1 + 1) = 4 * 2 ^ j := by ring
  have hpow' : 2 ^ (j + 1) = 2 * 2 ^ j := by ring
  have hcast : (2 : Int) ^ (j + 1 + 1) = ((4 * 2 ^ j : Nat) : Int) := by rw [← hpow]; norm_cast
  unfold shiftedCode zigzag signedBits
  rw [hpow] at hx
  rw [hcast, hpow, hpow']
  split <;> split <;> omega

/-- The number that a shifted code is decoded to: the bits of a negative number but for the sign are flipped. -/
theorem unzigzag_shiftedCode (k x : Nat) :
    unzigzag (shiftedCode k x) = if x < 2 ^ k then (x : Int) else 2 ^ k - 1 - (x : Int) := by
  have hpow : 2 ^ (k + 1) = 2 * 2 ^ k := Nat.pow_succ'
  have hcast : (2 : Int) ^ k = ((2 ^ k : Nat) : Int) := by norm_cast
  unfold unzigzag shiftedCode
  rw [hcast, hpow]
  by_cases hlt : x < 2 ^ k
  · rw [if_pos hlt, if_pos hlt, if_pos (by omega)]
    omega
  · rw [if_neg hlt, if_neg hlt, if_neg (by omega)]
    omega

/-- The code is taken back to the number exactly when the number is not negative. -/
theorem unzigzag_eq_signedBits (hk : 1 ≤ k) (hx : x < 2 ^ (k + 1)) :
    unzigzag (shiftedCode k x) = signedBits k x ↔ 0 ≤ signedBits k x := by
  obtain ⟨j, rfl⟩ := Nat.exists_eq_add_of_le' hk
  have hpow : 2 ^ (j + 1 + 1) = 4 * 2 ^ j := by ring
  have hcast : (2 : Int) ^ (j + 1 + 1) = ((4 * 2 ^ j : Nat) : Int) := by rw [← hpow]; norm_cast
  have hcast' : (2 : Int) ^ (j + 1) = ((2 * 2 ^ j : Nat) : Int) := by norm_cast; ring
  rw [unzigzag_shiftedCode]
  unfold signedBits
  rw [hpow] at hx
  split
  next => omega
  next hge =>
    have hge' : 2 * 2 ^ j ≤ x := by rw [← Nat.pow_succ']; omega
    rw [hcast, hcast']
    omega

/-- A code fits the slot. -/
theorem zigzag_lt (hx : x < 2 ^ (k + 1)) (hk : k ≤ 63) : zigzag (signedBits k x) < 2 ^ 64 := by
  have hpow : 2 ^ (k + 1) = 2 * 2 ^ k := Nat.pow_succ'
  have hcast : (2 : Int) ^ (k + 1) = ((2 * 2 ^ k : Nat) : Int) := by rw [← hpow]; norm_cast
  have hle : 2 ^ k ≤ 2 ^ 63 := Nat.pow_le_pow_right (by decide) hk
  unfold zigzag signedBits
  rw [hpow] at hx
  rw [hcast]
  split <;> split <;> omega

end Bits

/-- Different words have different varints. -/
theorem encodeVarint_inj {x y : Nat} (hx : x < 2 ^ 64) (hy : y < 2 ^ 64) : encodeVarint x = encodeVarint y ↔ x = y :=
  ⟨fun h => (@encodeVarint_append_inj x y [] [] hx hy (congrArg (· ++ []) h)).1, congrArg encodeVarint⟩

/-- What a client reads as a number, of 32 bits -/
theorem signedOf_sint32 (x : Nat) : signedOf .sint32 (decodeUInt64 x) = signedBits 31 (x % 2 ^ 32) := by
  rw [decodeUInt64_eq]
  unfold signedOf signedBits toInt32
  dsimp only
  split <;> split <;> omega

/-- and of 64. -/
theorem signedOf_sint64 {x : Nat} (hx : x < 2 ^ 64) : signedOf .sint64 (decodeUInt64 x) = signedBits 63 x := by
  have hword : x / 2 ^ 32 % 2 ^ 32 * 2 ^ 32 + x % 2 ^ 32 = x := by omega
  rw [decodeUInt64_eq]
  unfold signedOf signedBits
  dsimp only
  rw [hword]
  split <;> split <;> omega

/-- The word of a number stands for the number. -/
theorem signedBits_toSize {n : Int} (h₁ : -(2 ^ 63) ≤ n) (h₂ : n < 2 ^ 63) : signedBits 63 (toSize n) = n := by
  unfold signedBits toSize
  split <;> omega

/-- A small number as a word and back. -/
theorem signedBits_toSize_low {n : Int} (h₁ : -(2 ^ 31) ≤ n) (h₂ : n < 2 ^ 31) : signedBits 31 (toSize n % 2 ^ 32) = n := by
  unfold signedBits toSize
  split <;> omega

/-- **What `ZigZagEncode` makes of a signed number** is its standard code, and is decoded to the number again, exactly when the
    number is not negative. -/
theorem zigZagEncode_signed (htype : type = .sint32 ∨ type = .sint64) (hlt : v.primitive < 2 ^ 64) :
    ∃ zz, zigZagEncode v type = some zz ∧ zz < 2 ^ 64 ∧
      (encodeVarint zz = encodeVarint (zigzag (signedOf type (decodeUInt64 v.primitive))) ↔
        0 ≤ signedOf type (decodeUInt64 v.primitive)) ∧
      (signedOf type (decodeUInt64 (toSize (unzigzag zz))) = signedOf type (decodeUInt64 v.primitive) ↔
        0 ≤ signedOf type (decodeUInt64 v.primitive)) := by
  -- the two types shift by 31 and by 63
  rcases htype with rfl | rfl
  · have hx : v.primitive % 2 ^ 32 < 2 ^ (31 + 1) := Nat.mod_lt _ (Nat.two_pow_pos 32)
    have hcode := shiftedCode_lt hx
    have hdecoded := unzigzag_shiftedCode 31 (v.primitive % 2 ^ 32)
    refine ⟨shiftedCode 31 (v.primitive % 2 ^ 32), congrArg some (shift_xor hx), by omega, ?_, ?_⟩
    · rw [signedOf_sint32, encodeVarint_inj (by omega) (zigzag_lt hx (by decide))]
      exact shiftedCode_eq_zigzag (by decide) hx
    · rw [signedOf_sint32, signedOf_sint32, signedBits_toSize_low]
      · exact unzigzag_eq_signedBits (by decide) hx
      · rw [hdecoded]
        split <;> omega
      · rw [hdecoded]
        split <;> omega
  · have hcode := shiftedCode_lt (k := 63) hlt
    have hdecoded := unzigzag_shiftedCode 63 v.primitive
    refine ⟨shiftedCode 63 v.primitive, congrArg some (shift_xor (k := 63) hlt), hcode, ?_, ?_⟩
    · rw [signedOf_sint64 hlt, encodeVarint_inj hcode (zigzag_lt hlt (by decide))]
      exact shiftedCode_eq_zigzag (by decide) hlt
    · have hword : toSize (unzigzag (shiftedCode 63 v.primitive)) < 2 ^ 64 := by
        unfold toSize
        omega
      rw [signedOf_sint64 hword, signedOf_sint64 hlt, signedBits_toSize]
      · exact unzigzag_eq_signedBits (by decide) hlt
      · rw [hdecoded]
        split <;> omega
      · rw [hdecoded]
        split <;> omega

/-! ## Reading

The getter after a parse decodes the varint and then the code. -/

/-- `GetInteger` returns this signed number, and changes nothing. -/
def ReadsSigned (env : Env) (w : World) (p : MessagePtr) (fd : FieldDescriptor) (idx : Nat) (n : Int) : Prop :=
  ∃ words, w.getInteger env p fd.name idx = some (w, words) ∧ signedOf fd.type words = n

/-- The signed types are integers, -/
theorem signed_isInteger (htype : type = .sint32 ∨ type = .sint64) : type.isInteger = true := by
  rcases htype with rfl | rfl <;> rfl

/-- kept as words. -/
theorem signed_member (htype : type = .sint32 ∨ type = .sint64) : type.member = some .varint := by
  rcases htype with rfl | rfl <;> rfl

/-- A decoded signed field is read as it is. -/
theorem getInteger_signed (hm : w.messages[p]? = some m) (hfd : fd ∈ (env.pool m.descriptor).fields)
    (htype : fd.type = .sint32 ∨ fd.type = .sint64) (hfind : m.fields.find fd.number = some f) (hdec : f.decoded = true)
    (hdesc : f.fieldDescriptor = some fd) (hsingle : fd.isRepeated = false → f.values.length = 1)
    (hv : f.values[idx]? = some v) : w.getInteger env p fd.name idx = some (w, decodeUInt64 v.primitive) := by
  have hlt := (List.getElem?_eq_some_iff.mp hv).1
  have hidx : (if fd.isRepeated then idx else 0) = idx := by
    cases hrep : fd.isRepeated with
    | true => rfl
    | false =>
        have hone := hsingle hrep
        rw [if_neg Bool.false_ne_true]
        omega
  have hread : retrieveIntegerValue f idx = some v.primitive := by
    unfold retrieveIntegerValue
    rw [hdesc, hv]
    dsimp only
    rcases htype with htype | htype <;> rw [htype]
  unfold World.getInteger World.get
  rw [lookup_eq hm hfd (signed_isInteger htype), hfind]
  simp only [Option.bind_eq_bind, Option.bind_some]
  rw [access_eq hdec fun _ => hlt, Option.bind_some]
  dsimp only
  rw [hidx, hread]
  rfl

/-- A signed field that was parsed is decoded to its elements. -/
theorem decodesTo_signed (hm : w.messages[p]? = some m) (hfd : fd ∈ (env.pool m.descriptor).fields)
    (htype : fd.type = .sint32 ∨ fd.type = .sint64) (hpacked : fd.packed = false) (hfind : m.fields.find fd.number = some f)
    (hdec : f.decoded = false) (hdesc : f.fieldDescriptor = some fd)
    (hvalues : List.Forall₂ (fun e v => Placed w.mem v.encoded e ∧ Varint10 e) es f.values)
    (hsingle : fd.isRepeated = false → es.length = 1) : DecodesTo env w p fd es := by
  have hzigzag : ∃ f₁, decodeVarintWithZigZag env.junk w.mem fd.type f = some f₁ ∧
      List.Forall₂ (HoldsElement fd.type) es f₁.values := by
    -- first the varints, then the numbers
    have hvarints : ∃ f₀, decodeVarint env.junk w.mem f = some f₀ ∧
        List.Forall₂ (fun e v => v.primitive = Varint.value e % 2 ^ 64) es f₀.values := by
      refine decodeEach_written ?_ hvalues
      rintro e v ⟨hplaced, hok⟩
      refine ⟨_, rfl, ?_⟩
      have hval := @varintVal_complete e [] hok.1 hok.2
      rw [List.append_nil] at hval
      rw [← hval]
      exact parseVarint_start hplaced
    obtain ⟨f₀, hf₀, hwords⟩ := hvarints
    have hnumbers : ∃ f₁, decodeEach (fun v =>
        if fd.type = .sint32 ∨ fd.type = .sint64 then some { v with primitive := zigzagDecode v.primitive } else none) f₀ = some f₁ ∧
        List.Forall₂ (HoldsElement fd.type) es f₁.values := by
      refine decodeEach_written ?_ hwords
      intro e v hv
      refine ⟨_, if_pos htype, ?_⟩
      have hword : zigzagDecode v.primitive = toSize (unzigzag (Varint.value e % 2 ^ 64)) := by
        rw [hv]
        exact zigzagDecode_eq (Nat.mod_lt _ (Nat.two_pow_pos 64))
      rcases htype with htype | htype <;> rw [htype] <;> exact hword
    obtain ⟨f₁, hf₁, helements⟩ := hnumbers
    refine ⟨f₁, ?_, helements⟩
    unfold decodeVarintWithZigZag
    rw [hf₀]
    exact hf₁
  obtain ⟨f₁, hf₁, hall⟩ := hzigzag
  have hdecode : decodeField env w f = some (w, f₁) := by
    unfold decodeField
    rw [hdesc]
    dsimp only
    rw [if_neg (by rw [hpacked]; exact Bool.false_ne_true)]
    rcases htype with htype | htype <;> rw [htype] at hf₁ ⊢ <;> dsimp only <;> rw [hf₁] <;> rfl
  have htry : w.tryDecodeField env p f = some (w.store p f₁, f₁) := by
    rw [tryDecodeField_of_undecoded hdec, hdecode]
    rfl
  exact decodesTo_of_elements hm hfd hfind hdesc htry (decodeField_header hdecode).1 hall hsingle

/-! ## The result

Over every run before, for a single field, a repeated one and a packed one. -/

/-- The payload of a signed field at an index of the string. -/
def EmittedAt (fd : FieldDescriptor) (out : List UInt8) (idx : Nat) (e : List UInt8) : Prop :=
  ∃ rs es, bytesOf rs = out ∧ es[idx]? = some e ∧ (∀ e ∈ es, Varint10 e) ∧
    if fd.packed then ∃ r, numbered fd.number rs = [r] ∧ r.payload = delimit es.flatten
    else (numbered fd.number rs).map Record.payload = es

/-- The elements that a decoded signed field is written out as. -/
theorem FieldRecords.elements {embedded : MessagePtr → Encoded} (h : FieldRecords embedded fd f rs)
    (hdec : f.decoded = true) (htype : fd.type = .sint32 ∨ fd.type = .sint64) :
    ∃ es, List.Forall₂ (fun v e => encodeVarintValue fd.type v = some (some e)) f.values es ∧
      if fd.packed then ∃ r, rs = [r] ∧ r.payload = delimit es.flatten ∧ r.pre = encodeVarint es.flatten.length ∧
        r.wire = .kLengthDelimited
      else rs.map Record.payload = es := by
  have hpayloads := h.payloads hdec
  cases hpacked : fd.packed with
  | true =>
      rw [if_pos hpacked] at hpayloads
      obtain ⟨r, packed, hrs, hencode, hpayload, hpre, hwire⟩ := hpayloads
      obtain ⟨es, rfl, hes⟩ := encodeAll_inv hencode
      refine ⟨es, hes.imp ?_, r, hrs, hpayload, hpre, hwire⟩
      intro v e he
      rcases htype with htype | htype <;> rw [htype] at he ⊢ <;> exact he
  | false =>
      rw [if_neg (by rw [hpacked]; exact Bool.false_ne_true)] at hpayloads
      refine ⟨rs.map Record.payload, ?_, rfl⟩
      rw [List.forall₂_map_right_iff]
      refine hpayloads.imp ?_
      intro v r hr
      unfold valueEncoder at hr
      rw [signed_member htype] at hr
      exact hr

/-- A message that was parsed from the elements of a signed field. -/
theorem DecodesTo.of_stored {rs' : List Record} {g : Field} (hm : w.messages[p]? = some m) (hfd : fd ∈ (env.pool m.descriptor).fields)
    (htype : fd.type = .sint32 ∨ fd.type = .sint64) (hfind : m.fields.find fd.number = some g)
    (hg : StoredField w.mem (env.pool m.descriptor) rs fd.number g) (hnumbered : numbered fd.number rs = rs')
    (hok : ∀ e ∈ es, Varint10 e) (hne : es ≠ []) (hsingle : fd.isRepeated = false → es.length = 1)
    (hrecords : if fd.packed then ∃ r, rs' = [r] ∧ r.payload = delimit es.flatten ∧ r.pre = encodeVarint es.flatten.length ∧
        r.wire = .kLengthDelimited
      else rs'.map Record.payload = es) : DecodesTo env w p fd es := by
  have hdesc := hg.descriptor.trans (Descriptor.findFieldByNumber_eq hfd)
  -- one record for all elements when the field is packed, and otherwise one for each
  cases hpacked : fd.packed with
  | true =>
      rw [if_pos hpacked] at hrecords
      obtain ⟨r, rfl, hpayload, hpre, hwire⟩ := hrecords
      have hfirst := hg.wire
      rw [hnumbered] at hfirst
      have hkept : keptOf (env.pool m.descriptor) rs fd.number = [r] := by
        unfold keptOf
        rw [hnumbered]
        split <;> rfl
      have hvalues := hg.values
      rw [hkept] at hvalues
      obtain ⟨v, vs, hv, hnil, heq⟩ := List.forall₂_cons_left_iff.mp hvalues
      rw [List.forall₂_nil_left_iff.mp hnil] at heq
      have hheld := hv.held fun hr => (Option.some.inj hfirst).symm.trans hr
      obtain ⟨hplaced, -⟩ := hheld.placed_body (by rw [hpayload, hpre]; rfl) hwire
      have hfield : PackedField env w p fd m g := ⟨hm, hfd, hpacked, hfind, hdesc, hg.decoded⟩
      refine (hfield.single heq hplaced ?_ hne).1
      intro e he
      unfold ElementOk
      rw [signed_member htype]
      exact hok e he
  | false =>
      rw [if_neg (by rw [hpacked]; exact Bool.false_ne_true)] at hrecords
      have hkept : keptOf (env.pool m.descriptor) rs fd.number = rs' := by
        unfold keptOf
        rw [hnumbered, Descriptor.keepsAll_some (Descriptor.findFieldByNumber_eq hfd)]
        cases hrep : fd.isRepeated with
        | true => rfl
        | false =>
            have hone := hsingle hrep
            rw [← hrecords, List.length_map] at hone
            obtain ⟨r, rfl⟩ := List.length_eq_one_iff.mp hone
            rfl
      have hvalues := hg.values
      rw [hkept] at hvalues
      refine decodesTo_signed hm hfd htype hpacked hfind hg.decoded hdesc ?_ hsingle
      rw [← hrecords, List.forall₂_map_left_iff]
      refine ((List.forall₂_and_left _ _).mpr ⟨fun r hr => hr, hvalues⟩).imp ?_
      rintro r v ⟨hr, hv⟩
      refine ⟨⟨hv.holds, hv.endAddr, hv.room⟩, hok _ ?_⟩
      rw [← hrecords]
      exact List.mem_map_of_mem hr

/-- What a signed value is written out as, and what number that is read as. -/
theorem encoded_signed {e : List UInt8} (htype : type = .sint32 ∨ type = .sint64) (hlt : v.primitive < 2 ^ 64)
    (henc : encodeVarintValue type v = some (some e)) :
    Varint10 e ∧
      (e = encodeVarint (zigzag (signedOf type (decodeUInt64 v.primitive))) ↔ 0 ≤ signedOf type (decodeUInt64 v.primitive)) ∧
      (signedOf type (decodeUInt64 (elementWord type e)) = signedOf type (decodeUInt64 v.primitive) ↔
        0 ≤ signedOf type (decodeUInt64 v.primitive)) := by
  obtain ⟨zz, hzz, hzzlt, hstandard, hback⟩ := zigZagEncode_signed htype hlt
  obtain rfl : e = encodeVarint zz := by
    have hvalue : encodeVarintValue type v = some (some (encodeVarint zz)) := by
      rcases htype with rfl | rfl <;> exact congrArg (Option.map fun x => some (encodeVarint x)) hzz
    rw [hvalue] at henc
    cases henc
    rfl
  have hword : elementWord type (encodeVarint zz) = toSize (unzigzag zz) := by
    have hval : Varint.value (encodeVarint zz) % 2 ^ 64 = zz := by
      rw [(encodeVarint_varint10 hzzlt).2, Nat.mod_eq_of_lt hzzlt]
    unfold elementWord
    rcases htype with rfl | rfl <;> dsimp only <;> rw [hval]
  rw [hword]
  exact ⟨(encodeVarint_varint10 hzzlt).1, hstandard, hback⟩

/-- The records of a message are parsed into a fresh one, and a signed field there has their elements. -/
theorem parsed_signed (hfd : fd ∈ (env.pool t).fields) (htype : fd.type = .sint32 ∨ fd.type = .sint64)
    (hfresh : w'.messages[p']? = some (newMessage t)) (hmem : w'.mem.Holds data (bytesOf rs))
    (hroom : data + (bytesOf rs).length + 16 ≤ 2 ^ 64)
    (hreq : ∀ fd ∈ (env.pool t).fields, fd.label = .required → ∃ r ∈ rs, r.number = fd.number)
    (hnumbered : numbered fd.number rs ≠ []) (hok : ∀ e ∈ es, Varint10 e) (hne : es ≠ [])
    (hsingle : fd.isRepeated = false → es.length = 1)
    (hrecords : if fd.packed then ∃ r, numbered fd.number rs = [r] ∧ r.payload = delimit es.flatten ∧
        r.pre = encodeVarint es.flatten.length ∧ r.wire = .kLengthDelimited
      else (numbered fd.number rs).map Record.payload = es) :
    ∃ w₂, w'.fromString env.pool env.junk p' data (bytesOf rs).length = some (w₂, true) ∧ DecodesTo env w₂ p' fd es := by
  obtain ⟨w₂, m, g, hfrom, hmem₂, hfound, rfl, hfind, hg⟩ := fromString_field hfd hfresh hmem hroom hreq hnumbered
  rw [← hmem₂] at hg
  exact ⟨w₂, hfrom, DecodesTo.of_stored hfound hfd htype hfind hg rfl hok hne hsingle hrecords⟩

/-- The records that a decoded field of a sound message is written out as. -/
theorem Sound.fieldRecords (h : Sound env p t w) (hm : w.messages[p]? = some m) (hfd : fd ∈ (env.pool t).fields)
    (hfind : m.fields.find fd.number = some f) (hout : w.toString env.pool p = some (some out)) (hlt : out.length < 2 ^ 64) :
    ∃ rs embedded, bytesOf rs = out ∧ (∀ fd ∈ (env.pool t).fields, fd.label = .required → ∃ r ∈ rs, r.number = fd.number) ∧
      FieldRecords embedded fd f (numbered fd.number rs) := by
  obtain ⟨m', rs, embedded, hm', -, hrs, hreq, hrecords⟩ := h.records hout hlt
  obtain rfl : m' = m := Option.some.inj (hm'.symm.trans hm)
  rcases hrecords fd hfd with ⟨hnone, -⟩ | ⟨f', hf', -, hfields⟩
  · rw [hfind] at hnone
    cases hnone
  · rw [hfind] at hf'
    cases hf'
    exact ⟨rs, embedded, hrs, hreq, hfields⟩

/-- **When a signed field makes the round trip.** A message that was parsed or built has a number `n` at an index of a signed
    field, whether it was stored there or decoded; it is written out, and what was written is parsed into a fresh message. The
    number there is `n`, and its bytes are the standard zigzag varint, if and only if `n` is not negative. -/
theorem signed_roundTrip_iff_nonneg {cs : List (MessagePtr × Call)} (hbegin : Begins env p t w₀)
    (hrun : Run (CallStep env (fun c => !c.parses) 0) w₀ cs w) (hfd : fd ∈ (env.pool t).fields)
    (htype : fd.type = .sint32 ∨ fd.type = .sint64) (hsize : w.getFieldSize env p fd.name = some (w₁, size)) (hidx : idx < size)
    (hout : w₁.toString env.pool p = some (some out)) (hfresh : w'.messages[p']? = some (newMessage t))
    (hmem : w'.mem.Holds data out) (hroom : data + out.length + 16 ≤ 2 ^ 64) :
    ∃ n n' e w₂ w₃, ReadsSigned env w₁ p fd idx n ∧ w'.fromString env.pool env.junk p' data out.length = some (w₂, true) ∧
      w₂.getFieldSize env p' fd.name = some (w₃, size) ∧ ReadsSigned env w₃ p' fd idx n' ∧ EmittedAt fd out idx e ∧
      (n' = n ↔ 0 ≤ n) ∧ (e = encodeVarint (zigzag n) ↔ 0 ≤ n) := by
  have hlt : out.length < 2 ^ 64 := by omega
  obtain ⟨m, hm, hms⟩ := sound_of_calls hbegin hrun
  have hfd' : fd ∈ (env.pool m.descriptor).fields := by rw [hms.descriptor]; exact hfd
  cases hf : m.fields.find fd.number with
  | none =>
      unfold World.getFieldSize at hsize
      rw [lookup_eq hm hfd' rfl, hf] at hsize
      cases hsize
      omega
  | some f =>
      -- the field is decoded, and has a value at the index
      rw [getFieldSize_eq hm hfd' hf] at hsize
      obtain ⟨⟨w₂, f₁⟩, htry, heq⟩ := Option.map_eq_some_iff.mp hsize
      cases heq
      obtain ⟨hsound₁, hdec, hf₁, m₁, hm₁, hfind₁⟩ := Sound.tryDecodeField ⟨m, hm, hms⟩ hm hfd' hf htry
      obtain ⟨v, hv⟩ : ∃ v, f₁.values[idx]? = some v := ⟨_, List.getElem?_eq_getElem hidx⟩
      have hfd₁ : fd ∈ (env.pool m₁.descriptor).fields := by
        obtain ⟨m₂, hm₂, hms₂⟩ := hsound₁
        rw [Option.some.inj (hm₁.symm.trans hm₂), hms₂.descriptor]
        exact hfd
      -- what is written out for it
      obtain ⟨rs, embedded, rfl, hreq, hfields⟩ := hsound₁.fieldRecords hm₁ hfd hfind₁ hout hlt
      obtain ⟨es, hes, hemitted⟩ := hfields.elements hdec htype
      have hlen := hes.length_eq
      have hlt64 : ∀ u ∈ f₁.values, u.primitive < 2 ^ 64 := fun u hu => hf₁.words hdec u hu (Or.inl (signed_member htype))
      have hok : ∀ e ∈ es, Varint10 e := by
        intro e he
        obtain ⟨u, -, hu, henc⟩ := exists_of_mem_right ((List.forall₂_and_left _ _).mpr ⟨hlt64, hes⟩) he
        exact (encoded_signed htype hu henc).1
      obtain ⟨e, he, henc⟩ : ∃ e, es[idx]? = some e ∧ encodeVarintValue fd.type v = some (some e) := by
        have hrel := forall₂_getElem? hes idx
        rw [hv] at hrel
        generalize es[idx]? = o at hrel
        cases hrel with
        | some henc => exact ⟨_, rfl, henc⟩
      obtain ⟨-, hstandard, hback⟩ := encoded_signed htype (hlt64 v (List.mem_of_getElem? hv)) henc
      -- what is parsed from it
      have hne : es ≠ [] := by
        rintro rfl
        cases he
      have hsingle : fd.isRepeated = false → es.length = 1 := fun hrep => hlen.symm.trans (hf₁.single hrep)
      obtain ⟨w₃, hfrom, w₄, hsize₄, hreads⟩ :=
        parsed_signed hfd htype hfresh hmem hroom hreq hfields.nonempty hok hne hsingle hemitted
      have hreads₁ : ReadsSigned env w₂ p fd idx (signedOf fd.type (decodeUInt64 v.primitive)) :=
        ⟨_, getInteger_signed hm₁ hfd₁ htype hfind₁ hdec hf₁.fieldDescriptor hf₁.single hv, rfl⟩
      refine ⟨_, _, e, w₃, w₄, hreads₁, hfrom, ?_, ⟨_, (hreads idx e he).integer (signed_isInteger htype), rfl⟩, ?_, hback,
        hstandard⟩
      · rw [hsize₄, hlen]
      · refine ⟨rs, es, rfl, he, hok, ?_⟩
        split
        next hpacked =>
          rw [if_pos hpacked] at hemitted
          obtain ⟨r, hr, hpayload, -⟩ := hemitted
          exact ⟨r, hr, hpayload⟩
        next hpacked =>
          rw [if_neg hpacked] at hemitted
          exact hemitted

/-- An `optional sint32 a = 1`. -/
def signedField : FieldDescriptor := ⟨"a", 1, .sint32, .optional, false, 0, 0, 0, [], firstNumber_pos, firstNumber_lt, unpacked_repeated⟩

/-- One signed field. -/
def signedEnv : Env := ⟨fun _ => ⟨[signedField], by decide, by decide⟩, zeroJunk, fun _ => 0, fun _ => 0⟩

/-- Two new messages, and these bytes. -/
def signedWorld (bytes : List UInt8) : World := ⟨memAt bytes, [newMessage 0, newMessage 0]⟩

/-- Three goes out as six, and comes back as three. -/
theorem signed_roundTrip_three : ∃ w w₁ n n' e w₂ w₃,
    (signedWorld [0x08, 6]).setInteger signedEnv 0 "a" 0 3 0 = some w ∧ w.getFieldSize signedEnv 0 "a" = some (w₁, 1) ∧
      ReadsSigned signedEnv w₁ 0 signedField 0 n ∧
      (signedWorld [0x08, 6]).fromString signedEnv.pool signedEnv.junk 1 4096 2 = some (w₂, true) ∧
      w₂.getFieldSize signedEnv 1 "a" = some (w₃, 1) ∧ ReadsSigned signedEnv w₃ 1 signedField 0 n' ∧
      EmittedAt signedField [0x08, 6] 0 e ∧ (n' = n ↔ 0 ≤ n) ∧ (e = encodeVarint (zigzag n) ↔ 0 ≤ n) := by
  have hset : ((signedWorld [0x08, 6]).setInteger signedEnv 0 "a" 0 3 0).isSome = true := by decide +kernel
  obtain ⟨w, hw⟩ := Option.isSome_iff_exists.mp hset
  have hrun : Run (CallStep signedEnv (fun c => !c.parses) 0) (signedWorld [0x08, 6]) [(0, .setInteger "a" 0 3 0)] w := by
    exact Run.single ⟨Nat.zero_le _, rfl, signedEnv.junk, .done, congrArg (Option.map fun w => (w, Seen.done)) hw⟩
  have hsize : (((signedWorld [0x08, 6]).setInteger signedEnv 0 "a" 0 3 0).bind fun w =>
      (w.getFieldSize signedEnv 0 "a").map fun r => (r.2, r.1.toString signedEnv.pool 0)) = some (1, some (some [0x08, 6])) := by
    decide +kernel
  rw [hw, Option.bind_some] at hsize
  obtain ⟨⟨w₁, k⟩, hk, heq⟩ := Option.map_eq_some_iff.mp hsize
  obtain ⟨rfl, hout⟩ := Prod.mk.inj heq
  have hresult := @signed_roundTrip_iff_nonneg signedEnv w (signedWorld [0x08, 6]) (signedWorld [0x08, 6]) w₁ 0 1 signedField 0 4096
    1 0 [0x08, 6] _ (Or.inl rfl) hrun List.mem_cons_self (Or.inl rfl) hk Nat.one_pos hout rfl
    (Mem.holds_iff_read.mpr (by decide +kernel)) (by decide)
  obtain ⟨n, n', e, w₂, w₃, hrest⟩ := hresult
  exact ⟨w, w₁, n, n', e, w₂, w₃, hw, hk, hrest⟩

/-- The number -1 is written as the varint 4294967295, and not as 1; and that is read as -2147483648. -/
theorem negative_lost :
    (((signedWorld []).setInteger signedEnv 0 "a" 0 0xffffffff 0xffffffff).bind fun w => w.toString signedEnv.pool 0) =
        some (some [0x08, 0xff, 0xff, 0xff, 0xff, 0x0f]) ∧
      (((signedWorld []).setInteger signedEnv 0 "a" 0 0xffffffff 0xffffffff).bind fun w =>
        (w.getInteger signedEnv 0 "a" 0).map fun r => signedOf .sint32 r.2) = some (-1) ∧
      encodeVarint (zigzag (-1)) = [1] ∧
      (((signedWorld [0x08, 0xff, 0xff, 0xff, 0xff, 0x0f]).fromString signedEnv.pool signedEnv.junk 1 4096 6).bind fun r =>
        (r.1.getInteger signedEnv 1 "a" 0).map fun s => (r.2, signedOf .sint32 s.2)) = some (true, -2147483648) := by
  decide +kernel

end CompactProtobuf
end Snippets
