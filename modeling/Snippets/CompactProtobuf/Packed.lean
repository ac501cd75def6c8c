import Snippets.CompactProtobuf.Decoding
import Snippets.CompactProtobuf.PassThrough
import Snippets.Lib.Lockstep

/-!
# `CompactProtobuf.Packed` — decoding packed fields

A packed field is one length-delimited value that holds encoded elements one after the other (`ElementOk`, `elementWord`).
`DecodePacked` puts the first element into the value that is there, and appends the others (`decodePacked_elements`).

So it asserts that there is one value, and leaves one when there is no element: a packed field that occurs once and is not
empty is decoded to its elements, and no other is (`decodesTo_iff_single`).
-/

namespace Snippets

open Lib

namespace CompactProtobuf

variable {env : Env} {w w' : World} {p : MessagePtr} {m : Message} {fd : FieldDescriptor} {f : Field} {v : Value} {mem : Mem}
  {junk : Junk} {type : FieldType} {slice : Slice} {bs c front rest : List UInt8} {st : ParserState} {rs : List Record}
  {fields : FieldMap} {es : List (List UInt8)} {ess : List (List (List UInt8))} {r : Record} {d : Descriptor}
  {wire : WireType} {t data idx : Nat}

/-! ## Elements

The bytes of one element: a varint of at most ten bytes, or four or eight bytes, by the type. -/

/-- The number behind a zigzag code. -/
def unzigzag (n : Nat) : Int := if n % 2 = 0 then (n / 2 : Nat) else -((n / 2 : Nat) : Int) - 1

/-- The decoder's arithmetic is the usual one on 64 bits. -/
theorem zigzagDecode_eq {n : Nat} (hn : n < 2 ^ 64) : zigzagDecode n = toSize (unzigzag n) := by
  have hand : n &&& 0x1 = n % 2 := Nat.and_two_pow_sub_one_eq_mod n 1
  have hshift : n >>> 1 = n / 2 := Nat.shiftRight_eq_div_pow n 1
  unfold zigzagDecode unzigzag
  rw [hand, hshift]
  split
  · rw [toSize_of_range (by omega) (by omega)]
    omega
  · rfl

/-- An element of a packed field, encoded. -/
def ElementOk (type : FieldType) (bs : List UInt8) : Prop :=
  match type.member with
  | some .varint => Varint10 bs
  | some .f => bs.length = 4
  | some .d => bs.length = 8
  | _ => False

/-- The word that an element encodes. -/
def elementWord (type : FieldType) (bs : List UInt8) : Nat :=
  match type with
  | .sint32 | .sint64 => toSize (unzigzag (Varint.value bs % 2 ^ 64))
  | .int32 | .int64 | .uint32 | .uint64 | .bool | .enum => Varint.value bs % 2 ^ 64
  | _ => ofLe bs

/-- The value holds the word of an element. -/
def HoldsElement (type : FieldType) (bs : List UInt8) (v : Value) : Prop :=
  match type.member with
  | some .f => v.f = elementWord type bs
  | _ => v.primitive = elementWord type bs

/-- An element has a byte. -/
theorem ElementOk.length_pos (h : ElementOk type bs) : 0 < bs.length := by
  unfold ElementOk at h
  split at h
  · exact h.1.length_pos
  · omega
  · omega
  · exact h.elim

/-- A parser that reads the front of what is left of a placed string. -/
structure Advances (slice : Slice) (st st' : ParserState) (n : Nat) : Prop where
  slice : st'.slice = slice
  pos : st'.pos = st.pos + n

/-- A varint at the place of the parser, -/
theorem parseVarint_front (hp : Placed mem slice bs) (hs : st.slice = slice) (hdrop : bs.drop st.pos = c ++ rest)
    (hc : Varint10 c) :
    Advances slice st (parseVarint mem st) c.length ∧ (parseVarint mem st).v.primitive = Varint.value c % 2 ^ 64 := by
  have hend := hp.endAddr
  have hroom := hp.room
  have hsum : st.pos + (c.length + rest.length) = bs.length := by
    have hlen := congrArg List.length hdrop
    have hpos := hc.1.length_pos
    rw [List.length_drop, List.length_append] at hlen
    omega
  unfold parseVarint
  rw [hp.parseVarintInternal_eq hs (by omega), hdrop, varintVal_complete hc.1 hc.2, varintLen_complete hc.1 hc.2]
  refine ⟨⟨hs, ?_⟩, rfl⟩
  show toSize ((st.pos : Int) + (c.length : Nat)) = st.pos + c.length
  rw [toSize_of_range (by omega) (by omega)]
  omega

/-- The bytes at the position. -/
theorem read_front (hp : Placed mem slice bs) (hs : st.slice = slice) (hdrop : bs.drop st.pos = front ++ rest)
    (hne : 0 < front.length) :
    st.cur = slice.start + st.pos ∧ st.pos + (front.length + rest.length) = bs.length ∧
      mem.read st.cur front.length = front := by
  have hsum : st.pos + (front.length + rest.length) = bs.length := by
    have hlen := congrArg List.length hdrop
    rw [List.length_drop, List.length_append] at hlen
    omega
  have hcur := hp.cur_eq hs (by omega)
  refine ⟨hcur, hsum, ?_⟩
  have hholds : mem.Holds ((slice.start : Int) + (st.pos : Nat)) (bs.drop st.pos) := hp.holds.drop st.pos (by omega)
  rw [hdrop, Mem.holds_append] at hholds
  have hread := Mem.holds_iff_read.mp hholds.1
  rw [hcur]
  push_cast
  exact hread

/-- four bytes there, -/
theorem parse32Bits_front (hp : Placed mem slice bs) (hs : st.slice = slice) (hdrop : bs.drop st.pos = front ++ rest)
    (hlen : front.length = 4) :
    ∃ st', parse32Bits mem st = (.kOk, st') ∧ Advances slice st st' 4 ∧ st'.v.f = ofLe front := by
  have hend := hp.endAddr
  have hroom := hp.room
  obtain ⟨hcur, hsum, hread⟩ := read_front hp hs hdrop (by omega)
  have hsize : toSize ((st.cur : Int) + 4) = slice.start + st.pos + 4 := by
    rw [hcur, toSize_of_range (by omega) (by omega)]
    omega
  have hparse : parse32Bits mem st =
      (.kOk, { st with v := st.v.setF (ofLe (mem.read st.cur 4)), pos := toSize (st.pos + 4) }) := by
    unfold parse32Bits
    rw [hsize, hs, if_neg (by omega)]
  refine ⟨_, hparse, ⟨hs, ?_⟩, ?_⟩
  · show toSize ((st.pos : Int) + 4) = st.pos + 4
    rw [toSize_of_range (by omega) (by omega)]
    omega
  · have hlt := ofLe_lt front
    have hpow : (256 : Nat) ^ 4 = 2 ^ 32 := by decide
    rw [hlen, hpow] at hlt
    rw [hlen] at hread
    show (st.v.setF (ofLe (mem.read st.cur 4))).f = ofLe front
    rw [setF_f, hread, Nat.mod_eq_of_lt hlt]

/-- and eight. -/
theorem parse64Bits_front (hp : Placed mem slice bs) (hs : st.slice = slice) (hdrop : bs.drop st.pos = front ++ rest)
    (hlen : front.length = 8) :
    ∃ st', parse64Bits mem st = (.kOk, st') ∧ Advances slice st st' 8 ∧ st'.v.primitive = ofLe front := by
  have hend := hp.endAddr
  have hroom := hp.room
  obtain ⟨hcur, hsum, hread⟩ := read_front hp hs hdrop (by omega)
  have hsize : toSize ((st.cur : Int) + 8) = slice.start + st.pos + 8 := by
    rw [hcur, toSize_of_range (by omega) (by omega)]
    omega
  have hparse : parse64Bits mem st =
      (.kOk, { st with v := { st.v with primitive := ofLe (mem.read st.cur 8) }, pos := toSize (st.pos + 8) }) := by
    unfold parse64Bits
    rw [hsize, hs, if_neg (by omega)]
  refine ⟨_, hparse, ⟨hs, ?_⟩, ?_⟩
  · show toSize ((st.pos : Int) + 8) = st.pos + 8
    rw [toSize_of_range (by omega) (by omega)]
    omega
  · rw [hlen] at hread
    show ofLe (mem.read st.cur 8) = ofLe front
    rw [hread]

/-- **One element of a packed field.** -/
theorem parsePackedValue_element (hp : Placed mem slice bs) (hs : st.slice = slice) (hok : ElementOk type front)
    (hdrop : bs.drop st.pos = front ++ rest) :
    ∃ st', parsePackedValue mem type st = some st' ∧ Advances slice st st' front.length ∧
      ∀ y, HoldsElement type front (storePacked type st'.v y) := by
  unfold ElementOk at hok
  unfold parsePackedValue storePacked HoldsElement elementWord
  cases type <;> dsimp only [FieldType.member] at hok ⊢
  case int32 | int64 | uint32 | uint64 | bool | enum =>
    obtain ⟨hadv, hval⟩ := parseVarint_front hp hs hdrop hok
    exact ⟨_, rfl, hadv, fun _ => hval⟩
  case sint32 | sint64 =>
    obtain ⟨hadv, hval⟩ := parseVarint_front hp hs hdrop hok
    refine ⟨_, rfl, ⟨hadv.slice, hadv.pos⟩, ?_⟩
    intro y
    show zigzagDecode (parseVarint mem st).v.primitive = _
    rw [hval, zigzagDecode_eq (Nat.mod_lt _ (Nat.two_pow_pos 64))]
  case fixed32 | sfixed32 | float =>
    obtain ⟨st', hparse, hadv, hval⟩ := parse32Bits_front hp hs hdrop hok
    rw [hparse, hok]
    refine ⟨st', rfl, hadv, ?_⟩
    intro y
    have hlt : st'.v.f < 2 ^ 32 := Nat.mod_lt _ (Nat.two_pow_pos 32)
    rw [setF_f, Nat.mod_eq_of_lt hlt, hval]
  case fixed64 | sfixed64 | double =>
    obtain ⟨st', hparse, hadv, hval⟩ := parse64Bits_front hp hs hdrop hok
    rw [hparse, hok]
    exact ⟨st', rfl, hadv, fun _ => hval⟩

/-! ## The loop

Each turn parses one element. The first goes into the value that is there, any other into a new one. -/

/-- One iteration of the loop of `DecodePacked`. -/
theorem decodePackedLoop_step {st' : ParserState} (junk : Junk) (fuel idx : Nat) (values : List Value)
    (hlt : st.cur < st.slice.endAddr) (hparse : parsePackedValue mem type st = some st') :
    decodePackedLoop junk mem type (fuel + 1) idx st values = decodePackedLoop junk mem type fuel (idx + 1) st'
      (if idx = 0 then values.map (storePacked type st'.v) else values ++ [storePacked type st'.v (newValue (junk (.element idx)))]) := by
  rw [decodePackedLoop]
  simp only [if_pos hlt, hparse]

/-- At the end of the slice it stops. -/
theorem decodePackedLoop_stop (junk : Junk) (fuel idx : Nat) (values : List Value) (h : ¬ st.cur < st.slice.endAddr) :
    decodePackedLoop junk mem type fuel idx st values = some values := by
  unfold decodePackedLoop
  rw [if_neg h]

/-- The elements after the first, by induction on them. -/
theorem decodePackedLoop_rest (junk : Junk) (fuel idx : Nat) (values : List Value) (hp : Placed mem slice bs)
    (hs : st.slice = slice) (hok : ∀ e ∈ es, ElementOk type e) (hle : st.pos ≤ bs.length) (hdrop : bs.drop st.pos = es.flatten)
    (hfuel : es.flatten.length ≤ fuel) (hidx : idx ≠ 0) :
    ∃ us, decodePackedLoop junk mem type fuel idx st values = some (values ++ us) ∧
      List.Forall₂ (HoldsElement type) es us := by
  -- by induction on the elements still in the slice
  induction es generalizing fuel idx st values with
  | nil =>
      have hend : ¬ st.cur < st.slice.endAddr := by
        rw [hp.cur_lt_iff hs (by omega)]
        have hlen := congrArg List.length hdrop
        rw [List.length_drop, List.flatten_nil, List.length_nil] at hlen
        omega
      refine ⟨[], ?_, List.Forall₂.nil⟩
      rw [decodePackedLoop_stop junk fuel idx values hend, List.append_nil]
  | cons e es ih =>
      rw [List.flatten_cons] at hdrop hfuel
      have hpos := (hok e List.mem_cons_self).length_pos
      obtain ⟨st', hparse, hadv, hcontent⟩ := parsePackedValue_element hp hs (hok e List.mem_cons_self) hdrop
      have hlen := congrArg List.length hdrop
      rw [List.length_drop, List.length_append] at hlen
      rw [List.length_append] at hfuel
      have hlt : st.cur < st.slice.endAddr := by
        rw [hp.cur_lt_iff hs (by omega)]
        omega
      have hdrop' : bs.drop st'.pos = es.flatten := by
        rw [hadv.pos, ← List.drop_drop, hdrop, List.drop_left]
      obtain ⟨n, rfl⟩ : ∃ n, fuel = n + 1 := Nat.exists_eq_succ_of_ne_zero (by omega)
      obtain ⟨us, hus, hall⟩ := ih n (idx + 1) (values ++ [storePacked type st'.v (newValue (junk (.element idx)))]) hadv.slice
        (fun y hy => hok y (List.mem_cons_of_mem _ hy)) (by rw [hadv.pos]; omega) hdrop' (by omega) (Nat.succ_ne_zero idx)
      refine ⟨storePacked type st'.v (newValue (junk (.element idx))) :: us, ?_, List.Forall₂.cons (hcontent _) hall⟩
      rw [decodePackedLoop_step junk n idx values hlt hparse, if_neg hidx, hus, List.append_assoc]
      rfl

/-- **A packed field is decoded to its elements**, when there are any. -/
theorem decodePacked_elements (junk : Junk) (hvalues : f.values = [v]) (hp : Placed mem (embeddedSlice v) es.flatten)
    (hok : ∀ e ∈ es, ElementOk type e) (hne : es ≠ []) :
    ∃ f₁, decodePacked junk mem type f = some f₁ ∧ f₁ = { f with decoded := true, values := f₁.values } ∧
      List.Forall₂ (HoldsElement type) es f₁.values := by
  have hroom := hp.room
  have hend := hp.endAddr
  -- there is an element, since the assert wants a value
  cases es with
  | nil => exact absurd rfl hne
  | cons e es =>
      rw [List.flatten_cons] at hp hend
      have hpos := (hok e List.mem_cons_self).length_pos
      have hdrop : (e ++ es.flatten).drop (startState junk (embeddedSlice v)).pos = e ++ es.flatten := rfl
      obtain ⟨st', hparse, hadv, hcontent⟩ := parsePackedValue_element hp rfl (hok e List.mem_cons_self) hdrop
      rw [List.length_append] at hend
      have hlt : (startState junk (embeddedSlice v)).cur < (startState junk (embeddedSlice v)).slice.endAddr := by
        rw [hp.cur_lt_iff rfl (Nat.zero_le _), List.length_append]
        show 0 < _
        omega
      have hpos' : st'.pos = e.length := by
        rw [hadv.pos]
        exact Nat.zero_add _
      have hdrop' : (e ++ es.flatten).drop st'.pos = es.flatten := by rw [hpos', List.drop_left]
      obtain ⟨us, hus, hall⟩ := decodePackedLoop_rest junk (2 ^ 64 - 1) 1 [storePacked type st'.v v] hp hadv.slice
        (fun y hy => hok y (List.mem_cons_of_mem _ hy)) (by rw [hpos', List.length_append]; omega) hdrop' (by omega)
        Nat.one_ne_zero
      refine ⟨{ f with decoded := true, values := storePacked type st'.v v :: us }, ?_, rfl,
        List.Forall₂.cons (hcontent _) hall⟩
      have hstep := decodePackedLoop_step junk (2 ^ 64 - 1) 0 [v] hlt hparse
      have hfuel : 2 ^ 64 - 1 + 1 = 2 ^ 64 := by decide
      rw [hfuel, if_pos rfl] at hstep
      unfold decodePacked
      rw [hvalues]
      dsimp only
      rw [hstep, List.map_singleton, hus]
      rfl

/-- Without an element the value stays. -/
theorem decodePacked_empty (junk : Junk) (hvalues : f.values = [v]) (hp : Placed mem (embeddedSlice v) []) :
    decodePacked junk mem type f = some { f with decoded := true } := by
  have hstop : ¬ (startState junk (embeddedSlice v)).cur < (startState junk (embeddedSlice v)).slice.endAddr := by
    rw [hp.cur_lt_iff rfl (Nat.zero_le _)]
    exact Nat.not_lt_zero _
  unfold decodePacked
  rw [hvalues]
  dsimp only
  rw [decodePackedLoop_stop junk _ _ _ hstop, Option.map_some, ← hvalues]

/-! ## The slice of a packed field -/

/-- A stored value holds the payload. -/
theorem Stored.held (h : Stored mem wire r v) (hwire : r.wire = .kLengthDelimited → wire = .kLengthDelimited) : Held mem r v :=
  ⟨h.holds, h.endAddr, h.room, fun hr => h.len (hwire hr) hr⟩

/-- The slice behind the length prefix. -/
theorem Held.placed_body {body : List UInt8} (h : Held mem r v) (hr : r.payload = r.pre ++ body)
    (hwire : r.wire = .kLengthDelimited) :
    Placed mem (embeddedSlice v) body ∧ embeddedSlice v = ⟨v.encoded.start + r.pre.length, v.encoded.endAddr⟩ := by
  have hlen := h.len hwire
  have hend := h.endAddr
  have hroom := h.room
  have hsum : r.payload.length = r.pre.length + body.length := by rw [hr, List.length_append]
  have hslice : embeddedSlice v = ⟨v.encoded.start + r.pre.length, v.encoded.endAddr⟩ := by
    unfold embeddedSlice
    rw [hlen, toSize_of_range (by omega) (by omega)]
    congr 1
  refine ⟨?_, hslice⟩
  rw [hslice]
  refine ⟨?_, ?_, hroom⟩
  · have hholds := h.holds
    rw [hr, Mem.holds_append] at hholds
    exact hholds.2
  · show v.encoded.endAddr = v.encoded.start + r.pre.length + body.length
    rw [hend, hsum, Nat.add_assoc]

/-! ## Reading the elements

The getters after the decoding, element by element. -/

/-- The result of the getter for the type of `fd` that an element stands for. `w'` is the world after the call. -/
structure ReadsElement (env : Env) (w : World) (p : MessagePtr) (fd : FieldDescriptor) (idx : Nat) (e : List UInt8) (w' : World) :
    Prop where
  integer : fd.type.isInteger = true → w.getInteger env p fd.name idx = some (w', decodeUInt64 (elementWord fd.type e))
  double : fd.type = .double → w.getReal env p fd.name idx = some (w', UInt64.ofNat (elementWord fd.type e))
  float : fd.type = .float → w.getReal env p fd.name idx = some (w', env.widen (UInt32.ofNat (elementWord fd.type e)))

/-- `GetFieldSize` returns the number of elements, and then every element can be read. -/
def DecodesTo (env : Env) (w : World) (p : MessagePtr) (fd : FieldDescriptor) (es : List (List UInt8)) : Prop :=
  ∃ w', w.getFieldSize env p fd.name = some (w', es.length) ∧ ∀ idx e, es[idx]? = some e → ReadsElement env w' p fd idx e w'

/-- The integer getter, -/
theorem retrieveIntegerValue_element (hfd : f.fieldDescriptor = some fd) (hv : f.values[idx]? = some v)
    (hkind : fd.type.isInteger = true) {e : List UInt8} (h : HoldsElement fd.type e v) :
    retrieveIntegerValue f idx = some (elementWord fd.type e) := by
  unfold HoldsElement at h
  unfold retrieveIntegerValue
  rw [hfd, hv]
  dsimp only
  generalize elementWord fd.type e = x at h
  cases htype : fd.type <;> rw [htype] at h hkind <;> first | exact absurd hkind (by decide) | exact congrArg some h

/-- and the one of floats and doubles. -/
theorem retrieveRealValue_element (env : Env) (hfd : f.fieldDescriptor = some fd) (hv : f.values[idx]? = some v) {e : List UInt8}
    (h : HoldsElement fd.type e v) :
    (fd.type = .double → retrieveRealValue env f idx = some (UInt64.ofNat (elementWord fd.type e))) ∧
      (fd.type = .float → retrieveRealValue env f idx = some (env.widen (UInt32.ofNat (elementWord fd.type e)))) := by
  unfold HoldsElement at h
  unfold retrieveRealValue
  rw [hfd, hv]
  dsimp only
  generalize elementWord fd.type e = x at h
  constructor
  · intro htype
    rw [htype] at h ⊢
    exact congrArg (fun x => some (UInt64.ofNat x)) h
  · intro htype
    rw [htype] at h ⊢
    exact congrArg (fun x => some (env.widen (UInt32.ofNat x))) h

/-- What the getters do once `CheckValidIndex` and `TryDecodeField` are through. -/
theorem readsElement_of_access (hm : w.messages[p]? = some m) (hfd : fd ∈ (env.pool m.descriptor).fields)
    (hfind : m.fields.find fd.number = some f) {f₁ : Field} {i : Nat} (haccess : w.access env p fd f idx = some (w', f₁, i))
    (hfd₁ : f₁.fieldDescriptor = some fd) (hv : f₁.values[i]? = some v) {e : List UInt8} (h : HoldsElement fd.type e v) :
    ReadsElement env w p fd idx e w' := by
  have hget : ∀ {β : Type} (kind : FieldType → Bool) (default : FieldDescriptor → Option β) (read : Field → Nat → Option β),
      kind fd.type = true → w.get env p kind default read fd.name idx = (read f₁ i).map fun b => (w', b) := by
    intro β kind default read hkind
    unfold World.get
    rw [lookup_eq hm hfd hkind, hfind]
    simp only [Option.bind_eq_bind, Option.bind_some]
    rw [haccess, Option.bind_some]
    dsimp only
    cases read f₁ i <;> rfl
  obtain ⟨hdouble, hfloat⟩ := retrieveRealValue_element env hfd₁ hv h
  constructor
  · intro hkind
    unfold World.getInteger
    rw [hget _ _ _ hkind, retrieveIntegerValue_element hfd₁ hv hkind h]
    rfl
  · intro htype
    unfold World.getReal
    rw [hget _ _ _ (by rw [htype]; rfl), hdouble htype]
    rfl
  · intro htype
    unfold World.getReal
    rw [hget _ _ _ (by rw [htype]; rfl), hfloat htype]
    rfl

/-- A getter gets as far as the field. -/
theorem access_of_readsElement {e : List UInt8} (hm : w.messages[p]? = some m) (hfd : fd ∈ (env.pool m.descriptor).fields)
    (hfind : m.fields.find fd.number = some f) (hpackable : fd.type.packable = true) (h : ReadsElement env w p fd idx e w') :
    ∃ r, w.access env p fd f idx = some r := by
  have hget : ∀ {β : Type} (kind : FieldType → Bool) (default : FieldDescriptor → Option β) (read : Field → Nat → Option β)
      {r : World × β}, kind fd.type = true → w.get env p kind default read fd.name idx = some r →
      ∃ r, w.access env p fd f idx = some r := by
    intro β kind default read r hkind hr
    unfold World.get at hr
    rw [lookup_eq hm hfd hkind, hfind] at hr
    obtain ⟨_, hfound, hr⟩ := Option.bind_eq_some_iff.mp hr
    cases hfound
    obtain ⟨r', hr', -⟩ := Option.bind_eq_some_iff.mp hr
    exact ⟨r', hr'⟩
  by_cases hkind : fd.type.isInteger = true
  · exact hget _ _ _ hkind (h.integer hkind)
  · by_cases hdouble : fd.type = .double
    · exact hget _ _ _ (by rw [hdouble]; rfl) (h.double hdouble)
    · by_cases hfloat : fd.type = .float
      · exact hget _ _ _ (by rw [hfloat]; rfl) (h.float hfloat)
      · cases htype : fd.type <;> rw [htype] at hpackable hkind hdouble hfloat <;>
          first | exact absurd rfl hkind | exact absurd rfl hdouble | exact absurd rfl hfloat | exact absurd hpackable (by decide)

/-- The size is the number of values after the decoding. -/
theorem getFieldSize_eq (hm : w.messages[p]? = some m) (hfd : fd ∈ (env.pool m.descriptor).fields)
    (hfind : m.fields.find fd.number = some f) :
    w.getFieldSize env p fd.name = (w.tryDecodeField env p f).map fun r => (r.1, r.2.values.length) := by
  unfold World.getFieldSize
  rw [lookup_eq hm hfd rfl, hfind]
  simp only [Option.bind_eq_bind, Option.bind_some]
  cases w.tryDecodeField env p f <;> rfl

/-- The value of an element. -/
theorem element_at {values : List Value} {e : List UInt8} (hall : List.Forall₂ (HoldsElement type) es values)
    (he : es[idx]? = some e) : ∃ v, values[idx]? = some v ∧ HoldsElement type e v := by
  have hrel := forall₂_getElem? hall idx
  rw [he] at hrel
  generalize values[idx]? = o at hrel
  cases hrel with
  | some hv => exact ⟨_, rfl, hv⟩

/-- A field that `TryDecodeField` decodes to elements. -/
theorem decodesTo_of_elements {f₁ : Field} (hm : w.messages[p]? = some m) (hfd : fd ∈ (env.pool m.descriptor).fields)
    (hfind : m.fields.find fd.number = some f) (hdesc : f.fieldDescriptor = some fd)
    (htry : w.tryDecodeField env p f = some (w.store p f₁, f₁))
    (hheader : f₁ = { f with decoded := true, values := f₁.values }) (hall : List.Forall₂ (HoldsElement fd.type) es f₁.values)
    (hsingle : fd.isRepeated = false → es.length = 1) : DecodesTo env w p fd es := by
  have hdec₁ : f₁.decoded = true := by rw [hheader]
  have hid₁ : f₁.id = f.id := by rw [hheader]
  have hfd₁ : f₁.fieldDescriptor = some fd := by
    rw [hheader]
    exact hdesc
  have hid : f.id = fd.number := (FieldMap.find_some hfind).2
  -- the world after decoding
  have hm₁ : (w.store p f₁).messages[p]? = some { m with fields := m.fields.modify f₁.id fun _ => f₁ } := change_self hm
  have hfind₁ : FieldMap.find (FieldMap.modify m.fields f₁.id fun _ => f₁) fd.number = some f₁ := by
    rw [FieldMap.find_modify (fun _ _ => rfl), hid₁, hid, if_pos rfl, hfind]
    rfl
  refine ⟨w.store p f₁, ?_, ?_⟩
  · rw [getFieldSize_eq hm hfd hfind, htry, hall.length_eq]
    rfl
  · intro idx e he
    obtain ⟨v', hv', hholds⟩ := element_at hall he
    have hlt : idx < f₁.values.length := (List.getElem?_eq_some_iff.mp hv').1
    have haccess : (w.store p f₁).access env p fd f₁ idx = some (w.store p f₁, f₁, if fd.isRepeated then idx else 0) :=
      access_eq hdec₁ fun _ => hlt
    refine readsElement_of_access hm₁ hfd hfind₁ haccess hfd₁ ?_ hholds
    cases hrep : fd.isRepeated with
    | true => exact hv'
    | false =>
        -- the index is not looked at
        have hone := hsingle hrep
        rw [hall.length_eq] at hone
        obtain rfl : idx = 0 := by omega
        exact hv'

/-! ## A packed field that was parsed

A single record keeps its slice; with several, each of them is a value, and the decoder's assert for one value
fails. -/

/-- What a message that was only parsed holds under the number of a field. -/
theorem StoredMap.find (h : StoredMap mem d rs fields) (hfd : fd ∈ d.fields) (t : Nat) :
    (numbered fd.number rs = [] ∧ (splitUnknown ⟨t, fields, none⟩).fields.find fd.number = none) ∨
      ∃ f, (splitUnknown ⟨t, fields, none⟩).fields.find fd.number = some f ∧ StoredField mem d rs fd.number f := by
  obtain ⟨hknown, -, -⟩ := splitUnknown_halves h.sorted t
  rw [hknown]
  have hfound : ∀ f ∈ fields, f.id = fd.number → StoredField mem d rs fd.number f := by
    intro f hf hid
    obtain ⟨n, hn, hl⟩ := h.field f hf
    obtain rfl : n = fd.number := Int.ofNat_inj.mp (hn.symm.trans hid)
    exact hl
  -- there are records of the number or there are none
  cases hn : numbered fd.number rs with
  | nil =>
      refine Or.inl ⟨rfl, FieldMap.find_none.mpr ?_⟩
      intro f hf hid
      have hwire := (hfound f (List.mem_of_mem_filter hf) hid).wire
      rw [hn] at hwire
      cases hwire
  | cons r ss =>
      have hr : r ∈ numbered fd.number rs := by rw [hn]; exact List.mem_cons_self
      obtain ⟨hmem, hnum⟩ := List.mem_filter.mp hr
      obtain ⟨f, hf, hid⟩ := h.all r hmem
      rw [of_decide_eq_true hnum] at hid
      have hl := hfound f hf hid
      have hd := Descriptor.findFieldByNumber_eq hfd
      have hmem' : f ∈ fields.filter fun f => f.unknown == false := by
        refine List.mem_filter.mpr ⟨hf, ?_⟩
        rw [hl.unknown, hd]
        rfl
      have hs : Sorted (fields.filter fun f => f.unknown == false) := h.sorted.filter _
      refine Or.inr ⟨f, ?_, hl⟩
      rw [← hid]
      exact hs.find_eq hmem'

/-- After `FromString`, a field whose number occurs holds the records with it that are kept. -/
theorem fromString_field (hfd : fd ∈ (env.pool t).fields) (hfresh : w.messages[p]? = some (newMessage t))
    (hmem : w.mem.Holds data (bytesOf rs)) (hroom : data + (bytesOf rs).length + 16 ≤ 2 ^ 64)
    (hreq : ∀ gd ∈ (env.pool t).fields, gd.label = .required → ∃ r ∈ rs, r.number = gd.number)
    (hoccurs : numbered fd.number rs ≠ []) :
    ∃ w₁ m f, w.fromString env.pool env.junk p data (bytesOf rs).length = some (w₁, true) ∧ w₁.mem = w.mem ∧
      w₁.messages[p]? = some m ∧ m.descriptor = t ∧ m.fields.find fd.number = some f ∧
      StoredField w.mem (env.pool t) rs fd.number f := by
  obtain ⟨fields, hstored, hfrom⟩ := @fromString_stored env.pool env.junk _ _ _ _ _ hfresh hmem hroom hreq
  obtain ⟨-, -, hdesc⟩ := splitUnknown_halves hstored.sorted t
  have hlt := (List.getElem?_eq_some_iff.mp hfresh).1
  rcases hstored.find hfd t with ⟨hnil, -⟩ | ⟨f, hfind, hl⟩
  · exact absurd hnil hoccurs
  · exact ⟨_, _, f, hfrom, rfl, List.getElem?_set_self hlt, hdesc, hfind, hl⟩

/-- A record of a packed field that carries these elements. -/
structure Occurrence (type : FieldType) (r : Record) (es : List (List UInt8)) : Prop where
  wire : r.wire = .kLengthDelimited
  payload : r.payload = r.pre ++ es.flatten
  elements : ∀ e ∈ es, ElementOk type e

/-- The packed field of a message that was only parsed. -/
structure PackedField (env : Env) (w : World) (p : MessagePtr) (fd : FieldDescriptor) (m : Message) (f : Field) : Prop where
  found : w.messages[p]? = some m
  mem : fd ∈ (env.pool m.descriptor).fields
  packed : fd.packed = true
  find : m.fields.find fd.number = some f
  fieldDescriptor : f.fieldDescriptor = some fd
  decoded : f.decoded = false

/-- The decoding of a packed field, -/
theorem PackedField.tryDecodeField (h : PackedField env w p fd m f) :
    w.tryDecodeField env p f = (decodePacked env.junk w.mem fd.type f).map fun f₁ => (w.store p f₁, f₁) := by
  rw [tryDecodeField_of_undecoded h.decoded]
  unfold decodeField
  rw [h.fieldDescriptor]
  dsimp only
  rw [if_pos h.packed, Option.map_map]
  rfl

/-- and the access, which checks the index before it decodes. -/
theorem PackedField.access (h : PackedField env w p fd m f) (idx : Nat) :
    w.access env p fd f idx = if idx < f.values.length then
      (decodePacked env.junk w.mem fd.type f).map fun f₁ => (w.store p f₁, f₁, idx) else none := by
  have hrep : fd.isRepeated = true := beq_iff_eq.mpr (fd.packed_repeated h.packed).1
  have hcheck : checkValidIndex f fd idx = decide (idx < f.values.length) := by
    unfold checkValidIndex
    rw [hrep, Bool.true_and]
    by_cases hlt : idx < f.values.length
    · rw [decide_eq_true hlt, decide_eq_false (Nat.not_le_of_lt hlt)]
      rfl
    · rw [decide_eq_false hlt, decide_eq_true (Nat.le_of_not_lt hlt)]
      rfl
  unfold World.access
  rw [hcheck, h.tryDecodeField, hrep]
  by_cases hlt : idx < f.values.length
  · rw [if_pos hlt, guard, if_pos (decide_eq_true hlt)]
    cases decodePacked env.junk w.mem fd.type f <;> rfl
  · rw [if_neg hlt, guard, if_neg (by rw [decide_eq_false hlt]; exact Bool.false_ne_true)]
    rfl

/-- The one value holds the elements: they can be read, the first of them at once. -/
theorem PackedField.single (h : PackedField env w p fd m f) (hvalues : f.values = [v])
    (hp : Placed w.mem (embeddedSlice v) es.flatten) (hok : ∀ e ∈ es, ElementOk fd.type e) (hne : es ≠ []) :
    DecodesTo env w p fd es ∧ ∀ e, es[0]? = some e → ∃ w₁, ReadsElement env w p fd 0 e w₁ := by
  obtain ⟨f₁, hdecode, hheader, hall⟩ := decodePacked_elements env.junk hvalues hp hok hne
  have htry : w.tryDecodeField env p f = some (w.store p f₁, f₁) := by rw [h.tryDecodeField, hdecode, Option.map_some]
  have hrep : fd.isRepeated = true := beq_iff_eq.mpr (fd.packed_repeated h.packed).1
  refine ⟨decodesTo_of_elements h.found h.mem h.find h.fieldDescriptor htry hheader hall ?_, ?_⟩
  · intro hnrep
    rw [hrep] at hnrep
    cases hnrep
  · intro e he
    obtain ⟨v', hv', hholds⟩ := element_at hall he
    have haccess := h.access 0
    rw [hvalues, List.length_singleton, if_pos Nat.one_pos, hdecode, Option.map_some] at haccess
    have hfd₁ : f₁.fieldDescriptor = some fd := by
      rw [hheader]
      exact h.fieldDescriptor
    exact ⟨_, readsElement_of_access h.found h.mem h.find haccess hfd₁ hv' hholds⟩

/-- With several values, or none, an assert fails. -/
theorem PackedField.many (h : PackedField env w p fd m f) (hlen : f.values.length ≠ 1) :
    ¬ DecodesTo env w p fd es ∧ ∀ idx e w₁, ¬ ReadsElement env w p fd idx e w₁ := by
  have hnone : decodePacked env.junk w.mem fd.type f = none := by
    unfold decodePacked
    split
    next v hv =>
      rw [hv] at hlen
      exact absurd rfl hlen
    next => rfl
  constructor
  · rintro ⟨w', hsize, -⟩
    rw [getFieldSize_eq h.found h.mem h.find, h.tryDecodeField, hnone] at hsize
    cases hsize
  · intro idx e w₁ hread
    obtain ⟨r, hr⟩ := access_of_readsElement h.found h.mem h.find (fd.packed_repeated h.packed).2 hread
    rw [h.access, hnone, Option.map_none, ite_self] at hr
    cases hr

/-- An empty field is decoded to one value. -/
theorem PackedField.empty (h : PackedField env w p fd m f) (hvalues : f.values = [v]) (hp : Placed w.mem (embeddedSlice v) []) :
    ¬ DecodesTo env w p fd [] := by
  rintro ⟨w', hsize, -⟩
  rw [getFieldSize_eq h.found h.mem h.find, h.tryDecodeField, decodePacked_empty env.junk hvalues hp, Option.map_some,
    Option.map_some, hvalues] at hsize
  cases hsize

/-- **When a packed field decodes to its elements**, for a message that `FromString` parsed: if and only if the field occurs once
    and is not empty. Without a call that decodes it before, only the first element can be read. -/
theorem decodesTo_iff_single (hfd : fd ∈ (env.pool t).fields) (hpacked : fd.packed = true)
    (hfresh : w.messages[p]? = some (newMessage t)) (hmem : w.mem.Holds data (bytesOf rs))
    (hroom : data + (bytesOf rs).length + 16 ≤ 2 ^ 64)
    (hreq : ∀ gd ∈ (env.pool t).fields, gd.label = .required → ∃ r ∈ rs, r.number = gd.number)
    (hess : List.Forall₂ (Occurrence fd.type) (numbered fd.number rs) ess) (hne : ess ≠ []) :
    ∃ w₁, w.fromString env.pool env.junk p data (bytesOf rs).length = some (w₁, true) ∧
      (DecodesTo env w₁ p fd ess.flatten ↔ ess.length = 1 ∧ ess.flatten ≠ []) ∧
      ∀ idx e, ess.flatten[idx]? = some e → ((∃ w₂, ReadsElement env w₁ p fd idx e w₂) ↔ ess.length = 1 ∧ idx = 0) := by
  have hoccurs : numbered fd.number rs ≠ [] := by
    intro hnil
    rw [hnil] at hess
    exact hne (List.forall₂_nil_left_iff.mp hess)
  obtain ⟨w₁, m, f, hfrom, hmem₁, hfound, hdesc, hfind, hl⟩ := fromString_field hfd hfresh hmem hroom hreq hoccurs
  refine ⟨w₁, hfrom, ?_⟩
  have hfield : PackedField env w₁ p fd m f :=
    ⟨hfound, by rw [hdesc]; exact hfd, hpacked, hfind, hl.descriptor.trans (Descriptor.findFieldByNumber_eq hfd), hl.decoded⟩
  -- all records of the field are kept
  have hkept : keptOf (env.pool t) rs fd.number = numbered fd.number rs := by
    unfold keptOf
    rw [Descriptor.keepsAll_some (Descriptor.findFieldByNumber_eq hfd)]
    exact if_pos (beq_iff_eq.mpr (fd.packed_repeated hpacked).1)
  have hvalues := hl.values
  rw [hkept, ← hmem₁] at hvalues
  have hwire := hl.wire
  generalize numbered fd.number rs = occurrences at hess hvalues hwire
  cases hess with
  | nil => exact absurd rfl hne
  | @cons r es occurrences ess hocc hrest =>
      obtain ⟨v, vs, hv, hvs, heq⟩ := List.forall₂_cons_left_iff.mp hvalues
      cases hrest with
      | nil =>
          -- one occurrence
          rw [List.forall₂_nil_left_iff.mp hvs] at heq
          have hfw : r.wire = f.wireType := Option.some.inj hwire
          have hheld := hv.held fun hr => hfw.symm.trans hr
          obtain ⟨hplaced, -⟩ := hheld.placed_body hocc.payload hocc.wire
          rw [List.flatten_singleton]
          by_cases hes : es = []
          · subst hes
            refine ⟨⟨fun hdec => absurd hdec (hfield.empty heq hplaced), fun hdec => absurd rfl hdec.2⟩, ?_⟩
            intro idx e he
            cases he
          · obtain ⟨hdec, hfirst⟩ := hfield.single heq hplaced hocc.elements hes
            refine ⟨⟨fun _ => ⟨rfl, hes⟩, fun _ => hdec⟩, ?_⟩
            intro idx e he
            constructor
            · rintro ⟨w₂, hread⟩
              obtain ⟨x, hx⟩ := access_of_readsElement hfield.found hfield.mem hfield.find (fd.packed_repeated hpacked).2 hread
              rw [hfield.access, heq, List.length_singleton] at hx
              split at hx
              next hidx => exact ⟨rfl, Nat.lt_one_iff.mp hidx⟩
              next => cases hx
            · rintro ⟨-, rfl⟩
              exact hfirst e he
      | @cons r' es' occurrences ess hocc' hrest =>
          -- several occurrences
          obtain ⟨v', vs', -, -, heq'⟩ := List.forall₂_cons_left_iff.mp hvs
          have hlen : f.values.length ≠ 1 := by
            rw [heq, heq']
            simp
          have hlen' : (es :: es' :: ess).length ≠ 1 := by simp
          refine ⟨⟨fun hdec => absurd hdec (hfield.many hlen).1, fun hdec => absurd hdec.1 hlen'⟩, ?_⟩
          intro idx e _
          exact ⟨fun ⟨w₂, hread⟩ => absurd hread ((@PackedField.many _ _ _ _ _ _ [] hfield hlen).2 idx e w₂),
            fun hdec => absurd hdec.1 hlen'⟩

/-- A packed `repeated uint64 a = 1`. -/
def packedField : FieldDescriptor := ⟨"a", 1, .uint64, .repeated, true, 0, 0, 0, [], firstNumber_pos, firstNumber_lt, packed_uint64⟩

/-- One packed field. -/
def packedEnv : Env := ⟨fun _ => ⟨[packedField], by decide, by decide⟩, zeroJunk, fun _ => 0, fun _ => 0⟩

/-- The numbers 5 and 300. -/
def packedRecord : Record :=
  ⟨1, .kLengthDelimited, [0x0a], [3], [3, 5, 0xac, 2], firstNumber_pos, firstNumber_lt, stringRecord.tag_ok, stringRecord.tag_value,
    .delimited ⟨by decide, by decide⟩ (by decide)⟩

/-- Two elements in one record. -/
theorem decodesTo_twoElements : ∃ w₁,
    World.fromString packedEnv.pool zeroJunk ⟨memAt [0x0a, 3, 5, 0xac, 2], [newMessage 0]⟩ 0 4096 5 = some (w₁, true) ∧
      DecodesTo packedEnv w₁ 0 packedField [[5], [0xac, 2]] := by
  have hocc : Occurrence .uint64 packedRecord [[5], [0xac, 2]] := by
    refine ⟨rfl, rfl, ?_⟩
    intro e he
    rcases List.mem_cons.mp he with rfl | he
    · exact ⟨by decide, by decide⟩
    · rw [List.mem_singleton.mp he]
      exact ⟨by decide, by decide⟩
  obtain ⟨w₁, hfrom, hiff, -⟩ := @decodesTo_iff_single packedEnv ⟨memAt [0x0a, 3, 5, 0xac, 2], [newMessage 0]⟩ 0 packedField
    [packedRecord] [[[5], [0xac, 2]]] 0 4096 List.mem_cons_self rfl rfl (Mem.holds_iff_read.mpr (by decide +kernel)) (by decide)
    (by decide) (List.Forall₂.cons hocc List.Forall₂.nil) (List.cons_ne_nil _ _)
  exact ⟨w₁, hfrom, hiff.mpr ⟨rfl, List.cons_ne_nil _ _⟩⟩

/-- A packed field without elements, `0a 00`, comes out with one. -/
theorem not_decodesTo_empty : ∃ w₁,
    World.fromString packedEnv.pool zeroJunk ⟨memAt [0x0a, 0], [newMessage 0]⟩ 0 4096 2 = some (w₁, true) ∧
      ¬ DecodesTo packedEnv w₁ 0 packedField [] := by
  have hsize : (World.fromString packedEnv.pool zeroJunk ⟨memAt [0x0a, 0], [newMessage 0]⟩ 0 4096 2).map (fun r =>
      (r.2, (r.1.getFieldSize packedEnv 0 "a").map Prod.snd)) = some (true, some 1) := by decide +kernel
  obtain ⟨⟨w₁, ok⟩, hfrom, heq⟩ := Option.map_eq_some_iff.mp hsize
  obtain ⟨rfl, hone⟩ := Prod.mk.inj heq
  refine ⟨w₁, hfrom, ?_⟩
  rintro ⟨w', hzero, -⟩
  have hzero' : w₁.getFieldSize packedEnv 0 "a" = some (w', 0) := hzero
  rw [hzero'] at hone
  cases hone

end CompactProtobuf
end Snippets
