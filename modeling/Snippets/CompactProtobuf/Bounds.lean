import Snippets.CompactProtobuf.FieldMap
import Snippets.CompactProtobuf.Progress

/-!
# `CompactProtobuf.Bounds` — when every stored slice stays inside its string

After a successful parse every `Value` should point into the string it was parsed from, and so should the values of
every embedded message later decoded from such a slice. Two things have to be true of each record the loop meets:
its varint value is not cut off by the end (`VarintWhole`), and its length does not wrap and is there when
`DecodeMessage` skips it (`LengthFits`).
-/

namespace Snippets

open Lib

namespace CompactProtobuf

/-! ## The property -/

/-- `outer.start <= inner.start <= inner.end <= outer.end`. -/
def SliceIn (inner outer : Slice) : Prop :=
  outer.start ≤ inner.start ∧ inner.start ≤ inner.endAddr ∧ inner.endAddr ≤ outer.endAddr

theorem SliceIn.trans {a b c : Slice} (h₁ : SliceIn a b) (h₂ : SliceIn b c) : SliceIn a c :=
  ⟨le_trans h₂.1 h₁.1, h₁.2.1, le_trans h₁.2.2 h₂.2.2⟩

/-- The values of `fields_` and `unknown_fields_` lie in `slice`. -/
def Bounded (slice : Slice) (m : Message) : Prop :=
  ∀ f ∈ m.fields ++ m.unknownFields.getD [], ∀ v ∈ f.values, SliceIn v.encoded slice

/-- The slice `DecodeMessage` parses an embedded message from. -/
def embeddedSlice (v : Value) : Slice := ⟨toSize (v.encoded.start + v.primitive), v.encoded.endAddr⟩

/-- The values of `m`, and of the messages decoded from them down to depth `n`, lie in their slices. -/
def DeepBounded (pool : Pool) (junk : Junk) (mem : Mem) : Nat → Slice → Message → Prop
  | 0, slice, m => Bounded slice m
  | n + 1, slice, m => Bounded slice m ∧
      ∀ f ∈ m.fields, ∀ fd, f.fieldDescriptor = some fd → fd.type = .message → ∀ v ∈ f.values,
        ∀ m', (newMessage fd.messageType).init pool junk mem (embeddedSlice v) = some (true, m') →
          DeepBounded pool junk mem n v.encoded m'

/-- Whatever a successful parse of `slice` stores lies in `slice`, at every depth. -/
def BoundsSpec (pool : Pool) (junk : Junk) (mem : Mem) (d : Nat) (slice : Slice) : Prop :=
  ∀ m, (newMessage d).init pool junk mem slice = some (true, m) → ∀ n, DeepBounded pool junk mem n slice m

/-! ## The condition -/

/-- The bytes of a slice. -/
def sliceBytes (mem : Mem) (slice : Slice) : List UInt8 := mem.read slice.start (slice.endAddr - slice.start)

/-- The varint value of the record at `pos` is not cut off by the end of the string. -/
def VarintWhole (_ : Descriptor) (_ : Nat) (bs : List UInt8) (pos : Nat) : Prop :=
  getWireType (varintVal (bs.drop pos)) = some .kVarint →
    let pos₁ := pos + varintLen (bs.drop pos)
    pos₁ + lazyLen (bs.drop pos₁) ≤ bs.length

/-- The end of a length-delimited record at `pos` does not wrap to before the record, and a record of an embedded
    message is length-delimited. -/
structure LengthFits (d : Descriptor) (start : Nat) (bs : List UInt8) (pos : Nat) : Prop where
  delimited : getWireType (varintVal (bs.drop pos)) = some .kLengthDelimited →
    let pos₁ := pos + varintLen (bs.drop pos)
    start + pos₁ + varintLen (bs.drop pos₁) + varintVal (bs.drop pos₁) < 2 ^ 64 ∨
      2 ^ 64 ≤ varintLen (bs.drop pos₁) + varintVal (bs.drop pos₁)
  message : ∀ fd, d.findFieldByNumber (getFieldId (varintVal (bs.drop pos))) = some fd → fd.type = .message →
    getWireType (varintVal (bs.drop pos)) = some .kLengthDelimited

instance (d : Descriptor) (start : Nat) (bs : List UInt8) (pos : Nat) : Decidable (VarintWhole d start bs pos) := by
  unfold VarintWhole
  infer_instance

instance (d : Descriptor) (start : Nat) (bs : List UInt8) (pos : Nat) : Decidable (LengthFits d start bs pos) :=
  decidable_of_iff
    ((getWireType (varintVal (bs.drop pos)) = some .kLengthDelimited →
      let pos₁ := pos + varintLen (bs.drop pos)
      start + pos₁ + varintLen (bs.drop pos₁) + varintVal (bs.drop pos₁) < 2 ^ 64 ∨
        2 ^ 64 ≤ varintLen (bs.drop pos₁) + varintVal (bs.drop pos₁)) ∧
      ∀ fd ∈ d.findFieldByNumber (getFieldId (varintVal (bs.drop pos))), fd.type = .message →
        getWireType (varintVal (bs.drop pos)) = some .kLengthDelimited)
    ⟨fun h => ⟨h.1, h.2⟩, fun h => ⟨h.delimited, h.message⟩⟩

/-- `P` holds of every record the parse of `slice` meets. -/
def Reached (P : Descriptor → Nat → List UInt8 → Nat → Prop) (junk : Junk) (mem : Mem) (d : Descriptor)
    (slice : Slice) : Prop :=
  ∀ its s, Run (Iter junk mem d) (startState junk slice, []) its s → s.1.cur < s.1.slice.endAddr →
    P d slice.start (sliceBytes mem slice) s.1.pos

/-- When the parse succeeds, `P` holds of every record it meets, and of every record of the embedded messages
    decoded from it, down to depth `n`. -/
def DeepReached (P : Descriptor → Nat → List UInt8 → Nat → Prop) (pool : Pool) (junk : Junk) (mem : Mem) :
    Nat → Nat → Slice → Prop
  | 0, d, slice => ∀ m, (newMessage d).init pool junk mem slice = some (true, m) → Reached P junk mem (pool d) slice
  | n + 1, d, slice => ∀ m, (newMessage d).init pool junk mem slice = some (true, m) →
      Reached P junk mem (pool d) slice ∧
        ∀ f ∈ m.fields, ∀ fd, f.fieldDescriptor = some fd → fd.type = .message → ∀ v ∈ f.values,
          DeepReached P pool junk mem n fd.messageType (embeddedSlice v)

/-! ## The invariant of the loop -/

/-- A stored field whose slices are inside, and whose embedded messages start behind their length prefix. -/
structure FieldSafe (d : Descriptor) (slice : Slice) (f : Field) : Prop where
  descriptor : f.fieldDescriptor = d.findFieldByNumber f.id
  message : ∀ fd, f.fieldDescriptor = some fd → fd.type = .message →
    f.wireType = .kLengthDelimited ∧ ∀ v ∈ f.values, v.primitive ≤ 11
  inside : ∀ v ∈ f.values, SliceIn v.encoded slice

/-- What a record hands to `fill fields`. -/
structure ParsedSafe (d : Descriptor) (slice : Slice) (st : ParserState) : Prop where
  inside : SliceIn st.v.encoded slice
  message : ∀ fd, d.findFieldByNumber st.fieldId = some fd → fd.type = .message →
    st.wireType = .kLengthDelimited ∧ st.v.primitive ≤ 11

variable {junk : Junk} {mem : Mem} {d : Descriptor} {slice : Slice} {bs : List UInt8} {st st' : ParserState}
  {fields fields' : FieldMap} {f : Field}

/-- `FastAppend` of a safe record to a field with the record's id. -/
theorem FieldSafe.fastAppend (found : Found) (hf : FieldSafe d slice f) (hst : ParsedSafe d slice st) (hid : f.id = st.fieldId) :
    FieldSafe d slice (f.fastAppend found st.v) := by
  have hv : ∀ v ∈ (f.fastAppend found st.v).values, v ∈ f.values ∨
      (v.encoded = st.v.encoded ∧ (f.wireType = .kLengthDelimited → v.primitive = st.v.primitive)) := by
    intro v hv
    rcases List.mem_append.mp hv with hv | hv
    · exact Or.inl hv
    · rw [List.mem_singleton] at hv
      subst hv
      refine Or.inr ⟨?_, fun hw => ?_⟩
      · split <;> rfl
      · rw [if_pos hw]
  refine ⟨hf.descriptor, fun fd hfd hty => ?_, fun v hmem => ?_⟩
  · obtain ⟨hw, hprim⟩ := hf.message fd hfd hty
    refine ⟨hw, fun v hmem => ?_⟩
    rcases hv v hmem with hmem | ⟨-, hp⟩
    · exact hprim v hmem
    · rw [hp hw]
      have hfd' : d.findFieldByNumber st.fieldId = some fd := by rw [← hid, ← hf.descriptor]; exact hfd
      exact (hst.message fd hfd' hty).2
  · rcases hv v hmem with hmem | ⟨he, -⟩
    · exact hf.inside v hmem
    · rw [he]; exact hst.inside

theorem fillField_safe (hfields : ∀ f ∈ fields, FieldSafe d slice f) (hst : ParsedSafe d slice st)
    (h : fillField junk d fields st = some fields') : ∀ f ∈ fields', FieldSafe d slice f := by
  -- both ways to change a stored field append the record to a safe field with its id
  have hmod : ∀ change : Field → Field, (∀ f ∈ fields, f.id = st.fieldId → FieldSafe d slice (change f)) →
      ∀ g ∈ fields.modify st.fieldId change, FieldSafe d slice g := by
    intro change hchange g hg
    obtain ⟨f, hf, rfl | ⟨hid, rfl⟩⟩ := FieldMap.mem_modify hg
    · exact hfields _ hf
    · exact hchange f hf hid
  have happ : ∀ f ∈ fields, f.id = st.fieldId → FieldSafe d slice (f.fastAppend (junk (.parsed st.cur)) st.v) :=
    fun f hf hid => (hfields f hf).fastAppend _ hst hid
  rcases fillField_cases h with ⟨-, rfl⟩ | ⟨f, -, rfl | rfl⟩
  · intro f hf
    rcases FieldMap.mem_insert.mp hf with rfl | hf
    · refine FieldSafe.fastAppend _ ⟨rfl, fun fd hfd hty => ⟨(hst.message fd hfd hty).1, ?_⟩, ?_⟩ hst rfl
      · intro v hv; cases hv
      · intro v hv; cases hv
    · exact hfields f hf
  · exact hmod _ happ
  · refine hmod _ fun f hf hid => ?_
    have hempty : FieldSafe d slice { f with values := [] } :=
      ⟨(hfields f hf).descriptor, fun fd hfd hty => ⟨((hfields f hf).message fd hfd hty).1, by simp⟩, by simp⟩
    exact hempty.fastAppend _ hst hid

/-- A safe record of a placed string hands over a safe value and stays inside the string. -/
theorem RecordOk.safe (hp : Placed mem slice bs) (h : RecordOk slice bs st st') (hpos : st.pos < bs.length)
    (hv : VarintWhole d slice.start bs st.pos) (hs : LengthFits d slice.start bs st.pos) :
    ParsedSafe d slice st' ∧ st'.pos ≤ bs.length ∧ st'.slice = st.slice := by
  have hend := hp.endAddr
  have hroom := hp.room
  have ht := varintLen_le (bs.drop st.pos)
  rw [List.length_drop] at ht
  cases h with
  | varint w pos hpos₁ =>
      subst hpos₁
      have hle := hv w
      refine ⟨⟨⟨?_, ?_, ?_⟩, fun fd hfd hty => ?_⟩, hle, rfl⟩
      · exact Nat.le_add_right _ _
      · show slice.start + _ ≤ slice.start + (_ + _)
        omega
      · show slice.start + _ ≤ _
        omega
      · exact absurd ((hs.message fd hfd hty).symm.trans w) (by decide)
  | delimited w pos e hpos₁ he hle =>
      have hl := varintLen_le (bs.drop pos)
      have hval := varintVal_lt (bs.drop pos)
      have hdel := hs.delimited w
      simp only [← hpos₁] at hdel
      have hgoal : slice.start + pos ≤ e ∧
          toSize ((pos : Int) + varintLen (bs.drop pos) + varintVal (bs.drop pos)) ≤ bs.length := by
        rcases hdel with hfit | hbig
        · rw [toSize_of_range (by omega) (by omega)] at he
          rw [toSize_of_range (by omega) (by omega)]
          omega
        · rw [toSize_of_wrap (by omega) (by omega)] at he
          rw [toSize_of_wrap (by omega) (by omega)]
          omega
      refine ⟨⟨⟨Nat.le_add_right _ _, hgoal.1, hle⟩, fun fd hfd hty => ⟨rfl, ?_⟩⟩, hgoal.2, rfl⟩
      show varintLen (bs.drop pos) ≤ 11
      omega
  | fixed w hw hcase pos hpos₁ hle =>
      refine ⟨⟨⟨Nat.le_add_right _ _, Nat.le_add_right _ _, ?_⟩, fun fd hfd hty => ?_⟩, hle, rfl⟩
      · show slice.start + pos + w.width ≤ _
        omega
      · have hld := (hs.message fd hfd hty).symm.trans hw
        obtain rfl : WireType.kLengthDelimited = w := Option.some.inj hld
        rcases hcase with hcase | hcase <;> cases hcase

theorem Placed.sliceBytes_eq (hp : Placed mem slice bs) : sliceBytes mem slice = bs := by
  unfold sliceBytes
  rw [hp.endAddr, Nat.add_sub_cancel_left]
  exact Mem.holds_iff_read.mp hp.holds

/-- The loop behind a successful parse. -/
theorem parseMessageLazy_loop (h : parseMessageLazy junk mem d slice [] = some (true, fields)) :
    slice.start ≤ slice.endAddr ∧
      parseLoop junk mem d (2 ^ 64) (startState junk slice) [] = some (.kOk, fields) := by
  unfold parseMessageLazy at h
  split at h
  next hle =>
    refine ⟨hle, ?_⟩
    split at h
    next fields₁ hloop =>
      split at h
      · obtain rfl := (Prod.mk.inj (Option.some.inj h)).2
        exact hloop
      · cases h
    next => cases h
    next => cases h
  next => cases h

/-- After a successful parse of a slice whose records are all safe, every field is safe. -/
theorem fields_safe (hp : Placed mem slice bs) (hwhole : Reached VarintWhole junk mem d slice)
    (hfit : Reached LengthFits junk mem d slice)
    (h : parseMessageLazy junk mem d slice [] = some (true, fields)) : ∀ f ∈ fields, FieldSafe d slice f := by
  obtain ⟨its, st', hrun⟩ := parseLoop_run (parseMessageLazy_loop h).2
  have hinv := Run.invariantTrace
    (I := fun its s => Run (Iter junk mem d) (startState junk slice, []) its s ∧ s.1.slice = slice ∧
      s.1.pos ≤ bs.length ∧ ∀ f ∈ s.2, FieldSafe d slice f)
    (fun its s u s' hI hit => by
      obtain ⟨hreach, hs, hposle, hfs⟩ := hI
      obtain ⟨hlt, hrec, hfill⟩ := parseStep_some hit
      have hpos := (hp.cur_lt_iff hs (by omega)).mp hlt
      have hrv := hwhole its s hreach hlt
      have hrl := hfit its s hreach hlt
      rw [hp.sliceBytes_eq] at hrv hrl
      obtain ⟨hps, hpos', hs'⟩ := (hp.parseRecord_ok hs hpos hrec).safe hp hpos hrv hrl
      exact ⟨Run.tail hreach hit, hs'.trans hs, hpos', fillField_safe hfs hps hfill⟩) hrun
    ⟨Run.refl, rfl, Nat.zero_le _, by simp⟩
  exact hinv.2.2.2

/-! ## From the records to the messages -/

variable {pool : Pool} {n dn : Nat} {m : Message} {v : Value}

/-- A successful `Init` of a fresh message is a successful parse. -/
theorem init_inv (h : (newMessage dn).init pool junk mem slice = some (true, m)) :
    ∃ fields, parseMessageLazy junk mem (pool dn) slice [] = some (true, fields) ∧
      m = splitUnknown ⟨dn, fields, none⟩ := by
  unfold Message.init at h
  split at h
  next fields hparse => exact ⟨fields, hparse, (Prod.mk.inj (Option.some.inj h)).2.symm⟩
  next => cases (Prod.mk.inj (Option.some.inj h)).1
  next => cases h

/-- A slice inside a placed one is placed. -/
theorem Placed.sub (hp : Placed mem slice bs) {inner : Slice} (h : SliceIn inner slice) :
    Placed mem inner ((bs.drop (inner.start - slice.start)).take (inner.endAddr - inner.start)) := by
  obtain ⟨h₁, h₂, h₃⟩ := h
  have hend := hp.endAddr
  have hroom := hp.room
  have hlen : ((bs.drop (inner.start - slice.start)).take (inner.endAddr - inner.start)).length =
      inner.endAddr - inner.start := by
    rw [List.length_take, List.length_drop]
    omega
  refine ⟨?_, by rw [hlen]; omega, by omega⟩
  have hdrop := hp.holds.drop (inner.start - slice.start) (by omega)
  have haddr : (slice.start : Int) + ((inner.start - slice.start : Nat) : Int) = inner.start := by omega
  rw [haddr, ← List.take_append_drop (inner.endAddr - inner.start) (bs.drop _), Mem.holds_append] at hdrop
  exact hdrop.1

/-- The slice of an embedded message that `Init` accepts lies in the slice of its value. -/
theorem embeddedSlice_in (hp : Placed mem slice bs) (hv : SliceIn v.encoded slice) (hprim : v.primitive ≤ 11)
    (h : (newMessage dn).init pool junk mem (embeddedSlice v) = some (true, m)) :
    SliceIn (embeddedSlice v) v.encoded := by
  obtain ⟨h₁, h₂, h₃⟩ := hv
  have hroom := hp.room
  have hstart : (embeddedSlice v).start = v.encoded.start + v.primitive := by
    show toSize _ = _
    rw [toSize_of_range (by omega) (by omega)]
    omega
  obtain ⟨fields, hparse, -⟩ := init_inv h
  exact ⟨by rw [hstart]; exact Nat.le_add_right _ _, (parseMessageLazy_loop hparse).1, le_refl _⟩

theorem DeepBounded.mono {inner : Slice} (hin : SliceIn inner slice) (h : DeepBounded pool junk mem n inner m) :
    DeepBounded pool junk mem n slice m := by
  have hb : Bounded inner m → Bounded slice m := fun hb f hf v hv => (hb f hf v hv).trans hin
  cases n with
  | zero => exact hb h
  | succ n => exact ⟨hb h.1, h.2⟩

/-- One level: what the parse itself stores. -/
theorem init_safe (hp : Placed mem slice bs) (hwhole : Reached VarintWhole junk mem (pool dn) slice)
    (hfit : Reached LengthFits junk mem (pool dn) slice)
    (h : (newMessage dn).init pool junk mem slice = some (true, m)) :
    (∀ f ∈ m.fields, FieldSafe (pool dn) slice f) ∧ Bounded slice m := by
  obtain ⟨fields, hparse, rfl⟩ := init_inv h
  have hsafe := fields_safe hp hwhole hfit hparse
  exact ⟨fun f hf => hsafe f (mem_splitUnknown (List.mem_append_left _ hf)),
    fun f hf => (hsafe f (mem_splitUnknown hf)).inside⟩

/-- **Whole varints and fitting lengths keep every slice inside**, at every depth. -/
theorem deepBounded_of_reached (hp : Placed mem slice bs) (hwhole : DeepReached VarintWhole pool junk mem n dn slice)
    (hfit : DeepReached LengthFits pool junk mem n dn slice)
    (h : (newMessage dn).init pool junk mem slice = some (true, m)) : DeepBounded pool junk mem n slice m := by
  induction n generalizing slice bs dn m with
  | zero => exact (init_safe hp (hwhole m h) (hfit m h) h).2
  | succ n ih =>
      obtain ⟨hw, hwr⟩ := hwhole m h
      obtain ⟨hl, hlr⟩ := hfit m h
      obtain ⟨hsafe, hbound⟩ := init_safe hp hw hl h
      refine ⟨hbound, fun f hf fd hfd hty v hv m' hinit => ?_⟩
      have hsub := embeddedSlice_in hp ((hsafe f hf).inside v hv) (((hsafe f hf).message fd hfd hty).2 v hv) hinit
      have hplaced := hp.sub (hsub.trans ((hsafe f hf).inside v hv))
      exact (ih hplaced (hwr f hf fd hfd hty v hv) (hlr f hf fd hfd hty v hv) hinit).mono hsub

/-! ## A varint that is cut off leaves the slice -/

theorem LengthFits.not_wraps {start pos : Nat} (h : LengthFits d start bs pos) : ¬ Wraps start bs pos := by
  rintro ⟨hw, h₁, h₂⟩
  have hdel := h.delimited hw
  have ht := (varintLen_le (bs.drop pos)).1
  simp only at hdel
  omega

/-- The state of a loop whose lengths fit: near the string, with an ordered map. -/
theorem reached_near (hp : Placed mem slice bs) (hfit : Reached LengthFits junk mem d slice) {its : List Unit}
    {s : ParserState × FieldMap} (hrun : Run (Iter junk mem d) (startState junk slice, []) its s) :
    s.1.slice = slice ∧ s.1.pos ≤ bs.length + 2 ∧ Sorted s.2 := by
  have hinv := Run.invariantTrace
    (I := fun its s => Run (Iter junk mem d) (startState junk slice, []) its s ∧ s.1.slice = slice ∧
      s.1.pos ≤ bs.length + 2 ∧ Sorted s.2)
    (fun its s u s' hI hit => by
      obtain ⟨hreach, hs, hposle, hsorted⟩ := hI
      obtain ⟨hlt, hrec, hfill⟩ := parseStep_some hit
      have hpos := (hp.cur_lt_iff hs (by omega)).mp hlt
      have hrl := hfit its s hreach hlt
      rw [hp.sliceBytes_eq] at hrl
      obtain ⟨-, hpos', hs'⟩ := (hp.parseRecord_ok hs hpos hrec).progress hp hpos hrl.not_wraps
      exact ⟨Run.tail hreach hit, hs'.trans hs, hpos', fillField_sorted hsorted hfill⟩) hrun
    ⟨Run.refl, rfl, Nat.zero_le _, List.Pairwise.nil⟩
  exact hinv.2

/-- If the values of a successful parse do not end past the slice, no varint it met was cut off. -/
theorem reached_whole (hp : Placed mem slice bs) (hfit : Reached LengthFits junk mem (pool dn) slice)
    (h : (newMessage dn).init pool junk mem slice = some (true, m)) {outer : Slice}
    (houter : outer.endAddr = slice.endAddr) (hb : Bounded outer m) :
    Reached VarintWhole junk mem (pool dn) slice := by
  intro its s hrun hlt hw
  obtain ⟨hs, hposle, hsorted⟩ := reached_near hp hfit hrun
  have hpos := (hp.cur_lt_iff hs (by omega)).mp hlt
  have hend := hp.endAddr
  rw [hp.sliceBytes_eq] at hw ⊢
  by_contra hcut
  -- the loop goes on with this record, and stops right after it
  obtain ⟨fields, hparse, rfl⟩ := init_inv h
  obtain ⟨n, hn⟩ := parseLoop_along hrun (parseMessageLazy_loop hparse).2
  rcases parseLoop_ok_inv hn with ⟨hstop, -⟩ | ⟨k, ⟨st', fields'⟩, -, hstep, hloop⟩
  · exact hstop hlt
  obtain ⟨-, hrec, hfill⟩ := parseStep_some hstep
  obtain ⟨hs', hposle', hsorted'⟩ := reached_near hp hfit (Run.tail (a := ()) hrun hstep)
  simp only at hrec hfill hs' hposle' hsorted'
  have hcase := hp.parseRecord_ok hs hpos hrec
  obtain ⟨hpos', hv⟩ : bs.length < st'.pos ∧ slice.endAddr < st'.v.encoded.endAddr := by
    cases hcase with
    | varint w pos hpos₁ =>
        subst hpos₁
        simp only [not_le] at hcut
        refine ⟨hcut, ?_⟩
        show slice.endAddr < slice.start + _
        omega
    | delimited w pos e hpos₁ he hle => exact absurd (hw.symm.trans w) (by decide)
    | fixed w hw' hcase pos hpos₁ hle =>
        obtain rfl := Option.some.inj (hw.symm.trans hw')
        rcases hcase with hcase | hcase <;> cases hcase
  have hstop : ¬ st'.cur < st'.slice.endAddr := by
    rw [hp.cur_lt_iff hs' (by omega)]
    omega
  simp only [parseLoop_stop hstop] at hloop
  obtain rfl := (Prod.mk.inj (Option.some.inj hloop)).2
  -- its value is in the message, whichever map it went to
  obtain ⟨f, hf, v, hvmem, henc⟩ := fillField_stores hfill
  obtain ⟨hk, hu, -⟩ := splitUnknown_eq hsorted' dn
  have hfm : f ∈ (splitUnknown ⟨dn, fields', none⟩).fields ++ (splitUnknown ⟨dn, fields', none⟩).unknownFields.getD [] := by
    rw [hk, hu, List.mem_append, List.mem_filter, List.mem_filter]
    cases f.unknown <;> simp [hf]
  have hle := (hb f hfm v hvmem).2.2
  rw [henc, houter] at hle
  omega

theorem deepReached_whole (hp : Placed mem slice bs) (hfit : ∀ n, DeepReached LengthFits pool junk mem n dn slice)
    {outer : Slice} (houter : outer.endAddr = slice.endAddr)
    (h : ∀ m, (newMessage dn).init pool junk mem slice = some (true, m) → ∀ n, DeepBounded pool junk mem n outer m)
    (n : Nat) : DeepReached VarintWhole pool junk mem n dn slice := by
  have hlevel : ∀ m, (newMessage dn).init pool junk mem slice = some (true, m) →
      Reached VarintWhole junk mem (pool dn) slice := fun m hinit =>
    reached_whole hp (hfit 0 m hinit) hinit houter (h m hinit 0)
  induction n generalizing slice bs dn outer with
  | zero => exact hlevel
  | succ n ih =>
      intro m hinit
      refine ⟨hlevel m hinit, fun f hf fd hfd hty v hv => ?_⟩
      obtain ⟨hsafe, -⟩ := init_safe hp (hlevel m hinit) (hfit 0 m hinit) hinit
      have hemb : ∀ m', (newMessage fd.messageType).init pool junk mem (embeddedSlice v) = some (true, m') →
          DeepReached VarintWhole pool junk mem n fd.messageType (embeddedSlice v) := by
        intro m' hinit'
        have hin := (hsafe f hf).inside v hv
        have hsub := embeddedSlice_in hp hin (((hsafe f hf).message fd hfd hty).2 v hv) hinit'
        have hplaced := hp.sub (hsub.trans hin)
        have hfit' : ∀ n, DeepReached LengthFits pool junk mem n fd.messageType (embeddedSlice v) :=
          fun n => (hfit (n + 1) m hinit).2 f hf fd hfd hty v hv
        have hdeep : ∀ m', (newMessage fd.messageType).init pool junk mem (embeddedSlice v) = some (true, m') →
            ∀ n, DeepBounded pool junk mem n v.encoded m' :=
          fun m' hinit' n => (h m hinit (n + 1)).2 f hf fd hfd hty v hv m' hinit'
        have hsame : v.encoded.endAddr = (embeddedSlice v).endAddr := rfl
        exact ih hplaced hfit' hsame hdeep fun m₁ hinit₁ =>
          reached_whole hplaced (hfit' 0 m₁ hinit₁) hinit₁ hsame (hdeep m₁ hinit₁ 0)
      cases n with
      | zero => exact fun m' hinit' => hemb m' hinit' m' hinit'
      | succ n => exact fun m' hinit' => hemb m' hinit' m' hinit'

/-- **Exactly the cut-off varints leave their slice**, as long as lengths fit: the values of a successful parse,
    and of the embedded messages decoded from it, lie in their slices if and only if no varint value met on the
    way is cut off by the end. -/
theorem boundsSpec_iff (hp : Placed mem slice bs) (hfit : ∀ n, DeepReached LengthFits pool junk mem n dn slice) :
    BoundsSpec pool junk mem dn slice ↔ ∀ n, DeepReached VarintWhole pool junk mem n dn slice := by
  constructor
  · exact fun h n => deepReached_whole hp hfit rfl h n
  · exact fun h m hinit n => deepBounded_of_reached hp (h n) (hfit n) hinit

/-- **One byte, a tag without its varint**: the value's slice ends one past the end of the string. -/
theorem not_boundsSpec_cut : Placed (memAt [0x08]) ⟨4096, 4097⟩ [0x08] ∧
    ¬ BoundsSpec (fun _ => emptyDescriptor) zeroJunk (memAt [0x08]) 0 ⟨4096, 4097⟩ := by
  refine ⟨⟨Mem.holds_iff_read.mpr (by decide +kernel), rfl, by decide⟩, fun hspec => ?_⟩
  have hval : ((newMessage 0).init (fun _ => emptyDescriptor) zeroJunk (memAt [0x08]) ⟨4096, 4097⟩).map
      (fun r => (r.1, (r.2.fields ++ r.2.unknownFields.getD []).map fun f => f.values.map Value.encoded)) =
      some (true, [[⟨4097, 4098⟩]]) := by decide +kernel
  obtain ⟨⟨ok, m⟩, hinit, hres⟩ := Option.map_eq_some_iff.mp hval
  obtain ⟨rfl, hslices⟩ := Prod.mk.inj hres
  have hb : Bounded ⟨4096, 4097⟩ m := hspec m hinit 0
  have hall : ∀ vs ∈ (m.fields ++ m.unknownFields.getD []).map (fun f => f.values.map Value.encoded), ∀ e ∈ vs,
      SliceIn e ⟨4096, 4097⟩ := by
    intro vs hvs e he
    obtain ⟨f, hf, rfl⟩ := List.mem_map.mp hvs
    obtain ⟨v, hv, rfl⟩ := List.mem_map.mp he
    exact hb f hf v hv
  rw [hslices] at hall
  have hin := hall _ (List.mem_singleton_self _) _ (List.mem_singleton_self _)
  exact absurd hin.2.2 (by decide)

/-! ## Running the conditions -/

/-- `p` of every state that the loop tests its condition in and finds it true, for at most `fuel` iterations. -/
def loopMeets (p : Nat → Bool) (junk : Junk) (mem : Mem) (d : Descriptor) : Nat → ParserState × FieldMap → Bool
  | 0, _ => false
  | fuel + 1, s => !decide (s.1.cur < s.1.slice.endAddr) ||
      p s.1.pos && (parseStep junk mem d s).all (loopMeets p junk mem d fuel)

theorem loopMeets_sound {p : Nat → Bool} {fuel : Nat} {s s' : ParserState × FieldMap} {its : List Unit}
    (h : loopMeets p junk mem d fuel s = true) (hrun : Run (Iter junk mem d) s its s')
    (hlt : s'.1.cur < s'.1.slice.endAddr) : p s'.1.pos = true := by
  induction fuel generalizing s its with
  | zero => cases h
  | succ fuel ih =>
      simp only [loopMeets, Bool.or_eq_true, Bool.not_eq_true', decide_eq_false_iff_not, Bool.and_eq_true] at h
      rcases hrun.head_cases with ⟨-, rfl⟩ | ⟨t, _, its', -, hfirst, hrest⟩
      · exact (h.resolve_left (not_not.mpr hlt)).1
      · have hall := (h.resolve_left (not_not.mpr (parseStep_some hfirst).1)).2
        rw [show parseStep junk mem d s = some t from hfirst] at hall
        exact ih hall hrest

theorem reached_of_loopMeets {P : Descriptor → Nat → List UInt8 → Nat → Prop} (fuel : Nat)
    [∀ pos, Decidable (P d slice.start (sliceBytes mem slice) pos)]
    (h : loopMeets (fun pos => decide (P d slice.start (sliceBytes mem slice) pos)) junk mem d fuel
      (startState junk slice, []) = true) :
    Reached P junk mem d slice :=
  fun _ _ hrun hlt => of_decide_eq_true (loopMeets_sound h hrun hlt)

/-- `P` holds at every depth when it holds in the message and, at every depth, in those embedded in it. -/
theorem deepReached_of_embedded {P : Descriptor → Nat → List UInt8 → Nat → Prop} {pool : Pool} {dn : Nat}
    (hreached : Reached P junk mem (pool dn) slice)
    (hembedded : ∀ m, (newMessage dn).init pool junk mem slice = some (true, m) → ∀ f ∈ m.fields, ∀ fd,
      f.fieldDescriptor = some fd → ∀ v ∈ f.values, ∀ n, DeepReached P pool junk mem n fd.messageType (embeddedSlice v))
    (n : Nat) : DeepReached P pool junk mem n dn slice := by
  cases n with
  | zero => exact fun _ _ => hreached
  | succ n => exact fun m hm => ⟨hreached, fun f hf fd hfd _ v hv => hembedded m hm f hf fd hfd v hv n⟩

def embeddedField : FieldDescriptor :=
  ⟨"a", 1, .message, .optional, false, 1, 0, 0, [], firstNumber_pos, firstNumber_lt, unpacked_repeated⟩

def outerDescriptor : Descriptor := ⟨[embeddedField], by decide, by decide⟩

/-- Type 0 has a field of type 1, which has none. -/
def nestedPool : Pool := fun i => if i = 0 then outerDescriptor else emptyDescriptor

/-- `1 = { 1 = 150 }` and `2 = 1`. -/
def nestedBytes : List UInt8 := [0x0a, 0x03, 0x08, 0x96, 0x01, 0x10, 0x01]

theorem deepReached_nestedBytes {P : Descriptor → Nat → List UInt8 → Nat → Prop}
    (houter : Reached P zeroJunk (memAt nestedBytes) outerDescriptor ⟨4096, 4103⟩)
    (hinner : Reached P zeroJunk (memAt nestedBytes) emptyDescriptor ⟨4098, 4101⟩) (n : Nat) :
    DeepReached P nestedPool zeroJunk (memAt nestedBytes) n 0 ⟨4096, 4103⟩ := by
  refine deepReached_of_embedded houter (fun m hm f hf fd hfd v hv => ?_) n
  have hfields : ((newMessage 0).init nestedPool zeroJunk (memAt nestedBytes) ⟨4096, 4103⟩).map (fun r =>
      r.2.fields.map fun f => (f.fieldDescriptor.map FieldDescriptor.messageType, f.values.map embeddedSlice)) =
      some [(some 1, [⟨4098, 4101⟩])] := by decide +kernel
  rw [hm] at hfields
  have hf' := List.mem_map_of_mem (f := fun f : Field =>
    (f.fieldDescriptor.map FieldDescriptor.messageType, f.values.map embeddedSlice)) hf
  rw [show m.fields.map _ = _ from Option.some.inj hfields, List.mem_singleton, Prod.mk.injEq, hfd] at hf'
  have hv' := List.mem_map_of_mem (f := embeddedSlice) hv
  rw [hf'.2, List.mem_singleton] at hv'
  rw [show fd.messageType = 1 from Option.some.inj hf'.1, hv']
  refine deepReached_of_embedded hinner fun m' hm' f' hf' => ?_
  have hnone : ((newMessage 1).init nestedPool zeroJunk (memAt nestedBytes) ⟨4098, 4101⟩).map (fun r =>
      r.2.fields.length) = some 0 := by decide +kernel
  rw [hm'] at hnone
  rw [List.length_eq_zero_iff.mp (Option.some.inj hnone)] at hf'
  cases hf'

/-- An embedded message and a varint behind it. -/
theorem boundsSpec_nested : BoundsSpec nestedPool zeroJunk (memAt nestedBytes) 0 ⟨4096, 4103⟩ := by
  have hp : Placed (memAt nestedBytes) ⟨4096, 4103⟩ nestedBytes :=
    ⟨Mem.holds_iff_read.mpr (by decide +kernel), rfl, by decide⟩
  refine (boundsSpec_iff hp (deepReached_nestedBytes ?_ ?_)).mpr (deepReached_nestedBytes ?_ ?_)
  · exact reached_of_loopMeets 3 (by decide +kernel)
  · exact reached_of_loopMeets 3 (by decide +kernel)
  · exact reached_of_loopMeets 3 (by decide +kernel)
  · exact reached_of_loopMeets 3 (by decide +kernel)

end CompactProtobuf
end Snippets
