import Snippets.Lib.Run
import Snippets.CompactProtobuf.Records

/-!
# `CompactProtobuf.Progress` — when the parse loop makes progress

Every iteration of the loop of `ParseMessageLazy` that ends with `kOk` should move `pos` forward, so that the loop
ends after at most one iteration per byte. It does, unless the length of a length-delimited record makes the 64-bit
end of the record wrap around (`Wraps`): `ParseLengthDelimitedLazy` compares the wrapped sum with the end of the
slice and accepts it.
-/

namespace Snippets

open Lib

namespace CompactProtobuf

/-- One iteration of the loop of `ParseMessageLazy` that ends with `kOk`. -/
def Iter (junk : Junk) (mem : Mem) (d : Descriptor) (s : ParserState × FieldMap) (_ : Unit)
    (s' : ParserState × FieldMap) : Prop := parseStep junk mem d s = some s'

/-- The record at `pos` is length-delimited and its end wraps around: together with its tag it is no longer than
    `2^64` bytes, and it ends at `2^64` or later. -/
def Wraps (start : Nat) (bs : List UInt8) (pos : Nat) : Prop :=
  let t := varintLen (bs.drop pos)
  let l := varintLen (bs.drop (pos + t))
  let p := varintVal (bs.drop (pos + t))
  getWireType (varintVal (bs.drop pos)) = some .kLengthDelimited ∧ t + l + p ≤ 2 ^ 64 ∧
    2 ^ 64 ≤ start + pos + (t + l + p)

/-- Every iteration that ends with `kOk` moves `pos` forward, and there are at most as many as bytes. -/
def ProgressSpec (junk : Junk) (mem : Mem) (d : Descriptor) (slice : Slice) (bs : List UInt8) : Prop :=
  ∀ its s, Run (Iter junk mem d) (startState junk slice, []) its s →
    its.length ≤ bs.length ∧ ∀ s', Iter junk mem d s () s' → s.1.pos < s'.1.pos

variable {junk : Junk} {mem : Mem} {d : Descriptor} {slice : Slice} {bs : List UInt8}

/-- Inversion of one iteration. -/
theorem parseStep_some {s s' : ParserState × FieldMap} (h : parseStep junk mem d s = some s') :
    s.1.cur < s.1.slice.endAddr ∧ parseRecord mem s.1 = (.kOk, s'.1) ∧ fillField junk d s.2 s'.1 = some s'.2 := by
  unfold parseStep at h
  split at h
  next hlt =>
    split at h
    next st hrec =>
      obtain ⟨fields, hfill, rfl⟩ := Option.map_eq_some_iff.mp h
      exact ⟨hlt, hrec, hfill⟩
    next => cases h
  next => cases h

/-! ## The loop and its iterations -/

theorem parseLoop_stop {st : ParserState} {fields : FieldMap} (h : ¬ st.cur < st.slice.endAddr) (fuel : Nat) :
    parseLoop junk mem d fuel st fields = some (.kOk, fields) := by
  unfold parseLoop
  rw [if_neg h]

/-- An iteration that ends with `kOk` goes on with the loop. -/
theorem parseLoop_step {s s' : ParserState × FieldMap} (h : parseStep junk mem d s = some s') (fuel : Nat) :
    parseLoop junk mem d (fuel + 1) s.1 s.2 = parseLoop junk mem d fuel s'.1 s'.2 := by
  obtain ⟨hlt, hrec, hfill⟩ := parseStep_some h
  rw [parseLoop]
  simp only [if_pos hlt, hrec, hfill]

/-- A loop that ends with `kOk` has stopped, or goes on with an iteration that does. -/
theorem parseLoop_ok_inv {fuel : Nat} {st : ParserState} {fields fields' : FieldMap}
    (h : parseLoop junk mem d fuel st fields = some (.kOk, fields')) :
    (¬ st.cur < st.slice.endAddr ∧ fields = fields') ∨ ∃ n s', fuel = n + 1 ∧ parseStep junk mem d (st, fields) = some s' ∧
      parseLoop junk mem d n s'.1 s'.2 = some (.kOk, fields') := by
  by_cases hlt : st.cur < st.slice.endAddr
  · right
    cases fuel with
    | zero =>
        rw [parseLoop] at h
        simp only [if_pos hlt] at h
        cases h
    | succ n =>
        rw [parseLoop] at h
        simp only [if_pos hlt] at h
        rcases hrec : parseRecord mem st with ⟨status, st₁⟩
        rw [hrec] at h
        cases status with
        | kOk =>
            cases hfill : fillField junk d fields st₁ with
            | none => simp only [hfill] at h; cases h
            | some fields₁ =>
                simp only [hfill] at h
                refine ⟨n, (st₁, fields₁), rfl, ?_, h⟩
                unfold parseStep
                simp only [if_pos hlt, hrec, hfill, Option.map_some]
        | kUnknownError => cases h
        | kInvalidWireType => cases h
        | kNeedsMore => cases h
  · rw [parseLoop_stop hlt] at h
    exact Or.inl ⟨hlt, (Prod.mk.inj (Option.some.inj h)).2⟩

/-- The loop of `ParseMessageLazy` is a run of iterations. -/
theorem parseLoop_run {fuel : Nat} {st : ParserState} {fields fields' : FieldMap}
    (h : parseLoop junk mem d fuel st fields = some (.kOk, fields')) :
    ∃ its st', Run (Iter junk mem d) (st, fields) its (st', fields') := by
  induction fuel generalizing st fields with
  | zero =>
      rcases parseLoop_ok_inv h with ⟨-, rfl⟩ | ⟨n, s', hn, -⟩
      · exact ⟨[], st, Run.refl⟩
      · cases hn
  | succ fuel ih =>
      rcases parseLoop_ok_inv h with ⟨-, rfl⟩ | ⟨n, s', hn, hstep, hloop⟩
      · exact ⟨[], st, Run.refl⟩
      · cases hn
        obtain ⟨its, st', hrun⟩ := ih hloop
        exact ⟨_, st', (Run.single (a := ()) hstep).trans hrun⟩

/-- A loop that ends with `kOk` ends with `kOk` from every state it passes through. -/
theorem parseLoop_along {its : List Unit} {s s' : ParserState × FieldMap} (hrun : Run (Iter junk mem d) s its s')
    {fuel : Nat} {fields : FieldMap} (h : parseLoop junk mem d fuel s.1 s.2 = some (.kOk, fields)) :
    ∃ n, parseLoop junk mem d n s'.1 s'.2 = some (.kOk, fields) := by
  induction hrun with
  | refl => exact ⟨fuel, h⟩
  | tail _ hit ih =>
      obtain ⟨n, hn⟩ := ih
      rcases parseLoop_ok_inv hn with ⟨hstop, -⟩ | ⟨k, u, -, hstep, hloop⟩
      · exact absurd (parseStep_some hit).1 hstop
      · obtain rfl := Option.some.inj (hstep.symm.trans hit)
        exact ⟨k, hloop⟩

/-! ## Progress -/

/-- A record that does not wrap moves `pos` forward, to at most two bytes past the end. -/
theorem RecordOk.progress {st st' : ParserState} (hp : Placed mem slice bs) (h : RecordOk slice bs st st')
    (hpos : st.pos < bs.length) (hw : ¬ Wraps slice.start bs st.pos) :
    st.pos < st'.pos ∧ st'.pos ≤ bs.length + 2 ∧ st'.slice = st.slice := by
  have hend := hp.endAddr
  have hroom := hp.room
  have ht := varintLen_le (bs.drop st.pos)
  rw [List.length_drop] at ht
  cases h with
  | varint w pos hpos₁ =>
      have hl := lazyLen_le (bs.drop pos)
      rw [List.length_drop] at hl
      refine ⟨?_, ?_, rfl⟩
      · show st.pos < pos + lazyLen (bs.drop pos)
        omega
      · show pos + lazyLen (bs.drop pos) ≤ _
        omega
  | delimited w pos e hpos₁ he hle =>
      have hl := varintLen_le (bs.drop pos)
      have hv := varintVal_lt (bs.drop pos)
      have hnw : ¬ (varintLen (bs.drop st.pos) + varintLen (bs.drop pos) + varintVal (bs.drop pos) ≤ 2 ^ 64 ∧
          2 ^ 64 ≤ slice.start + st.pos +
            (varintLen (bs.drop st.pos) + varintLen (bs.drop pos) + varintVal (bs.drop pos))) := by
        rw [hpos₁]
        exact fun hc => hw ⟨w, hc⟩
      have hgoal : st.pos < toSize ((pos : Int) + varintLen (bs.drop pos) + varintVal (bs.drop pos)) ∧
          toSize ((pos : Int) + varintLen (bs.drop pos) + varintVal (bs.drop pos)) ≤ bs.length + 2 := by
        by_cases hfit : slice.start + pos + varintLen (bs.drop pos) + varintVal (bs.drop pos) < 2 ^ 64
        · -- nothing wraps: the record ends inside the slice
          rw [toSize_of_range (by omega) (by omega)] at he
          rw [toSize_of_range (by omega) (by omega)]
          omega
        · -- the record is longer than all of memory: the wrapped sum is still past the tag
          rw [toSize_of_wrap (by omega) (by omega)] at he
          rw [toSize_of_wrap (by omega) (by omega)]
          omega
      exact ⟨hgoal.1, hgoal.2, rfl⟩
  | fixed w hw' hcase pos hpos₁ hle =>
      refine ⟨?_, ?_, rfl⟩
      · show st.pos < pos + w.width
        omega
      · show pos + w.width ≤ _
        omega

/-- **The loop makes progress in every run that meets no wrapping length.** -/
theorem progress_of_not_wraps (hp : Placed mem slice bs) {its : List Unit} {s : ParserState × FieldMap}
    (hrun : Run (fun s u s' => ¬ Wraps slice.start bs s.1.pos ∧ Iter junk mem d s u s')
      (startState junk slice, []) its s) :
    its.length ≤ bs.length ∧
      ∀ s', ¬ Wraps slice.start bs s.1.pos → Iter junk mem d s () s' → s.1.pos < s'.1.pos := by
  -- one iteration, from a state whose position is near the string
  have hstep : ∀ s s' : ParserState × FieldMap, s.1.slice = slice → s.1.pos ≤ bs.length + 2 →
      ¬ Wraps slice.start bs s.1.pos → Iter junk mem d s () s' →
      s.1.pos < bs.length ∧ s.1.pos < s'.1.pos ∧ s'.1.pos ≤ bs.length + 2 ∧ s'.1.slice = slice := by
    intro s s' hs hle hw hit
    obtain ⟨hlt, hrec, -⟩ := parseStep_some hit
    have hpos := (hp.cur_lt_iff hs (by omega)).mp hlt
    obtain ⟨h₁, h₂, h₃⟩ := (hp.parseRecord_ok hs hpos hrec).progress hp hpos hw
    exact ⟨hpos, h₁, h₂, h₃.trans hs⟩
  have hinv := Run.invariantTrace
    (I := fun its s => s.1.slice = slice ∧ s.1.pos ≤ bs.length + 2 ∧ its.length ≤ s.1.pos ∧ its.length ≤ bs.length)
    (fun its s u s' hI hst => by
      obtain ⟨hs, hle, hcount, -⟩ := hI
      obtain ⟨hpos, h₁, h₂, h₃⟩ := hstep s s' hs hle hst.1 hst.2
      refine ⟨h₃, h₂, ?_, ?_⟩
      · rw [List.length_append, List.length_singleton]
        omega
      · rw [List.length_append, List.length_singleton]
        omega) hrun ⟨rfl, Nat.zero_le _, Nat.zero_le _, Nat.zero_le _⟩
  obtain ⟨hs, hle, -, hcount⟩ := hinv
  exact ⟨hcount, fun s' hw hit => (hstep s s' hs hle hw hit).2.1⟩

/-! ## A length that wraps -/

/-- Eleven bytes: field 1, length-delimited, of `2^64 - 11` bytes. -/
def wrapBytes : List UInt8 := [0x0a, 0xf5, 0xff, 0xff, 0xff, 0xff, 0xff, 0xff, 0xff, 0xff, 0x01]

/-- Memory with `bs` at address 4096. -/
def memAt (bs : List UInt8) : Mem := fun a => bs.getD (a - 4096).toNat 0

def zeroJunk : Junk := fun _ => ⟨⟨0, 0⟩, 0⟩

def emptyDescriptor : Descriptor := ⟨[], List.nodup_nil, List.nodup_nil⟩

/-- **The loop stays at position 0 for ever** on these bytes. -/
theorem not_progress_wrapBytes : Placed (memAt wrapBytes) ⟨4096, 4107⟩ wrapBytes ∧
    ¬ ProgressSpec zeroJunk (memAt wrapBytes) emptyDescriptor ⟨4096, 4107⟩ wrapBytes := by
  refine ⟨⟨Mem.holds_iff_read.mpr (by decide +kernel), rfl, by decide⟩, ?_⟩
  intro hspec
  have hpos : (parseStep zeroJunk (memAt wrapBytes) emptyDescriptor
      (startState zeroJunk ⟨4096, 4107⟩, [])).map (fun s => s.1.pos) = some 0 := by decide +kernel
  obtain ⟨s', hs', hzero⟩ := Option.map_eq_some_iff.mp hpos
  have hlt : 0 < s'.1.pos := (hspec [] _ Run.refl).2 s' hs'
  omega

/-- `1 = 1`, `2 = "ab"` and a fixed `3 = 1`. -/
def threeRecords : List UInt8 := [0x08, 0x01, 0x12, 0x02, 0x61, 0x62, 0x1d, 0x01, 0x00, 0x00, 0x00]

/-- Three iterations, to the positions 2, 6 and 11. -/
theorem progress_threeRecords : ∃ s, Run (Iter zeroJunk (memAt threeRecords) emptyDescriptor)
    (startState zeroJunk ⟨4096, 4107⟩, []) [(), (), ()] s ∧ s.1.pos = 11 ∧ [(), (), ()].length ≤ threeRecords.length := by
  have hpos : ((parseStep zeroJunk (memAt threeRecords) emptyDescriptor (startState zeroJunk ⟨4096, 4107⟩, [])).bind
      fun s₁ => (parseStep zeroJunk (memAt threeRecords) emptyDescriptor s₁).bind fun s₂ =>
        (parseStep zeroJunk (memAt threeRecords) emptyDescriptor s₂).map fun s₃ => (s₁.1.pos, s₂.1.pos, s₃.1.pos)) =
      some (2, 6, 11) := by decide +kernel
  simp only [Option.bind_eq_some_iff, Option.map_eq_some_iff, Prod.mk.injEq] at hpos
  obtain ⟨s₁, h₁, s₂, h₂, s₃, h₃, hpos₁, hpos₂, hpos₃⟩ := hpos
  have hw : ∀ pos ∈ [0, 2, 6], ¬ Wraps 4096 threeRecords pos := by
    unfold Wraps
    decide +kernel
  have hp : Placed (memAt threeRecords) ⟨4096, 4107⟩ threeRecords :=
    ⟨Mem.holds_iff_read.mpr (by decide +kernel), rfl, by decide⟩
  have hiter : ∀ s s', parseStep zeroJunk (memAt threeRecords) emptyDescriptor s = some s' → s.1.pos ∈ [0, 2, 6] →
      ¬ Wraps 4096 threeRecords s.1.pos ∧ Iter zeroJunk (memAt threeRecords) emptyDescriptor s () s' :=
    fun s s' hs hmem => ⟨hw _ hmem, hs⟩
  have hrun : Run (fun s u s' => ¬ Wraps 4096 threeRecords s.1.pos ∧
      Iter zeroJunk (memAt threeRecords) emptyDescriptor s u s') (startState zeroJunk ⟨4096, 4107⟩, []) [(), (), ()] s₃ :=
    ((Run.single (hiter _ _ h₁ (by decide))).tail (hiter _ _ h₂ (by rw [hpos₁]; decide))).tail
      (hiter _ _ h₃ (by rw [hpos₂]; decide))
  exact ⟨s₃, ((Run.single h₁).tail h₂).tail h₃, hpos₃, (progress_of_not_wraps hp hrun).1⟩

end CompactProtobuf
end Snippets
