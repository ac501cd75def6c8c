import Snippets.Lib.Widening
import Snippets.CompactProtobuf.Accessors
import Snippets.CompactProtobuf.Progress

/-!
# `CompactProtobuf.Deleted` — what `Delete` returns

A `Get` and the `Delete` for the same type reach the same value, and three of the four pairs read it alike. `GetReal` selects
the member of the union by the type of the field, and `DeleteReal` takes the `double` for a `float` too: what it returns for
one is the value only if the whole union is zero, for no other word is the widening of its own low half.
-/

namespace Snippets

open Lib

namespace CompactProtobuf

variable {env : Env} {w w' : World} {p : MessagePtr} {kind : FieldType → Bool} {name : String} {idx : Nat} {f : Field}

/-- `float` to `double` as the language converts it. -/
def Env.ieee (env : Env) : Env := { env with widen := widenFloat }

/-- The field that an accessor works on, decoded, and the index it uses. -/
def World.reached (env : Env) (w : World) (p : MessagePtr) (kind : FieldType → Bool) (name : String) (idx : Nat) :
    Option (Field × Nat) := do
  let (fd, found) ← w.lookup env p kind name
  let (_, f, idx) ← w.access env p fd (← found) idx
  return (f, idx)

/-- Where a `Get` returns a value, the `Delete` returns it too. -/
def SameReturned {β : Type} (get delete : Option (World × β)) : Prop :=
  ∀ val, get.map Prod.snd = some val → delete.map Prod.snd = some val

/-- **`Delete` returns what `Get` would have returned**, for a field that is there. -/
structure DeletesWhatGets (env : Env) (w : World) (p : MessagePtr) (name : String) (idx : Nat) : Prop where
  integer : SameReturned (w.getInteger env p name idx) (w.deleteInteger env p name idx)
  real : SameReturned (w.getReal env p name idx) (w.deleteReal env p name idx)
  string : SameReturned (w.getString env p name idx) (w.deleteString env p name idx)
  message : SameReturned (w.getMessage env p name idx) (w.deleteMessage env p name idx)

/-- No byte of the union is set, if the value at the index is a `float`. -/
def FloatIsZero (env : Env) (w : World) (p : MessagePtr) (name : String) (idx : Nat) : Prop :=
  ∀ f i v, w.reached env p FieldType.isReal name idx = some (f, i) → f.values[i]? = some v →
    f.fieldDescriptor.map FieldDescriptor.type = some .float → v.primitive % 2 ^ 64 = 0

/-! ## What a call reads -/

section Reads

variable {β : Type} {default : FieldDescriptor → Option β} {read : Field → Nat → Option β}

/-- A `Get` reads the field it reaches. -/
theorem get_returns (hhas : w.hasField env p name = true) :
    (w.get env p kind default read name idx).map Prod.snd = (w.reached env p kind name idx).bind fun r => read r.1 r.2 := by
  unfold World.get World.reached
  cases hlook : w.lookup env p kind name with
  | none => rfl
  | some r =>
      obtain ⟨fd, found⟩ := r
      cases found with
      | none =>
          -- the field is there under every kind
          obtain ⟨m, hm, hfd, rfl, -, hfound⟩ := lookup_inv hlook
          unfold World.hasField at hhas
          have hany : w.lookup env p (fun _ => true) fd.name = some (fd, m.fields.find fd.number) := lookup_eq hm hfd rfl
          rw [hany, ← hfound] at hhas
          cases hhas
      | some f =>
          cases hacc : w.access env p fd f idx with
          | none => simp [hacc]
          | some r =>
              obtain ⟨w₁, f₁, i⟩ := r
              cases hread : read f₁ i <;> simp [hacc, hread]

/-- A `Delete` reads the field it reaches, which has a value at the index. -/
theorem delete_returns :
    (w.delete env p kind read name idx).map Prod.snd =
      (w.reached env p kind name idx).bind fun r => if r.2 < r.1.values.length then read r.1 r.2 else none := by
  unfold World.delete World.reached
  cases hlook : w.lookup env p kind name with
  | none => rfl
  | some r =>
      obtain ⟨fd, found⟩ := r
      cases found with
      | none => rfl
      | some f =>
          cases hacc : w.access env p fd f idx with
          | none => simp [hacc]
          | some r =>
              obtain ⟨w₁, f₁, i⟩ := r
              cases hread : read f₁ i <;> by_cases hlt : i < f₁.values.length <;> simp [hacc, hread, hlt]

/-- A `Delete` that reads as the `Get` does, and finds nothing past the end. -/
theorem sameReturned_of_read (hhas : w.hasField env p name = true)
    (hread : ∀ f i val, read f i = some val → i < f.values.length) :
    SameReturned (w.get env p kind default read name idx) (w.delete env p kind read name idx) := by
  intro val hget
  rw [get_returns hhas] at hget
  obtain ⟨r, hreached, hval⟩ := Option.bind_eq_some_iff.mp hget
  rw [delete_returns, hreached, Option.bind_some, if_pos (hread _ _ _ hval)]
  exact hval

end Reads

theorem lt_length_of_values {β : Type} {k : Value → β} {val : β} (h : f.values[idx]?.map k = some val) : idx < f.values.length := by
  obtain ⟨v, hv, -⟩ := Option.map_eq_some_iff.mp h
  exact (List.getElem?_eq_some_iff.mp hv).1

theorem lt_length_of_integer {n : Nat} (h : retrieveIntegerValue f idx = some n) : idx < f.values.length := by
  unfold retrieveIntegerValue at h
  split at h
  next fd v _ hv => exact (List.getElem?_eq_some_iff.mp hv).1
  next => cases h

/-- `RetrieveRealValue` reads a `double` whole, and of a `float` the low half. -/
theorem retrieveRealValue_cases {x : UInt64} (h : retrieveRealValue env f idx = some x) :
    ∃ fd v, f.fieldDescriptor = some fd ∧ f.values[idx]? = some v ∧
      (fd.type = .double ∧ x = UInt64.ofNat v.primitive ∨ fd.type = .float ∧ x = env.widen (UInt32.ofNat v.f)) := by
  unfold retrieveRealValue at h
  split at h
  next fd v hfd hv =>
    refine ⟨fd, v, hfd, hv, ?_⟩
    split at h
    next htype => exact .inl ⟨htype, (Option.some.inj h).symm⟩
    next htype => exact .inr ⟨htype, (Option.some.inj h).symm⟩
    next => cases h
  next => cases h

/-- What the two read of one value agrees unless it is a `float` whose union has a byte set. -/
theorem sameReturned_real_iff (hhas : w.hasField env.ieee p name = true) :
    SameReturned (w.getReal env.ieee p name idx) (w.deleteReal env.ieee p name idx) ↔ FloatIsZero env.ieee w p name idx := by
  unfold SameReturned World.getReal World.deleteReal
  rw [get_returns hhas, delete_returns]
  constructor
  · intro hsame f i v hreached hv htype
    obtain ⟨fd, hfd, htype⟩ := Option.map_eq_some_iff.mp htype
    have hget : retrieveRealValue env.ieee f i = some (widenFloat (UInt32.ofNat v.f)) := by
      simp only [retrieveRealValue, hfd, hv, htype]
      rfl
    specialize hsame _ (by rw [hreached, Option.bind_some]; exact hget)
    rw [hreached, Option.bind_some, if_pos (List.getElem?_eq_some_iff.mp hv).1, hv] at hsame
    exact (eq_widenFloat_iff _).mp (Option.some.inj hsame)
  · intro hzero val hget
    obtain ⟨⟨f, i⟩, hreached, hval⟩ := Option.bind_eq_some_iff.mp hget
    obtain ⟨fd, v, hfd, hv, hval⟩ := retrieveRealValue_cases hval
    rw [hreached, Option.bind_some, if_pos (List.getElem?_eq_some_iff.mp hv).1, hv]
    rcases hval with ⟨-, rfl⟩ | ⟨htype, rfl⟩
    · rfl
    · have hword := hzero f i v hreached hv (by rw [hfd, Option.map_some, htype])
      exact congrArg some ((eq_widenFloat_iff _).mpr hword)

/-- **`Delete` returns what `Get` would have**, of every field that is there and at every index, exactly when the value is not
    a `float`, or a `float` in a union of zero bytes. -/
theorem deletesWhatGets_iff (env : Env) (w : World) (p : MessagePtr) (name : String) (idx : Nat)
    (hhas : w.hasField env.ieee p name = true) :
    DeletesWhatGets env.ieee w p name idx ↔ FloatIsZero env.ieee w p name idx := by
  constructor
  · intro h
    exact (sameReturned_real_iff hhas).mp h.real
  · intro hzero
    refine ⟨?_, (sameReturned_real_iff hhas).mpr hzero, ?_, ?_⟩
    · refine sameReturned_of_read hhas fun f i val hval => ?_
      obtain ⟨n, hn, -⟩ := Option.map_eq_some_iff.mp hval
      exact lt_length_of_integer hn
    · exact sameReturned_of_read hhas fun f i val hval => lt_length_of_values hval
    · exact sameReturned_of_read hhas fun f i val hval => lt_length_of_values hval

/-- A message with an `optional float f = 1`, and one with an `optional double d = 1`. -/
def realEnv : Env :=
  ⟨fun t =>
    if t = 0 then
      ⟨[⟨"f", 1, .float, .optional, false, 0, 0, 0, [], firstNumber_pos, firstNumber_lt, unpacked_repeated⟩], by decide, by decide⟩
    else ⟨[⟨"d", 1, .double, .optional, false, 0, 0, 0, [], firstNumber_pos, firstNumber_lt, unpacked_repeated⟩], by decide, by decide⟩,
    zeroJunk, fun _ => 0x3fc00000, fun _ => 0⟩

def realWorld : World := ⟨memAt [], [newMessage 0, newMessage 1]⟩

/-- A `double` of 1.5 is returned as it was. -/
theorem deletesWhatGets_double : ∃ w, realWorld.setReal realEnv.ieee 1 "d" 0 0x3ff8000000000000 = some w ∧
    DeletesWhatGets realEnv.ieee w 1 "d" 0 := by
  have hrun : ((realWorld.setReal realEnv.ieee 1 "d" 0 0x3ff8000000000000).map fun w =>
      (w.hasField realEnv.ieee 1 "d", (w.reached realEnv.ieee 1 FieldType.isReal "d" 0).map fun r =>
        r.1.fieldDescriptor.map FieldDescriptor.type)) = some (true, some (some .double)) := by decide +kernel
  obtain ⟨w, hset, hw⟩ := Option.map_eq_some_iff.mp hrun
  obtain ⟨hhas, htype⟩ := Prod.mk.inj hw
  refine ⟨w, hset, (deletesWhatGets_iff realEnv w 1 "d" 0 hhas).mpr ?_⟩
  intro f i v hreached _ hfloat
  rw [hreached, Option.map_some, hfloat] at htype
  cases htype

/-- A `float` of 1.5 comes back as the number that its four bytes and four zero bytes are for a `double`. -/
theorem not_deletesWhatGets_float : ∃ w, realWorld.setReal realEnv.ieee 0 "f" 0 0x3ff8000000000000 = some w ∧
    w.hasField realEnv.ieee 0 "f" = true ∧
    (w.getReal realEnv.ieee 0 "f" 0).map Prod.snd = some 0x3ff8000000000000 ∧
    (w.deleteReal realEnv.ieee 0 "f" 0).map Prod.snd = some 0x3fc00000 ∧ ¬ DeletesWhatGets realEnv.ieee w 0 "f" 0 := by
  have hrun : ((realWorld.setReal realEnv.ieee 0 "f" 0 0x3ff8000000000000).map fun w =>
      (w.hasField realEnv.ieee 0 "f", (w.getReal realEnv.ieee 0 "f" 0).map Prod.snd,
        (w.deleteReal realEnv.ieee 0 "f" 0).map Prod.snd)) = some (true, some 0x3ff8000000000000, some 0x3fc00000) := by
    decide +kernel
  obtain ⟨w, hset, hw⟩ := Option.map_eq_some_iff.mp hrun
  simp only [Prod.mk.injEq] at hw
  obtain ⟨hhas, hget, hdelete⟩ := hw
  refine ⟨w, hset, hhas, hget, hdelete, fun h => ?_⟩
  rw [h.real _ hget] at hdelete
  exact absurd hdelete (by decide)

end CompactProtobuf
end Snippets
