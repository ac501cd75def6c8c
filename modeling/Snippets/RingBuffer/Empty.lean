import Snippets.RingBuffer.Fifo

/-!
# `RingBuffer.Empty` — what an empty ring accepts

Nothing moves `front` and `back` to `start_` when the last message is popped, and a record is not split. An empty ring that
stands at an offset `b` therefore has two free parts, behind `b` and before it, and it accepts a message exactly when the
record fits into one of them (`push_empty_iff`). Half of the buffer always does.
-/

namespace Snippets

open Lib

namespace RingBuffer

variable {len : Nat} {rb rb' : RingBuffer} {q : List Entry}

/-- What a call adds to the number of queued messages. -/
def Call.queued : Call → Int
  | .push _ true _ => 1
  | .pop (some _) => -1
  | _ => 0

/-- The messages accepted and not yet returned. -/
def pending (calls : List Call) : Int := (calls.map Call.queued).sum

/-- An empty ring accepts every message that fits: no history that leaves nothing queued makes `Push` refuse a record that is
    shorter than the buffer. -/
def AcceptsFitting (len : Nat) : Prop :=
  ∀ mem rb₀, create len mem = some rb₀ → ∀ calls rb, Run Step rb₀ calls rb → pending calls = 0 →
    ∀ buf : List UInt8, 0 < buf.length → 4 + (buf.length : Int) < rb.length → ∃ rb' ws, rb.push buf = some (rb', true, ws)

/-- The queue after a run holds what is pending. -/
theorem pending_eq_length {calls : List Call} (h : Run (FifoStep len) [] calls q) : pending calls = q.length := by
  induction h with
  | refl => rfl
  | @tail q₁ q₂ as a _ hst ih =>
      have hsum : pending (as ++ [a]) = pending as + a.queued := by simp [pending]
      rw [hsum, ih]
      cases a with
      | push buf ok ws =>
          cases ok with
          | true =>
              obtain ⟨⟨a, rfl⟩, -⟩ := hst
              simp [Call.queued]
          | false =>
              obtain ⟨rfl, -⟩ := hst
              simp [Call.queued]
      | pop res =>
          cases res with
          | none =>
              obtain ⟨rfl, rfl⟩ := hst
              rfl
          | some r =>
              obtain ⟨e, rfl, -⟩ := hst
              simp [Call.queued]

/-- `length_` is set by the constructor. -/
theorem step_length {c : Call} (h : Step rb c rb') : rb'.length = rb.length := by
  cases c with
  | push buf ok ws =>
      cases ok with
      | true =>
          obtain ⟨-, -, ⟨-, -, rfl⟩ | ⟨-, -, rfl⟩⟩ := push_accepted h.2
          · rfl
          · rfl
      | false =>
          obtain ⟨rfl, -⟩ := push_rejected h.2
          rfl
  | pop res =>
      have hpop : rb.pop.1 = rb' := congrArg Prod.fst h
      rw [← hpop]
      unfold RingBuffer.pop readNext
      split_ifs
      · rfl
      · dsimp only
        split_ifs <;> rfl

/-- An empty queue leaves `front` and `back` at one place of the buffer. -/
theorem Rep.empty (h : Rep len rb []) : rb.front = rb.back ∧ 0 ≤ rb.back ∧ rb.back < len := by
  have hend := h.endOff
  rcases h.layout with ⟨-, hf, hla, hb⟩ | ⟨q₁, q₂, hq, hne, -⟩
  · have hfront : rb.front = rb.back := hla
    omega
  · exact absurd (List.append_eq_nil_iff.mp hq.symm).2 hne

/-- The two free parts of an empty ring. -/
theorem Rep.push_empty (hlen : len ≤ 2 ^ 31 - 4) (h : Rep len rb []) {buf : List UInt8} (hpos : 0 < buf.length)
    (hfit : 4 + (buf.length : Int) < rb.length) :
    (∃ rb' ws, rb.push buf = some (rb', true, ws)) ↔
      4 + (buf.length : Int) < rb.length - rb.back ∨ 4 + (buf.length : Int) < rb.back := by
  obtain ⟨hfront, hb, hlt⟩ := h.empty
  have hend := h.endOff
  have hl := h.length
  have htot : toInt32 (4 + (buf.length : Int)) = 4 + buf.length := toInt32_of_range (by omega) (by omega)
  constructor
  · rintro ⟨rb', ws, hp⟩
    obtain ⟨-, -, ⟨hc, -⟩ | ⟨hc, -⟩⟩ := push_accepted hp
    · have hroom := checkCanWrite_noPad hc
      omega
    · have hroom := checkCanWrite_pad hc
      omega
  · intro hroom
    -- with room in one part `CheckCanWrite` does not refuse, and then `Push` does not
    have hcheck : rb.checkCanWrite buf.length ≠ none := by
      unfold checkCanWrite
      dsimp only
      rw [htot, if_pos (by omega)]
      split_ifs
      · omega
      · exact Option.some_ne_none _
      · exact Option.some_ne_none _
    cases hp : rb.push buf with
    | none => exact absurd hp (push_ne_none rb buf)
    | some r =>
        obtain ⟨rb', ok, ws⟩ := r
        cases ok with
        | true => exact ⟨rb', ws, rfl⟩
        | false =>
            exfalso
            unfold RingBuffer.push at hp
            rw [if_neg (by omega)] at hp
            cases hnp : rb.checkCanWrite buf.length with
            | none => exact hcheck hnp
            | some np =>
                simp only [hnp] at hp
                cases hw : rb.write buf np <;> simp [hw] at hp

/-- **What an empty ring accepts**: after any calls that leave nothing queued, a message that fits into the buffer is accepted
    exactly when its record fits behind or before the place where the ring stands, so whenever it takes less than half of the
    buffer. -/
theorem push_empty_iff (hlen : len ≤ 2 ^ 31 - 4 ∨ toInt32 len ≤ 1) {mem : Mem} {rb₀ : RingBuffer}
    (hc : create len mem = some rb₀) {calls : List Call} (hrun : Run Step rb₀ calls rb) (hnone : pending calls = 0)
    {buf : List UInt8} (hpos : 0 < buf.length) (hfit : 4 + (buf.length : Int) < rb.length) :
    ((∃ rb' ws, rb.push buf = some (rb', true, ws)) ↔
      4 + (buf.length : Int) < rb.length - rb.back ∨ 4 + (buf.length : Int) < rb.back) ∧
    (2 * (4 + (buf.length : Int)) < rb.length → ∃ rb' ws, rb.push buf = some (rb', true, ws)) := by
  have hl : rb.length = toInt32 len := by
    have hkept : rb.length = rb₀.length :=
      Run.invariant (I := fun rb => rb.length = rb₀.length) (fun t a u ht hst => (step_length hst).trans ht) hrun rfl
    unfold create at hc
    split at hc <;> cases hc
    exact hkept
  rcases hlen with hlen | hlen
  · obtain ⟨q, hq, hrep⟩ := Run.simulates (rep_step hlen) hrun (rep_create hlen hc)
    have hempty : q = [] := by
      rw [pending_eq_length hq] at hnone
      exact List.eq_nil_of_length_eq_zero (by omega)
    rw [hempty] at hrep
    have hiff := hrep.push_empty hlen hpos hfit
    exact ⟨hiff, fun hhalf => hiff.mpr (by omega)⟩
  · omega

/-- A buffer of 1025 bytes. -/
def smallRing : RingBuffer := ⟨1025, 1025, ⟨0, 0, 0, 0⟩, fun _ => 0⟩

theorem create_small : create 1025 (fun _ => 0) = some smallRing := by
  have hlen : toInt32 (1025 : Nat) = 1025 := toInt32_of_range (by omega) (by omega)
  unfold create
  rw [if_pos (by omega), hlen]
  rfl

/-- A message of 600 bytes and its `Pop`. -/
theorem smallRing_run : ∃ ws r rb, Run Step smallRing [.push (List.replicate 600 0) true ws, .pop (some r)] rb ∧
    rb.length = 1025 ∧ rb.back = 604 ∧ (rb.push (List.replicate 700 0)).map (fun r => r.2.1) = some false := by
  have hrun : (smallRing.push (List.replicate 600 0)).map (fun r => (r.2.1, r.1.pop.2.isSome, r.1.pop.1.length, r.1.pop.1.back,
      (r.1.pop.1.push (List.replicate 700 0)).map fun r => r.2.1)) = some (true, true, 1025, 604, some false) := by
    decide +kernel
  obtain ⟨⟨rb₁, ok, ws⟩, hpush, hrest⟩ := Option.map_eq_some_iff.mp hrun
  simp only [Prod.mk.injEq] at hrest
  obtain ⟨rfl, hsome, hlen, hback, hrefused⟩ := hrest
  obtain ⟨r, hr⟩ := Option.isSome_iff_exists.mp hsome
  have hfirst : Step smallRing (.push (List.replicate 600 0) true ws) rb₁ := ⟨by rw [List.length_replicate]; omega, hpush⟩
  have hsecond : Step rb₁ (.pop (some r)) rb₁.pop.1 := Prod.ext rfl hr
  exact ⟨ws, r, rb₁.pop.1, (Run.single hfirst).tail hsecond, hlen, hback, hrefused⟩

/-- The offset is 604: a record of 304 bytes fits behind it. -/
theorem push_empty_behind : ∃ rb : RingBuffer, rb.back = 604 ∧ ∃ rb' ws, rb.push (List.replicate 300 0) = some (rb', true, ws) := by
  obtain ⟨ws, r, rb, hrun, hlen, hback, -⟩ := smallRing_run
  have hmsg : (List.replicate 300 (0 : UInt8)).length = 300 := List.length_replicate
  have hfit : 4 + ((List.replicate 300 (0 : UInt8)).length : Int) < rb.length := by omega
  exact ⟨rb, hback, (push_empty_iff (Or.inl (by omega)) create_small hrun rfl (by omega) hfit).1.mpr (Or.inl (by omega))⟩

/-- Nothing is queued, and a record of 704 bytes is refused. -/
theorem not_acceptsFitting : ¬ AcceptsFitting 1025 := by
  intro h
  obtain ⟨ws, r, rb, hrun, hlen, -, hrefused⟩ := smallRing_run
  have hmsg : (List.replicate 700 (0 : UInt8)).length = 700 := List.length_replicate
  obtain ⟨rb', ws', hpush⟩ := h _ _ create_small _ _ hrun rfl (List.replicate 700 0) (by omega) (by omega)
  rw [hpush] at hrefused
  cases hrefused

end RingBuffer
end Snippets
