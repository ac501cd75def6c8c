import Snippets.EventLoop.Mirror

/-!
# `EventLoop.Timing` — how long the loop waits, and how much it asks for

Of `Run`'s locals only `idle` says something about the past: how many polls in a row have come back empty. From that the
next timeout follows. `events_` only grows, and never beyond twice what a poll has returned. Neither depends on the
program's keeping the rules.
-/

namespace Snippets
namespace EventLoop

open Lib

variable {s s' : State} {opened : Fd → Bool} {as : List Action}

/-- Every step that has a result. -/
def AnyStep (s : State) (a : Action) (s' : State) : Prop := s.step a = some s'

/-- How many polls in a row have come back empty, after one more action. -/
def Action.countEmpty (n : Nat) : Action → Nat
  | .poll [] => n + 1
  | .poll (_ :: _) => 0
  | _ => n

/-- How many polls have come back empty since the last one that did not. -/
def emptyPolls (as : List Action) : Nat := as.foldl (fun n a => a.countEmpty n) 0

/-- The count after one more action. -/
@[simp] theorem emptyPolls_append (as : List Action) (a : Action) :
    emptyPolls (as ++ [a]) = a.countEmpty (emptyPolls as) := by
  simp [emptyPolls]

/-- Filling in what the poll has reported changes no local of `Run`. -/
theorem fillActiveChannels_frame {ready : List (Fd × Mask)} {active : List ChannelId}
    (h : s.fillActiveChannels ready = some (s', active)) : Frame s s' ∧ active.length = ready.length := by
  induction ready generalizing s active with
  | nil =>
      obtain ⟨rfl, rfl⟩ := Prod.mk.inj (Option.some.inj h)
      exact ⟨Frame.refl s, rfl⟩
  | cons r ready ih =>
      obtain ⟨fd, revents⟩ := r
      simp only [State.fillActiveChannels, Option.bind_eq_bind, Option.bind_eq_some_iff] at h
      obtain ⟨c, -, ch, -, ⟨s₁, rest⟩, hrest, h⟩ := h
      obtain ⟨rfl, rfl⟩ := Prod.mk.inj (Option.some.inj h)
      obtain ⟨hframe, hlength⟩ := ih hrest
      exact ⟨⟨hframe.pc, hframe.eventsSize, hframe.idle⟩, by simp [hlength]⟩

/-- What `Poll` does to the loop. -/
theorem poll_cases {ready : List (Fd × Mask)} (h : s.poll ready = some s') :
    s'.idle = s.idle ∧ (∃ rest, s'.pc = .handling rest ready.length) ∧
      s'.poller.eventsSize = if ready.length = s.poller.eventsSize then s.poller.eventsSize * 2 else s.poller.eventsSize := by
  simp only [State.poll, Option.bind_eq_bind, Option.bind_eq_some_iff] at h
  obtain ⟨⟨s₁, active⟩, hfill, h⟩ := h
  obtain rfl := Option.some.inj h
  obtain ⟨hframe, hlength⟩ := fillActiveChannels_frame hfill
  exact ⟨hframe.idle, ⟨_, by rw [← hlength]⟩, by simp [hframe.eventsSize]⟩

/-- What the end of an iteration does to the loop. -/
theorem finish_cases {size : Nat} {cmds : List Command} (h : s.finish size cmds = some s') :
    s'.idle = (if size = 0 then (s.idle + 1) % 2 ^ 32 else 0) ∧ s'.pc = .testing ∧
      s'.timeout = (if 100 ≤ s'.idle then s'.idleTime else s'.waitTime) ∧ s'.poller.eventsSize = s.poller.eventsSize := by
  simp only [State.finish, Option.bind_eq_bind, Option.bind_eq_some_iff] at h
  obtain ⟨s₁, hexec, h⟩ := h
  obtain rfl := Option.some.inj h
  have hframe := frame_execAll hexec
  exact ⟨hframe.idle, rfl, rfl, hframe.eventsSize⟩

/-- **What one step does** to the place in `Run`, to `idle`, `timeout` and the size of `events_`. -/
theorem step_cases {a : Action} (h : AnyStep s a s') :
    (∃ cmds, a = .setup cmds ∧ s.pc = .outside ∧ s'.pc = .outside ∧ s'.idle = s.idle ∧
      s'.poller.eventsSize = s.poller.eventsSize) ∨
    (a = .run ∧ s.pc = .outside ∧ s'.pc = .testing ∧ s'.idle = 0 ∧ s'.timeout = s'.waitTime ∧
      s'.poller.eventsSize = s.poller.eventsSize) ∨
    (∃ ready rest, a = .poll ready ∧ s.pc = .testing ∧ s'.pc = .handling rest ready.length ∧ s'.idle = s.idle ∧
      s'.poller.eventsSize = if ready.length = s.poller.eventsSize then s.poller.eventsSize * 2 else s.poller.eventsSize) ∨
    (∃ cmds c rest size, a = .handle cmds ∧ s.pc = .handling (c :: rest) size ∧ s'.pc = .handling rest size ∧
      s'.idle = s.idle ∧ s'.poller.eventsSize = s.poller.eventsSize) ∨
    (∃ cmds size, a = .finish cmds ∧ s.pc = .handling [] size ∧ s'.pc = .testing ∧
      s'.idle = (if size = 0 then (s.idle + 1) % 2 ^ 32 else 0) ∧
      s'.timeout = (if 100 ≤ s'.idle then s'.idleTime else s'.waitTime) ∧
      s'.poller.eventsSize = s.poller.eventsSize) ∨
    (a = .leave ∧ s'.pc = .returned ∧ s'.poller.eventsSize = s.poller.eventsSize) := by
  cases a with
  | setup cmds =>
      simp only [AnyStep, State.step, Option.ite_none_right_eq_some] at h
      have hframe := frame_execAll h.2
      exact Or.inl ⟨cmds, rfl, h.1, hframe.pc.trans h.1, hframe.idle, hframe.eventsSize⟩
  | run =>
      simp only [AnyStep, State.step, Option.ite_none_right_eq_some] at h
      obtain ⟨hpc, h⟩ := h
      obtain rfl := Option.some.inj h
      exact Or.inr (Or.inl ⟨rfl, hpc, rfl, rfl, rfl, rfl⟩)
  | poll ready =>
      simp only [AnyStep, State.step, Option.ite_none_right_eq_some] at h
      obtain ⟨hidle, ⟨rest, hpc'⟩, hsize⟩ := poll_cases h.2
      exact Or.inr (Or.inr (Or.inl ⟨ready, rest, rfl, h.1.1, hpc', hidle, hsize⟩))
  | handle cmds =>
      simp only [AnyStep, State.step] at h
      split at h
      · next c stage rest size hpc =>
          split at h
          · cases h
          · have hframe := frame_execAll h
            exact Or.inr (Or.inr (Or.inr (Or.inl
              ⟨cmds, (c, stage), rest, size, rfl, hpc, hframe.pc, hframe.idle, hframe.eventsSize⟩)))
      · cases h
  | finish cmds =>
      simp only [AnyStep, State.step] at h
      split at h
      · next size hpc =>
          obtain ⟨hidle, hpc', htimeout, hsize⟩ := finish_cases h
          exact Or.inr (Or.inr (Or.inr (Or.inr (Or.inl ⟨cmds, size, rfl, hpc, hpc', hidle, htimeout, hsize⟩))))
      · cases h
  | leave =>
      simp only [AnyStep, State.step, Option.ite_none_right_eq_some] at h
      obtain rfl := Option.some.inj h.2
      exact Or.inr (Or.inr (Or.inr (Or.inr (Or.inr ⟨rfl, rfl, rfl⟩))))

/-- What `idle` and `timeout` say, at each point of `Run`. -/
def Counts (as : List Action) (s : State) : Prop :=
  match s.pc with
  | .outside => s.idle = 0 ∧ emptyPolls as = 0
  | .testing => s.idle = emptyPolls as % 2 ^ 32 ∧ s.timeout = if 100 ≤ s.idle then s.idleTime else s.waitTime
  | .handling _ size => (if size = 0 then (s.idle + 1) % 2 ^ 32 else 0) = emptyPolls as % 2 ^ 32
  | .returned => True

/-- A step keeps the count. -/
theorem counts_step {a : Action} (h : Counts as s) (hstep : AnyStep s a s') : Counts (as ++ [a]) s' := by
  obtain ⟨cmds, rfl, hpc, hpc', hidle, -⟩ | ⟨rfl, hpc, hpc', hidle, htimeout, -⟩ | ⟨ready, rest, rfl, hpc, hpc', hidle, -⟩ |
    ⟨cmds, c, rest, size, rfl, hpc, hpc', hidle, -⟩ | ⟨cmds, size, rfl, hpc, hpc', hidle, htimeout, -⟩ | ⟨rfl, hpc', -⟩ :=
    step_cases hstep
  · simp only [Counts, hpc] at h
    simp only [Counts, hpc', hidle, emptyPolls_append, Action.countEmpty]
    exact h
  · simp only [Counts, hpc] at h
    simp [Counts, hpc', hidle, htimeout, Action.countEmpty, h.2]
  · simp only [Counts, hpc] at h
    simp only [Counts, hpc', hidle, emptyPolls_append, h.1]
    cases ready with
    | nil => simp [Action.countEmpty]
    | cons r ready => simp [Action.countEmpty]
  · simp only [Counts, hpc] at h
    simp only [Counts, hpc', hidle, emptyPolls_append, Action.countEmpty]
    exact h
  · simp only [Counts, hpc] at h
    simp only [Counts, hpc', emptyPolls_append, Action.countEmpty]
    exact ⟨hidle.trans h, htimeout⟩
  · simp [Counts, hpc']

/-! ## The buffer

`events_` doubles when a poll has filled it, and only then. -/

/-- `events_` has been doubled a number of times, each time because a poll had filled it. -/
structure Sized (as : List Action) (s : State) : Prop where
  doubled : ∃ j, s.poller.eventsSize = 20 * 2 ^ j
  bounded : ∀ n, (∀ ready, .poll ready ∈ as → ready.length ≤ n) → s.poller.eventsSize ≤ max 20 (2 * n)

/-- A step that leaves the buffer as it is. -/
theorem Sized.same {a : Action} (h : Sized as s) (heq : s'.poller.eventsSize = s.poller.eventsSize) :
    Sized (as ++ [a]) s' := by
  refine ⟨by rw [heq]; exact h.doubled, fun n hn => ?_⟩
  rw [heq]
  exact h.bounded n fun ready hready => hn ready (List.mem_append_left _ hready)

/-- A step keeps the bound. -/
theorem sized_step {a : Action} (h : Sized as s) (hstep : AnyStep s a s') : Sized (as ++ [a]) s' := by
  obtain ⟨cmds, rfl, -, -, -, hsize⟩ | ⟨rfl, -, -, -, -, hsize⟩ | ⟨ready, rest, rfl, -, -, -, hsize⟩ |
    ⟨cmds, c, rest, size, rfl, -, -, -, hsize⟩ | ⟨cmds, size, rfl, -, -, -, -, hsize⟩ | ⟨rfl, -, hsize⟩ := step_cases hstep
  · exact h.same hsize
  · exact h.same hsize
  · by_cases hfull : ready.length = s.poller.eventsSize
    · rw [if_pos hfull] at hsize
      obtain ⟨j, hj⟩ := h.doubled
      refine ⟨⟨j + 1, by rw [hsize, hj, Nat.pow_succ, Nat.mul_assoc]⟩, fun n hn => ?_⟩
      have hle : ready.length ≤ n := hn ready (by simp)
      rw [hsize]
      omega
    · rw [if_neg hfull] at hsize
      exact h.same hsize
  · exact h.same hsize
  · exact h.same hsize
  · exact h.same hsize

/-- **The locals of `Run`, in every run.** Before each poll the timeout is the idle time exactly when, counted modulo
    `2 ^ 32`, the last hundred polls or more have come back empty; and `events_` is twenty entries doubled a number of
    times, but beyond the first twenty never more than twice what some poll has returned. -/
theorem run_locals (hrun : Run AnyStep (init opened) as s) :
    (s.pc = .testing → s.timeout = if 100 ≤ emptyPolls as % 2 ^ 32 then s.idleTime else s.waitTime) ∧
      (∃ j, s.poller.eventsSize = 20 * 2 ^ j) ∧
      ∀ n, (∀ ready, .poll ready ∈ as → ready.length ≤ n) → s.poller.eventsSize ≤ max 20 (2 * n) := by
  have hcounts : Counts as s :=
    Run.invariantTrace (I := Counts) (fun _ _ _ _ h hstep => counts_step h hstep) hrun ⟨rfl, rfl⟩
  have hsized : Sized as s :=
    Run.invariantTrace (I := Sized) (fun _ _ _ _ h hstep => sized_step h hstep) hrun
      ⟨⟨0, rfl⟩, fun n _ => Nat.le_max_left 20 (2 * n)⟩
  refine ⟨fun hpc => ?_, hsized.doubled, hsized.bounded⟩
  simp only [Counts, hpc] at hcounts
  rw [hcounts.2, hcounts.1]

/-- A first poll that comes back empty. -/
theorem run_locals_empty : ∃ s, Run AnyStep (init fun _ => false) [.run, .poll [], .finish []] s ∧ s.timeout = 20 := by
  let s₁ : State := { init (fun _ => false) with pc := .testing }
  let s₂ : State := { s₁ with iteration := 1, pc := .handling [] 0 }
  let s₃ : State := { s₂ with idle := 1, pc := .testing }
  have h₁ : AnyStep (init fun _ => false) .run s₁ := rfl
  have h₂ : AnyStep s₁ (.poll []) s₂ := rfl
  have h₃ : AnyStep s₂ (.finish []) s₃ := rfl
  have hrun : Run AnyStep (init fun _ => false) [.run, .poll [], .finish []] s₃ :=
    ((Run.single h₁).trans (Run.single h₂)).trans (Run.single h₃)
  exact ⟨s₃, hrun, (run_locals hrun).1 rfl⟩

end EventLoop
end Snippets
