import Snippets.Logger.Lossless

/-!
# `Logger.Shutdown` — when `Flush(true)` comes back

`Flush(true)` clears `running_`, notifies, and joins the log thread. The thread tests `running_` at the head
of its outer loop only: the inner `while (current_->Available() == kBufferSize and buffers_.empty())` goes
back to `wait_for` whatever `running_` is. So the join hangs on one state of the logger, `Asleep`, and only
there: from any other the thread is at most four steps from its end.
-/

namespace Snippets
namespace Logger

open Lib

/-- A step of the log thread. -/
def Action.byThread : Action → Bool
  | .start | .test | .swap | .output | .flush => true
  | .write _ | .stop => false

/-- Where the log thread goes next. -/
def ThreadPc.next (running : Bool) : ThreadPc → ThreadPc
  | .notStarted => .loopHead
  | .loopHead => if running then .locking else .flushing
  | .locking => .writing
  | .writing => .loopHead
  | .flushing => .done
  | .done => .done

/-- The thread's steps that remain once `running_` is false. -/
def ThreadPc.stepsLeft : ThreadPc → Nat
  | .locking => 4
  | .writing => 3
  | .notStarted => 3
  | .loopHead => 2
  | .flushing => 1
  | .done => 0

namespace AsyncLogger

variable {s t : AsyncLogger} {a : Action} {as : List Action}

/-- The condition of the inner wait, with the thread at it. -/
def Asleep (s : AsyncLogger) : Prop :=
  s.pc = .locking ∧ (s.heap s.current).available = kBufferSize ∧ s.buffers = []

theorem available_eq_iff {size : Nat} (b : FixedSizeBuffer size) : b.available = size ↔ b.data = [] := by
  have hfits := b.fits
  rw [← FixedSizeBuffer.used_eq_zero]
  simp only [FixedSizeBuffer.available, FixedSizeBuffer.used]
  omega

/-! ## What a step does to `running_` and the thread's position -/

theorem write_frame {bs : List UInt8} (h : s.write bs = .next t) : t.pc = s.pc ∧ t.running = s.running := by
  unfold AsyncLogger.write at h
  split at h
  · obtain ⟨b, -, rfl⟩ := appendCurrent_next h
    exact ⟨rfl, rfl⟩
  · obtain ⟨b, -, rfl⟩ := appendCurrent_next h
    unfold AsyncLogger.rotate
    cases s.next <;> exact ⟨rfl, rfl⟩

/-- The thread goes on to its next position, and never writes `running_`. -/
theorem thread_frame (ha : a.byThread = true) (h : Step s a t) :
    s.pc ≠ .done ∧ t.pc = s.pc.next s.running ∧ t.running = s.running := by
  cases a with
  | write bs => simp [Action.byThread] at ha
  | stop => simp [Action.byThread] at ha
  | start =>
      simp only [Step, step, AsyncLogger.start] at h
      split at h
      · rename_i hpc
        cases h
        simp [hpc, ThreadPc.next, AsyncLogger.newBuffer]
      · cases h
  | test =>
      simp only [Step, step, AsyncLogger.test] at h
      split at h
      · rename_i hpc
        by_cases hr : s.running
        · rw [if_pos hr] at h
          cases ht : s.tmp1 with
          | none => simp [ht] at h
          | some b =>
              by_cases hused : (s.heap b).used = 0
              · simp only [ht, hused, if_true] at h
                cases h
                simp [hpc, ThreadPc.next, hr]
              · simp [ht, hused] at h
        · rw [if_neg hr] at h
          cases h
          simp [hpc, ThreadPc.next, hr]
      · cases h
  | swap =>
      simp only [Step, step, AsyncLogger.swap] at h
      split at h
      · rename_i hpc
        split at h
        · cases h
        · cases h
          refine ⟨by simp [hpc], by simp [hpc, ThreadPc.next], ?_⟩
          split <;> split <;> rfl
      · cases h
  | output =>
      simp only [Step, step, AsyncLogger.output] at h
      split at h
      · rename_i hpc
        by_cases hout : s.outputSet
        · rw [if_pos hout] at h
          cases ht : s.tmp1 <;> cases hb : s.buffersToWrite <;> simp only [ht, hb] at h <;> cases h <;>
            simp [hpc, ThreadPc.next]
        · rw [if_neg hout] at h
          cases ht : s.tmp1 <;> cases hb : s.buffersToWrite <;> simp only [ht, hb] at h <;> cases h <;>
            simp [hpc, ThreadPc.next]
      · cases h
  | flush =>
      simp only [Step, step, AsyncLogger.flush] at h
      split at h
      · rename_i hpc
        split at h
        · cases h
          simp [hpc, ThreadPc.next]
        · cases h
      · cases h

/-- The callers leave the thread where it is. -/
theorem caller_frame (ha : a.byThread = false) (h : Step s a t) : t.pc = s.pc := by
  cases a with
  | write bs => exact (write_frame h).1
  | stop => cases h; rfl
  | start | test | swap | output | flush => simp [Action.byThread] at ha

/-- Nobody sets `running_` again. -/
theorem running_step (h : Step s a t) (hstopped : s.running = false) : t.running = false := by
  cases a with
  | write bs => exact (write_frame h).2.trans hstopped
  | stop => cases h; rfl
  | start | test | swap | output | flush => exact (thread_frame rfl h).2.2.trans hstopped

theorem stopped_of_mem (hrun : Run Step create as s) : .stop ∈ as → s.running = false := by
  refine Run.invariantTrace (I := fun as s => Action.stop ∈ as → s.running = false) ?_ hrun (by simp)
  intro as t a u ih hst hmem
  rcases List.mem_append.mp hmem with hmem | hmem
  · exact running_step hst (ih hmem)
  · obtain rfl : Action.stop = a := by simpa using hmem
    cases hst
    rfl

/-! ## One step after the stop -/

/-- Without `running_`, each position is one step nearer the end than the one before. -/
theorem stepsLeft_next {p : ThreadPc} (hp : p ≠ .done) : (p.next false).stepsLeft + 1 ≤ p.stepsLeft := by
  cases p <;> simp [ThreadPc.next, ThreadPc.stepsLeft] at hp ⊢

/-- Every step of a stopped thread is one of those it has left; no other step moves it. -/
theorem stepsLeft_step (h : Step s a t) (hstopped : s.running = false) :
    [a].countP Action.byThread + t.pc.stepsLeft ≤ s.pc.stepsLeft := by
  by_cases ha : a.byThread = true
  · obtain ⟨hdone, hpc, -⟩ := thread_frame ha h
    have hleft := stepsLeft_next hdone
    rw [hpc, hstopped]
    simpa [ha, Nat.add_comm] using hleft
  · simp [ha, caller_frame (by simpa using ha) h]

/-- A `Write` that leaves the thread asleep found it asleep, and brought no bytes. -/
theorem asleep_of_write {bs : List UInt8} (h : s.write bs = .next t) (ht : Asleep t) : Asleep s ∧ bs = [] := by
  obtain ⟨hpc, hempty, hqueue⟩ := ht
  rw [available_eq_iff] at hempty
  unfold AsyncLogger.write at h
  split at h
  · obtain ⟨b, hb, rfl⟩ := appendCurrent_next h
    have hdata : (s.heap s.current).data ++ bs = [] := by simpa [← hb] using hempty
    obtain ⟨hcur, hbs⟩ := List.append_eq_nil_iff.mp hdata
    exact ⟨⟨hpc, (available_eq_iff _).mpr hcur, hqueue⟩, hbs⟩
  · -- the full `current_` was queued, so the queue is not empty
    obtain ⟨b, -, rfl⟩ := appendCurrent_next h
    unfold AsyncLogger.rotate at hqueue
    cases hn : s.next <;> simp [hn, AsyncLogger.newBuffer] at hqueue

/-- After the stop nobody falls asleep: a thread that is asleep was so before. -/
theorem asleep_of_step (h : Step s a t) (hstopped : s.running = false) (ht : Asleep t) : Asleep s := by
  cases a with
  | write bs => exact (asleep_of_write h ht).1
  | stop => cases h; exact ht
  | start | test | swap | output | flush =>
      -- the loop head is where the thread comes to the wait from, and there it now leaves
      have hpc := ht.1.symm.trans (thread_frame rfl h).2.1
      rw [hstopped] at hpc
      cases hp : s.pc <;> simp [hp, ThreadPc.next] at hpc

/-- An empty `Write` does not wake the thread. -/
theorem Asleep.write_nil (hs : Asleep s) (h : s.write [] = .next t) : Asleep t := by
  unfold AsyncLogger.write at h
  rw [if_pos (by simp)] at h
  obtain ⟨b, hb, rfl⟩ := appendCurrent_next h
  refine ⟨hs.1, ?_, hs.2.2⟩
  rw [available_eq_iff]
  simpa [hb] using (available_eq_iff _).mp hs.2.1

/-- Nothing but a `Write` of some bytes moves a sleeping thread, the stop included. -/
theorem Asleep.step (hs : Asleep s) (h : Step s a t) (ha : ∀ bs, a = .write bs → bs = []) :
    Asleep t ∧ a.byThread = false := by
  cases a with
  | write bs =>
      obtain rfl := ha bs rfl
      exact ⟨hs.write_nil h, rfl⟩
  | stop => cases h; exact ⟨hs, rfl⟩
  | start => simp [Step, AsyncLogger.step, AsyncLogger.start, hs.1] at h
  | test => simp [Step, AsyncLogger.step, AsyncLogger.test, hs.1] at h
  | swap => simp [Step, AsyncLogger.step, AsyncLogger.swap, hs.1, hs.2] at h
  | output => simp [Step, AsyncLogger.step, AsyncLogger.output, hs.1] at h
  | flush => simp [Step, AsyncLogger.step, AsyncLogger.flush, hs.1] at h

/-- A step that neither waits nor fails an assertion is taken. -/
theorem exists_step (hblocked : s.step a ≠ .blocked) (habort : s.step a ≠ .abort) : ∃ t, Step s a t := by
  unfold Step
  cases h : s.step a with
  | next t => exact ⟨t, rfl⟩
  | blocked => exact absurd h hblocked
  | abort => exact absurd h habort

/-- A thread that is neither asleep nor at its end has a step. -/
theorem Inv.thread_step (hi : Inv s) (hdone : s.pc ≠ .done) (hawake : ¬ Asleep s) :
    ∃ a t, a.byThread = true ∧ Step s a t := by
  have hstep : ∀ a, a.byThread = true → s.step a ≠ .blocked → ∃ a t, a.byThread = true ∧ Step s a t := by
    intro a ha hblocked
    obtain ⟨t, ht⟩ := exists_step hblocked
      (hi.step_ne_abort fun bs hbs => absurd ha (by simp [hbs, Action.byThread]))
    exact ⟨a, t, ha, ht⟩
  cases hpc : s.pc with
  | notStarted => exact hstep .start rfl (by simp [AsyncLogger.step, AsyncLogger.start, hpc])
  | loopHead =>
      refine hstep .test rfl ?_
      simp only [AsyncLogger.step, AsyncLogger.test, hpc, if_true]
      by_cases hr : s.running
      · cases ht : s.tmp1 with
        | none => simp [hr]
        | some b => by_cases hb : (s.heap b).used = 0 <;> simp [hr, hb]
      · simp [hr]
  | locking =>
      refine hstep .swap rfl ?_
      have hfull : ¬ ((s.heap s.current).available = kBufferSize ∧ s.buffers = []) := fun h => hawake ⟨hpc, h⟩
      simp [AsyncLogger.step, AsyncLogger.swap, hpc, hfull]
  | writing =>
      refine hstep .output rfl ?_
      simp only [AsyncLogger.step, AsyncLogger.output, hpc, if_true]
      cases s.tmp1 <;> cases s.buffersToWrite <;> split <;> simp
  | flushing => exact hstep .flush rfl (by simp [AsyncLogger.step, AsyncLogger.flush, hpc, hi.outputSet])
  | done => exact absurd hpc hdone

theorem Inv.run (hi : Inv s) (hrun : Run Step s as t) : Inv t := by
  refine Run.invariant ?_ hrun hi
  intro t a u hi hst
  cases a with
  | write bs => exact (hi.write hst).1
  | stop => cases hst; exact { hi with }
  | start => exact (hi.start hst).1
  | test => exact (hi.test hst).1
  | swap => exact (hi.swap hst).1
  | output => exact (hi.output hst).1
  | flush => exact (hi.flush hst).1

/-! ## Runs after the stop -/

/-- From an awake state: the thread stays awake and its steps run out. -/
theorem awake_run (hstopped : s.running = false) (hawake : ¬ Asleep s) (hrun : Run Step s as t) :
    t.running = false ∧ ¬ Asleep t ∧ as.countP Action.byThread + t.pc.stepsLeft ≤ s.pc.stepsLeft := by
  refine Run.invariantTrace (I := fun as t => t.running = false ∧ ¬ Asleep t ∧
    as.countP Action.byThread + t.pc.stepsLeft ≤ s.pc.stepsLeft) ?_ hrun ⟨hstopped, hawake, by simp⟩
  rintro as t a u ⟨hstopped, hawake, hcount⟩ hst
  refine ⟨running_step hst hstopped, fun hu => hawake (asleep_of_step hst hstopped hu), ?_⟩
  have hstep := stepsLeft_step hst hstopped
  rw [List.countP_append]
  omega

/-- From a sleeping state: as long as nobody writes anything, the thread does not move. -/
theorem Asleep.run (hs : Asleep s) (hrun : Run Step s as t) :
    (∀ w ∈ writesOf as, w = []) → Asleep t ∧ as.countP Action.byThread = 0 := by
  refine Run.invariantTrace (I := fun as t => (∀ w ∈ writesOf as, w = []) →
    Asleep t ∧ as.countP Action.byThread = 0) ?_ hrun (fun _ => ⟨hs, rfl⟩)
  intro as t a u ih hst hnil
  rw [writesOf_append] at hnil
  obtain ⟨ht, hcount⟩ := ih fun w hw => hnil w (List.mem_append_left _ hw)
  have ha : ∀ bs, a = .write bs → bs = [] := by
    rintro bs rfl
    exact hnil bs (List.mem_append_right _ (by simp [writesOf]))
  obtain ⟨hu, hthread⟩ := ht.step hst ha
  exact ⟨hu, by simp [hcount, hthread]⟩

/-- **When `Flush(true)` comes back.** Take any run in which `running_` has been cleared. If the log thread is
    not asleep in the inner wait, then in every continuation it takes at most four more steps and has one to
    take until it is done, so the `join` returns. If it is asleep, it stays there in every continuation without
    a `Write` of at least one byte: `cond_.notify_all()` and the time-outs do not get it out, and the `join`
    hangs. -/
theorem flush_returns_iff (hrun : Run Step create as s) (hstop : .stop ∈ as) :
    (¬ Asleep s → ∀ bs t, Run Step s bs t →
      bs.countP Action.byThread ≤ 4 ∧ (t.pc = .done ∨ ∃ a u, a.byThread = true ∧ Step t a u)) ∧
    (Asleep s → ∀ bs t, Run Step s bs t → (∀ w ∈ writesOf bs, w = []) →
      bs.countP Action.byThread = 0 ∧ t.pc ≠ .done) := by
  have hi := (traceInv_run hrun).1
  refine ⟨fun hawake bs t hbs => ?_, fun hasleep bs t hbs hnil => ?_⟩
  · obtain ⟨-, hawake', hcount⟩ := awake_run (stopped_of_mem hrun hstop) hawake hbs
    refine ⟨?_, ?_⟩
    · have hleft : s.pc.stepsLeft ≤ 4 := by cases s.pc <;> simp [ThreadPc.stepsLeft]
      omega
    · by_cases hdone : t.pc = .done
      · exact Or.inl hdone
      · exact Or.inr ((hi.run hbs).thread_step hdone hawake')
  · obtain ⟨ht, hcount⟩ := hasleep.run hbs hnil
    exact ⟨hcount, by simp [ht.1]⟩

/-- A logger that is stopped before anything was written, its thread past the test of `running_`. -/
theorem flush_returns_iff_idle :
    ∃ s, Run Step create [.start, .test, .stop] s ∧ Asleep s ∧
      ∀ bs t, Run Step s bs t → writesOf bs = [] → t.pc ≠ .done := by
  have h₁ : create.step .start = .next _ := rfl
  obtain ⟨s, hrun, hasleep⟩ : ∃ s, Run Step create [.start, .test, .stop] s ∧ Asleep s := by
    refine ⟨_, ((Run.single (show Step create _ _ from h₁)).tail (show Step _ .test _ from rfl)).tail
      (show Step _ .stop _ from rfl), rfl, rfl, rfl⟩
  refine ⟨s, hrun, hasleep, fun bs t hbs hnil => ?_⟩
  exact ((flush_returns_iff hrun (by simp)).2 hasleep bs t hbs (by simp [hnil])).2

end AsyncLogger
end Logger
end Snippets
