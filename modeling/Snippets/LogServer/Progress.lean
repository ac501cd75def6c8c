import Snippets.LogServer.Delivery

/-!
# `LogServer.Progress` — the system gets stuck in one way only

From any state a run can reach in which no worker has aborted, whoever holds the mutex can finish its section by
its own steps, and a worker that has not been told to stop can then take and write everything in the ring, while
no new message comes in. `weight` bounds how many steps that takes: it goes down at each step of the process
holding the mutex and, when it is free, of the worker. That the process which holds the mutex goes on is part of
it: the mutex is not given back when its holder ends, and a worker that aborts in `ReadNext` ends holding it.
-/

namespace Snippets
namespace LogServer

open Lib RingBuffer LogFiles

variable {s t : System} {es : List (Action × Event)} {a : Action} {e : Event} {w : Nat} {len : Nat} {found : Int}

/-! ## The measure

What is left to do before the worker has drained the ring: what the holder of the mutex has before it, the steps
of the worker itself, and more than both for each message. -/

/-- Steps left to the worker that is to drain the ring, apart from those for what is in the ring. -/
def WorkerPc.weight (held : Nat) : WorkerPc → Nat
  | .exited | .aborted => 0
  | .loopHead | .waiting => 14
  | .locking | .woken => 13
  | .testing => 12
  | .reading num => if num = 0 then 11 else 16 + num
  | .copying num _ _ => 18 + num
  | .appending i => 15 + (held - i)

/-- How far a worker is from its next wait. -/
def Worker.weight (x : Worker) : Nat := x.pc.weight x.msgs.length

/-- Steps left to a process in the guarded section. -/
def System.insideWeight (s : System) : Proc → Nat
  | .client c =>
      match (s.clients c).pc with
      | .outside => 0
      | .locked _ => 25
      | .written _ _ => 2
  | .worker v =>
      match (s.workers v).pc with
      | .testing | .copying _ _ _ => 2
      | .reading _ => 1
      | _ => 0

/-- The process other than `w` that holds the mutex, if there is one. -/
def System.others (s : System) (w : Nat) : Nat :=
  match s.holder with
  | some p => if p = .worker w then 0 else s.insideWeight p
  | none => 0

/-- The measure of the system for one worker. -/
def System.weight (s : System) (w : Nat) : Nat := 20 * s.ring.size + s.others w + (s.workers w).weight

/-- The worker is there, has not been told to stop and has not ended. -/
def Live (s : System) (w : Nat) : Prop :=
  w < s.forked ∧ (s.workers w).running = true ∧ (s.workers w).pc ≠ .exited

/-- Nobody holds the mutex, the ring is empty and `w` has written all it took. -/
def Drained (s : System) (w : Nat) : Prop :=
  s.holder = none ∧ s.ring.size = 0 ∧ (s.workers w).pending = []

/-- No worker has aborted. -/
def Unbroken (s : System) : Prop := ∀ v, (s.workers v).pc ≠ .aborted

/-- An action other than a client's entering `Output`; a new `e.len` is `found` by chance. -/
def Action.continues (found : Int) : Action → Bool
  | .lock _ _ => false
  | .read _ len => len = found
  | _ => true

/-- A step that brings the drain forward. -/
def Forward (found : Int) (s : System) (w : Nat) : Prop :=
  ∃ a e t, a.continues found = true ∧ s.step a = some (e, t) ∧ Live t w ∧ (Drained t w ∨ t.weight w < s.weight w)

/-! ## Workers that abort

A worker aborts in one place only, at a length that was found zero in memory while there is a record. -/

/-- Setting another worker's state aborts nobody. -/
theorem aborted_setWorker {x : Worker} {v : Nat} (hx : x.pc ≠ .aborted) (h : ((s.setWorker w x).workers v).pc = .aborted) :
    (s.workers v).pc = .aborted := by
  by_cases hv : v = w
  · rw [hv, System.setWorker_same] at h
    exact absurd h hx
  · rw [System.setWorker_other _ _ hv] at h
    exact h

/-- **Only a `Read` that finds 0 aborts.** -/
theorem aborted_step {v : Nat} (hstep : s.step a = some (e, t)) (h : (t.workers v).pc = .aborted) :
    (s.workers v).pc = .aborted ∨ a = .read v 0 := by
  -- one case per action; only a read changes a worker to aborted
  cases a with
  | lock c msg =>
      obtain ⟨-, heq⟩ := Option.ite_none_right_eq_some.mp hstep
      cases heq
      exact Or.inl h
  | write c =>
      simp only [System.step, System.writeStep] at hstep
      split at hstep
      · split at hstep
        · cases hstep
          exact Or.inl h
        · cases hstep
      · cases hstep
  | leave c notified =>
      simp only [System.step, System.leaveStep] at hstep
      split at hstep
      · obtain ⟨s₁, hs₁, heq⟩ := Option.map_eq_some_iff.mp hstep
        cases heq
        left
        split at hs₁
        · rcases notifyOne_cases hs₁ with rfl | ⟨u, -, -, rfl⟩
          · exact h
          · exact aborted_setWorker (by simp) h
        · cases hs₁
          exact h
      · cases hstep
        exact Or.inl h
      · cases hstep
  | fork =>
      cases hstep
      exact Or.inl (aborted_setWorker (by simp [newWorker]) h)
  | run u =>
      left
      obtain ⟨-, hrun⟩ := Option.ite_none_right_eq_some.mp hstep
      unfold System.runStep at hrun
      cases hpc : (s.workers u).pc with
      | loopHead =>
          simp only [hpc, Option.some.injEq, Prod.mk.injEq] at hrun
          obtain ⟨-, rfl⟩ := hrun
          exact aborted_setWorker (by dsimp only; split <;> simp) h
      | locking | woken =>
          simp only [hpc, Option.ite_none_right_eq_some, Option.some.injEq, Prod.mk.injEq] at hrun
          obtain ⟨-, -, rfl⟩ := hrun
          have hlock := aborted_setWorker (by simp) h
          exact hlock
      | testing =>
          simp only [hpc] at hrun
          split at hrun
          · cases hrun
            have hunlock := aborted_setWorker (by simp) h
            exact hunlock
          · cases hrun
            exact aborted_setWorker (by simp) h
      | copying num buf len =>
          simp only [hpc, Option.some.injEq, Prod.mk.injEq] at hrun
          obtain ⟨-, rfl⟩ := hrun
          exact aborted_setWorker (by simp) h
      | appending i =>
          simp only [hpc, Option.ite_none_right_eq_some, Option.some.injEq, Prod.mk.injEq] at hrun
          obtain ⟨-, -, rfl⟩ := hrun
          exact aborted_setWorker (by simp) h
      | reading _ | waiting | exited | aborted => simp [hpc] at hrun
  | read u found =>
      obtain ⟨-, hread⟩ := Option.ite_none_right_eq_some.mp hstep
      unfold System.readStep at hread
      split at hread
      · split at hread
        · split at hread
          · rename_i hfound
            cases hread
            by_cases hv : v = u
            · subst hv
              rw [hfound.2]
              exact Or.inr rfl
            · left
              rw [System.setPc, System.setWorker_other _ _ hv] at h
              exact h
          · left
            split at hread
            · split at hread
              · cases hread
                have hleave := aborted_setWorker (by simp) h
                exact hleave
              · cases hread
                have hpop := aborted_setWorker (by simp) h
                exact hpop
            · cases hread
              have hleave := aborted_setWorker (by simp) h
              exact hleave
        · cases hread
          have hleave := aborted_setWorker (by simp) h
          exact Or.inl hleave
      · cases hread
  | append u ret =>
      left
      obtain ⟨-, happ⟩ := Option.ite_none_right_eq_some.mp hstep
      unfold System.appendStep at happ
      dsimp only at happ
      split at happ
      · split at happ
        · cases happ
          exact aborted_setWorker (by simp) h
        · cases happ
      · cases happ
  | timeout u =>
      obtain ⟨-, heq⟩ := Option.ite_none_right_eq_some.mp hstep
      cases heq
      exact Or.inl (aborted_setWorker (by simp) h)
  | stop u =>
      obtain ⟨-, heq⟩ := Option.ite_none_right_eq_some.mp hstep
      cases heq
      left
      by_cases hv : v = u
      · rw [hv, System.setWorker_same] at h
        rw [hv]
        exact h
      · rw [System.setWorker_other _ _ hv] at h
        exact h

/-- A step of the continuation aborts nobody, since a length that is found is not zero. -/
theorem Unbroken.step (hfound : found ≠ 0) (h : Unbroken s) (ha : a.continues found = true)
    (hstep : s.step a = some (e, t)) : Unbroken t := by
  intro v hv
  rcases aborted_step hstep hv with hold | rfl
  · exact h v hold
  · exact hfound (of_decide_eq_true ha).symm

/-! ## The holder's steps

A client inside its section writes and leaves; a worker inside pops, copies and leaves. Each such step lowers the
measure. -/

/-- A worker inside has been forked. -/
theorem Inv.forked (h : Inv len es s) (hin : (s.workers w).pc.inside = true) : w < s.forked := by
  by_contra hge
  rw [h.unforked w (by omega)] at hin
  exact Bool.noConfusion hin

/-- While nobody aborted, the ring holds a queue of messages that are not empty. -/
theorem Inv.rep (h : Inv len es s) (hunbroken : Unbroken s) : ∃ q, Rep len s.ring q ∧ ∀ e ∈ q, e.msg ≠ [] := by
  obtain ⟨q, hrep, hne, -⟩ := h.conserved
  rw [intact_eq fun v _ => hunbroken v] at hrep
  exact ⟨q, hrep, hne⟩

/-- A client that holds the mutex can write its message, and then leave. -/
theorem forward_client (hlen : len ≤ 2 ^ 31 - 4) (h : Inv len es s) (hunbroken : Unbroken s) (hlive : Live s w) {c : Nat}
    (hholder : s.holder = some (.client c)) : Forward found s w := by
  have hin : (s.clients c).pc.inside = true := h.locked.inside_client.mpr hholder
  obtain ⟨q, hrep, -⟩ := h.rep hunbroken
  have hsize := hrep.size
  cases hpc : (s.clients c).pc with
  | outside => simp [hpc, ClientPc.inside] at hin
  -- it writes, and the ring has one message more at most
  | locked msg =>
      obtain ⟨⟨ring, ok, ws⟩, hpush⟩ := Option.ne_none_iff_exists'.mp (push_ne_none s.ring msg)
      have hring : ring.size ≤ s.ring.size + 1 := by
        cases ok with
        | true =>
            obtain ⟨addr, hrep', -⟩ := hrep.push hlen hpush
            have := hrep'.size
            simp only [List.length_append, List.length_singleton] at this
            omega
        | false =>
            obtain ⟨rfl, -⟩ := push_rejected hpush
            omega
      have hstep : s.step (.write c) = some (if ok then .accepted c msg else .rejected c msg,
          { s with ring := ring }.setClient c { s.clients c with pc := .written msg ok }) := by
        simp only [System.step, System.writeStep, hpc, hpush]
      refine ⟨.write c, _, _, rfl, hstep, hlive, Or.inr ?_⟩
      simp only [System.weight, System.others, System.setClient_ring, System.setClient_holder,
        System.setClient_workers, hholder, System.insideWeight, System.setClient_same, hpc]
      simp
      omega
  -- it leaves, and notifies somebody if it has to
  | written msg ok =>
      -- the choice of whom to wake: any waiting worker, or nobody when none waits
      have hnotify : ∃ notified t, s.notifyOne notified = some t ∧ (t = s ∨ ∃ v, v < s.forked ∧
          (s.workers v).pc = .waiting ∧ t = s.setPc v .woken) := by
        by_cases hwait : ∃ v, v < s.forked ∧ (s.workers v).pc = .waiting
        · obtain ⟨v, hv, hvpc⟩ := hwait
          exact ⟨some v, _, if_pos ⟨hv, hvpc⟩, Or.inr ⟨v, hv, hvpc, rfl⟩⟩
        · exact ⟨none, s, if_pos fun v hv hvpc => hwait ⟨v, hv, hvpc⟩, Or.inl rfl⟩
      obtain ⟨notified, s₁, hs₁, hcases⟩ := hnotify
      have hafter : ∀ y s₁, (s₁ = s ∨ ∃ v, v < s.forked ∧ (s.workers v).pc = .waiting ∧ s₁ = s.setPc v .woken) →
          Live (s₁.unlock.setClient c y) w ∧ (s₁.unlock.setClient c y).weight w < s.weight w := by
        rintro y s₁ (rfl | ⟨v, hv, hvpc, rfl⟩)
        · refine ⟨hlive, ?_⟩
          simp [System.weight, System.others, hholder, System.insideWeight, hpc]
        · by_cases hvw : v = w
          · subst hvw
            refine ⟨⟨hlive.1, ?_, ?_⟩, ?_⟩
            · simpa [System.setPc] using hlive.2.1
            · simp [System.setPc]
            · simp [System.weight, System.others, hholder, System.insideWeight, hpc, System.setPc, Worker.weight,
                WorkerPc.weight, hvpc]
          · have hsame : (s.setPc v .woken).workers w = s.workers w := System.setWorker_other _ _ (Ne.symm hvw)
            refine ⟨⟨hlive.1, ?_, ?_⟩, ?_⟩
            · simpa [hsame] using hlive.2.1
            · simpa [hsame] using hlive.2.2
            · simp [System.weight, System.others, hholder, System.insideWeight, hpc, System.setPc,
                System.setWorker_other _ _ (Ne.symm hvw)]
      cases ok with
      | false =>
          let y : Client := { s.clients c with pc := .outside, failed := (s.clients c).failed + 1 }
          have hstep : s.step (.leave c none) = some (.internal, s.unlock.setClient c y) := by
            simp only [System.step, System.leaveStep, hpc, y]
          obtain ⟨hl, hlt⟩ := hafter y s (Or.inl rfl)
          exact ⟨_, _, _, rfl, hstep, hl, Or.inr hlt⟩
      | true =>
          let y : Client :=
            { s.clients c with pc := .outside, totalBytes := (s.clients c).totalBytes + msg.length }
          by_cases hten : s.ring.size % 10 = 0
          · have hstep : s.step (.leave c notified) = some (.internal, s₁.unlock.setClient c y) := by
              simp only [System.step, System.leaveStep, hpc, if_pos hten, hs₁, Option.map_some, y]
            obtain ⟨hl, hlt⟩ := hafter y s₁ hcases
            exact ⟨_, _, _, rfl, hstep, hl, Or.inr hlt⟩
          · have hstep : s.step (.leave c none) = some (.internal, s.unlock.setClient c y) := by
              simp only [System.step, System.leaveStep, hpc, if_neg hten, Option.map_some, y]
            obtain ⟨hl, hlt⟩ := hafter y s (Or.inl rfl)
            exact ⟨_, _, _, rfl, hstep, hl, Or.inr hlt⟩

/-- What a pop leaves: one message fewer. -/
theorem Inv.pop_size (hlen : len ≤ 2 ^ 31 - 4) (h : Inv len es s) (hunbroken : Unbroken s) :
    (s.ring.pop = (s.ring, none) ∧ s.ring.size = 0) ∨
      ∃ r, r.len ≠ 0 ∧ s.ring.pop = (s.ring.pop.1, some r) ∧ s.ring.pop.1.size + 1 = s.ring.size := by
  obtain ⟨q, hrep, hne⟩ := h.rep hunbroken
  rcases hrep.pop hlen with ⟨rfl, hnone⟩ | ⟨e, q', rfl, hsome, hrep'⟩
  · exact Or.inl ⟨hnone, by simpa using hrep.size⟩
  · have hmsg : e.msg ≠ [] := hne e (by simp)
    refine Or.inr ⟨_, ?_, Prod.ext rfl hsome, ?_⟩
    · simpa using hmsg
    · rw [hrep'.size, hrep.size]
      rfl

/-- What a worker in the guarded section can do next: pop a message, copy the one it popped, or leave. -/
inductive Inner (s : System) (v : Nat) : System → Prop
  | popped (num : Nat) (r : Popped) : (s.workers v).pc = .reading num → s.ring.pop.1.size + 1 = s.ring.size →
      Inner s v ({ s with ring := s.ring.pop.1 }.setPc v (.copying num r.ptr r.len))
  | copied (num : Nat) (buf n : Int) (msgs : List Message) : (s.workers v).pc = .copying num buf n →
      msgs.length = (s.workers v).msgs.length + 1 →
      Inner s v (s.setWorker v { s.workers v with pc := .reading (num + 1), msgs := msgs })
  | enter : (s.workers v).pc = .testing → (s.ring.size = 0 → (s.workers v).running = false) →
      Inner s v (s.setPc v (.reading 0))
  | wait : (s.workers v).pc = .testing → s.ring.size = 0 → Inner s v (s.unlock.setPc v .waiting)
  | leave (num : Nat) : (s.workers v).pc = .reading num → (num = 0 → s.ring.size = 0) →
      Inner s v (s.unlock.setPc v (.appending 0))

/-- The worker that holds the mutex always has a next step, and a `Read` that does not find 0 goes well. -/
theorem inner_step (hlen : len ≤ 2 ^ 31 - 4) (hfound : found ≠ 0) (h : Inv len es s) (hunbroken : Unbroken s)
    (hin : (s.workers w).pc.inside = true) : ∃ a e t, a.continues found = true ∧ s.step a = some (e, t) ∧ Inner s w t := by
  have hw := h.forked hin
  have hrun : s.step (.run w) = s.runStep w := by simp only [System.step, if_pos hw]
  have hread : s.step (.read w found) = s.readStep w found := by simp only [System.step, if_pos hw]
  have hnot : ¬ (s.ring.used ≠ 0 ∧ found = 0) := fun hzero => hfound hzero.2
  cases hpc : (s.workers w).pc with
  -- the test of the condition: wait, or go on to read
  | testing =>
      by_cases hempty : s.ring.size = 0 ∧ (s.workers w).running = true
      · refine ⟨.run w, .internal, s.unlock.setPc w .waiting, rfl, ?_, .wait hpc hempty.1⟩
        simp only [hrun, System.runStep, hpc, if_pos hempty]
      · refine ⟨.run w, .internal, s.setPc w (.reading 0), rfl, ?_, .enter hpc (by simpa using hempty)⟩
        simp only [hrun, System.runStep, hpc, if_neg hempty]
  -- the next record, unless there is none or the batch is full
  | reading num =>
      refine ⟨.read w found, .internal, ?_⟩
      rw [hread]
      unfold System.readStep
      by_cases hnum : num < kMaxMessageEachTime
      · rcases h.pop_size hlen hunbroken with ⟨hnone, hsize⟩ | ⟨r, hne, hsome, hsize⟩
        · refine ⟨s.unlock.setPc w (.appending 0), by simp [Action.continues], ?_, .leave num hpc fun _ => hsize⟩
          simp only [hpc, if_pos hnum, if_neg hnot, hnone]
        · refine ⟨{ s with ring := s.ring.pop.1 }.setPc w (.copying num r.ptr r.len), by simp [Action.continues], ?_,
            .popped num r hpc hsize⟩
          simp only [hpc, if_pos hnum, if_neg hnot]
          rw [hsome]
          simp only [if_neg hne]
      · refine ⟨s.unlock.setPc w (.appending 0), by simp [Action.continues], ?_, .leave num hpc ?_⟩
        · simp only [hpc, if_neg hnum]
        · rintro rfl
          exact absurd (by decide : 0 < kMaxMessageEachTime) hnum
  -- the record popped is copied
  | copying num buf n =>
      let msg := s.ring.mem.read buf n.toNat
      refine ⟨.run w, .took w msg,
        s.setWorker w { s.workers w with pc := .reading (num + 1), msgs := (s.workers w).msgs ++ [msg] }, rfl, ?_,
        .copied num buf n _ hpc (by simp)⟩
      simp only [hrun, System.runStep, hpc, msg]
  | aborted => exact absurd hpc (hunbroken w)
  | _ => simp [hpc, WorkerPc.inside] at hin

/-- Another worker that holds the mutex moves on to leaving it. -/
theorem forward_other (hlen : len ≤ 2 ^ 31 - 4) (hfound : found ≠ 0) (h : Inv len es s) (hunbroken : Unbroken s)
    (hlive : Live s w) {v : Nat} (hv : w ≠ v) (hholder : s.holder = some (.worker v)) : Forward found s w := by
  obtain ⟨a, e, t, hcont, hstep, hinner⟩ := inner_step hlen hfound h hunbroken (h.locked.inside_worker.mpr hholder)
  refine ⟨a, e, t, hcont, hstep, ?_⟩
  have hne : Proc.worker v ≠ .worker w := by simpa using Ne.symm hv
  -- another worker holds the mutex, so ours is not touched
  cases hinner with
  | popped num r hpc hsize =>
      have hsame := System.setWorker_other { s with ring := s.ring.pop.1 }
        { s.workers v with pc := .copying num r.ptr r.len } hv
      refine ⟨⟨hlive.1, hsame ▸ hlive.2.1, hsame ▸ hlive.2.2⟩, Or.inr ?_⟩
      have hothers : s.others w = 1 := by simp [System.others, hholder, hne, System.insideWeight, hpc]
      have hothers' : ({ s with ring := s.ring.pop.1 }.setPc v (.copying num r.ptr r.len)).others w = 2 := by
        simp [System.others, System.setPc, hholder, hne, System.insideWeight]
      have hworker : (({ s with ring := s.ring.pop.1 }.setPc v (.copying num r.ptr r.len)).workers w) = s.workers w := hsame
      have hring : ({ s with ring := s.ring.pop.1 }.setPc v (.copying num r.ptr r.len)).ring.size + 1 = s.ring.size := hsize
      unfold System.weight
      rw [hothers, hothers', hworker]
      omega
  | copied num buf n msgs hpc hmsgs =>
      have hsame := System.setWorker_other s { s.workers v with pc := .reading (num + 1), msgs := msgs } hv
      refine ⟨⟨hlive.1, hsame ▸ hlive.2.1, hsame ▸ hlive.2.2⟩, Or.inr ?_⟩
      simp [System.weight, System.others, hholder, hne, System.insideWeight, hpc, hsame]
  | enter hpc _ =>
      have hsame := System.setWorker_other s { s.workers v with pc := .reading 0 } hv
      refine ⟨⟨hlive.1, hsame ▸ hlive.2.1, hsame ▸ hlive.2.2⟩, Or.inr ?_⟩
      simp [System.weight, System.others, System.setPc, hholder, hne, System.insideWeight, hpc, hsame]
  | wait hpc _ =>
      have hsame := System.setWorker_other s.unlock { s.workers v with pc := .waiting } hv
      refine ⟨⟨hlive.1, hsame ▸ hlive.2.1, hsame ▸ hlive.2.2⟩, Or.inr ?_⟩
      simp [System.weight, System.others, System.setPc, hholder, hne, System.insideWeight, hpc, hsame]
  | leave num hpc _ =>
      have hsame := System.setWorker_other s.unlock { s.workers v with pc := .appending 0 } hv
      refine ⟨⟨hlive.1, hsame ▸ hlive.2.1, hsame ▸ hlive.2.2⟩, Or.inr ?_⟩
      simp [System.weight, System.others, System.setPc, hholder, hne, System.insideWeight, hpc, hsame]

/-! ## The worker's own steps

With the mutex free the worker moves on by itself, and with the mutex in its hands it takes what the ring holds. -/

/-- What the worker's own record and the ring come to decide the weight while nobody else holds the mutex. -/
theorem weight_self (h : s.holder = none ∨ s.holder = some (.worker w)) :
    s.weight w = 20 * s.ring.size + (s.workers w).weight := by
  rcases h with h | h <;> simp [System.weight, System.others, h]

/-- The measure after a step of the worker itself, -/
theorem weight_setWorker (t : System) (x : Worker) (h : t.holder = none ∨ t.holder = some (.worker w)) :
    (t.setWorker w x).weight w = 20 * t.ring.size + x.weight := by
  have hself := weight_self (s := t.setWorker w x) h
  rwa [System.setWorker_same] at hself

/-- also when only its place changes. -/
theorem weight_setPc (t : System) (pc : WorkerPc) (h : t.holder = none ∨ t.holder = some (.worker w)) :
    (t.setPc w pc).weight w = 20 * t.ring.size + pc.weight (t.workers w).msgs.length :=
  weight_setWorker t { t.workers w with pc := pc } h

/-- The worker itself holds the mutex. -/
theorem forward_self (hlen : len ≤ 2 ^ 31 - 4) (hfound : found ≠ 0) (h : Inv len es s) (hunbroken : Unbroken s)
    (hlive : Live s w) (hholder : s.holder = some (.worker w)) : Forward found s w := by
  obtain ⟨a, e, t, hcont, hstep, hinner⟩ := inner_step hlen hfound h hunbroken (h.locked.inside_worker.mpr hholder)
  refine ⟨a, e, t, hcont, hstep, ?_⟩
  have hbatch := (h.worker w).batch
  have hs := weight_self (Or.inr hholder)
  cases hinner with
  | popped num r hpc hsize =>
      have hnew : ({ s with ring := s.ring.pop.1 }.setPc w (.copying num r.ptr r.len)).weight w =
          20 * s.ring.pop.1.size + (18 + num) :=
        weight_setPc { s with ring := s.ring.pop.1 } _ (Or.inr hholder)
      refine ⟨⟨hlive.1, by simpa [System.setPc] using hlive.2.1, by simp [System.setPc]⟩, Or.inr ?_⟩
      have hold : (s.workers w).weight ≥ 11 + num := by
        simp only [Worker.weight, hpc, WorkerPc.weight]
        split <;> omega
      omega
  | copied num buf n msgs hpc hmsgs =>
      refine ⟨⟨hlive.1, by simpa using hlive.2.1, by simp⟩, Or.inr ?_⟩
      rw [hs, weight_setWorker _ _ (Or.inr hholder)]
      simp [Worker.weight, WorkerPc.weight, hpc]
      omega
  | enter hpc _ =>
      refine ⟨⟨hlive.1, by simpa [System.setPc] using hlive.2.1, by simp [System.setPc]⟩, Or.inr ?_⟩
      rw [hs, weight_setPc _ _ (Or.inr hholder)]
      simp [Worker.weight, WorkerPc.weight, hpc]
  | wait hpc hsize =>
      have hmsgs : (s.workers w).msgs = [] := by simpa [Worker.InBatch, hpc] using hbatch
      refine ⟨⟨hlive.1, by simpa [System.setPc] using hlive.2.1, by simp [System.setPc]⟩, Or.inl ⟨rfl, hsize, ?_⟩⟩
      simpa [System.setPc, Worker.pending] using hmsgs
  -- with no message taken the ring was empty, and the worker is done
  | leave num hpc hempty =>
      have hmsgs : (s.workers w).msgs.length = num := by
        simp only [Worker.InBatch, hpc] at hbatch
        exact hbatch.1
      refine ⟨⟨hlive.1, by simpa [System.setPc] using hlive.2.1, by simp [System.setPc]⟩, ?_⟩
      by_cases hnum : num = 0
      · have hnil : (s.workers w).msgs = [] := List.eq_nil_of_length_eq_zero (hmsgs.trans hnum)
        exact Or.inl ⟨rfl, hempty hnum, by simpa [System.setPc, Worker.pending] using hnil⟩
      · right
        rw [hs, weight_setPc _ _ (Or.inl rfl)]
        simp [Worker.weight, WorkerPc.weight, hpc, hnum, hmsgs]

/-- Nobody holds the mutex. -/
theorem forward_free (h : Inv len es s) (hlive : Live s w) (hfree : s.holder = none) : Forward found s w := by
  obtain ⟨hw, hrunning, hexited⟩ := hlive
  have hout : (s.workers w).pc.inside = false := by
    by_contra hin
    have := h.locked.inside_worker.mp (by simpa using hin)
    rw [hfree] at this
    cases this
  have hs := weight_self (w := w) (Or.inl hfree)
  have hrun : s.step (.run w) = s.runStep w := by simp only [System.step, if_pos hw]
  have hbatch := (h.worker w).batch
  -- the worker is outside the section, and these are the places there
  cases hpc : (s.workers w).pc with
  | exited => exact absurd hpc hexited
  | testing => simp [hpc, WorkerPc.inside] at hout
  | reading num => simp [hpc, WorkerPc.inside] at hout
  | copying num buf n => simp [hpc, WorkerPc.inside] at hout
  | aborted => simp [hpc, WorkerPc.inside] at hout
  | loopHead =>
      have hstep : s.step (.run w) = some (.internal, s.setPc w .locking) := by
        rw [hrun]
        simp only [System.runStep, hpc, hrunning, if_true]
      refine ⟨_, _, _, rfl, hstep, ⟨hw, by simpa [System.setPc] using hrunning, by simp [System.setPc]⟩, Or.inr ?_⟩
      rw [hs, weight_setPc _ _ (Or.inl hfree)]
      simp [Worker.weight, WorkerPc.weight, hpc]
  | locking =>
      have hstep : s.step (.run w) = some (.internal, (s.lock (.worker w)).setPc w .testing) := by
        rw [hrun]
        simp only [System.runStep, hpc, if_pos hfree]
      refine ⟨_, _, _, rfl, hstep, ⟨hw, by simpa [System.setPc] using hrunning, by simp [System.setPc]⟩, Or.inr ?_⟩
      rw [hs, weight_setPc _ _ (Or.inr rfl)]
      simp [Worker.weight, WorkerPc.weight, hpc]
  | woken =>
      have hstep : s.step (.run w) = some (.internal, (s.lock (.worker w)).setPc w .testing) := by
        rw [hrun]
        simp only [System.runStep, hpc, if_pos hfree]
      refine ⟨_, _, _, rfl, hstep, ⟨hw, by simpa [System.setPc] using hrunning, by simp [System.setPc]⟩, Or.inr ?_⟩
      rw [hs, weight_setPc _ _ (Or.inr rfl)]
      simp [Worker.weight, WorkerPc.weight, hpc]
  | waiting =>
      have hstep : s.step (.timeout w) = some (.internal, s.setPc w .woken) := by
        simp only [System.step, hw, hpc, true_and, if_true]
      refine ⟨_, _, _, rfl, hstep, ⟨hw, by simpa [System.setPc] using hrunning, by simp [System.setPc]⟩, Or.inr ?_⟩
      rw [hs, weight_setPc _ _ (Or.inl hfree)]
      simp [Worker.weight, WorkerPc.weight, hpc]
  -- it writes its batch one by one, and goes back to the loop behind the last
  | appending i =>
      have hi : i ≤ (s.workers w).msgs.length := by
        simp only [Worker.InBatch, hpc] at hbatch
        exact hbatch.1
      by_cases hend : i = (s.workers w).msgs.length
      · have hstep : s.step (.run w) = some (.internal, s.setWorker w { s.workers w with pc := .loopHead, msgs := [] }) := by
          rw [hrun]
          simp only [System.runStep, hpc, if_pos hend]
        refine ⟨_, _, _, rfl, hstep, ⟨hw, by simpa using hrunning, by simp⟩, Or.inr ?_⟩
        rw [hs, weight_setWorker _ _ (Or.inl hfree)]
        simp [Worker.weight, WorkerPc.weight, hpc]
        omega
      · obtain ⟨msg, hmsg⟩ : ∃ msg, (s.workers w).msgs[i]? = some msg := ⟨_, List.getElem?_eq_getElem (by omega)⟩
        let x : Worker := { s.workers w with
          pc := .appending (i + 1), msgCount := ((s.workers w).msgCount + 1) % 2 ^ 32,
          file := LogFdFile.append (s.workers w).file msg (some msg.length) }
        have hstep : s.step (.append w (some msg.length)) = some (.appended w msg (some msg.length), s.setWorker w x) := by
          simp only [System.step, if_pos hw, System.appendStep, hpc, hmsg, x]
        refine ⟨_, _, _, rfl, hstep, ⟨hw, by simpa [x] using hrunning, by simp [x]⟩, Or.inr ?_⟩
        rw [hs, weight_setWorker _ _ (Or.inl hfree)]
        simp [Worker.weight, WorkerPc.weight, hpc, x]
        omega

/-- Whatever state the system is in, some process can bring the drain forward. -/
theorem forward (hlen : len ≤ 2 ^ 31 - 4) (hfound : found ≠ 0) (h : Inv len es s) (hunbroken : Unbroken s) (hlive : Live s w) :
    Forward found s w := by
  cases hholder : s.holder with
  | none => exact forward_free h hlive hholder
  | some p =>
      cases p with
      | client c => exact forward_client hlen h hunbroken hlive hholder
      | worker v =>
          by_cases hv : w = v
          · subst hv
            exact forward_self hlen hfound h hunbroken hlive hholder
          · exact forward_other hlen hfound h hunbroken hlive hv hholder

/-! ## Draining

By induction on the measure, each round making one of the steps above. -/

/-- From any state the invariant holds of, with nobody aborted, a worker that was not stopped can drain the ring. -/
theorem drain (hlen : len ≤ 2 ^ 31 - 4) (hfound : found ≠ 0) (n : Nat) : ∀ s es, s.weight w ≤ n → Inv len es s → Unbroken s →
    Live s w → ∃ fs t, Run Step s fs t ∧ (∀ l ∈ fs, l.1.continues found = true) ∧ Live t w ∧ Drained t w := by
  induction n with
  | zero =>
      intro s es hn h hunbroken hlive
      by_cases hd : Drained s w
      · exact ⟨[], s, .refl, by simp, hlive, hd⟩
      · obtain ⟨a, e, t, ha, hstep, hlive', hcase⟩ := forward hlen hfound h hunbroken hlive
        rcases hcase with hd' | hlt
        · exact ⟨[(a, e)], t, Run.single hstep, by simpa using ha, hlive', hd'⟩
        · omega
  | succ n ih =>
      intro s es hn h hunbroken hlive
      by_cases hd : Drained s w
      · exact ⟨[], s, .refl, by simp, hlive, hd⟩
      · obtain ⟨a, e, t, ha, hstep, hlive', hcase⟩ := forward hlen hfound h hunbroken hlive
        rcases hcase with hd' | hlt
        · exact ⟨[(a, e)], t, Run.single hstep, by simpa using ha, hlive', hd'⟩
        · obtain ⟨fs, u, hrun, hfs, hlive'', hd'⟩ :=
            ih t _ (by omega) (h.step hlen hstep) (hunbroken.step hfound ha hstep) hlive'
          refine ⟨(a, e) :: fs, u, (Run.single hstep).trans hrun, ?_, hlive'', hd'⟩
          intro l hl
          rcases List.mem_cons.mp hl with rfl | hl
          · exact ha
          · exact hfs l hl

/-! ## Stuck

The other side: with a worker aborted inside its section, the mutex is never free again, and whatever needs it
waits. -/

/-- Worker `v` has ended with the mutex in its hands. -/
def Stuck (v : Nat) (s : System) : Prop := (s.workers v).pc = .aborted ∧ s.holder = some (.worker v)

/-- Nothing is put into the ring or taken out of it. -/
def Event.idle : Event → Bool
  | .accepted _ _ | .rejected _ _ | .took _ _ => false
  | _ => true

/-- Setting another worker's state frees nothing. -/
theorem stuck_setWorker {v : Nat} {x : Worker} (h : Stuck v s) (hw : w ≠ v) : Stuck v (s.setWorker w x) :=
  ⟨by rw [System.setWorker_other _ _ (Ne.symm hw)]; exact h.1, h.2⟩

/-- **When a worker has aborted nobody gets the mutex again**: what still runs is outside the section. -/
theorem stuck_step {v : Nat} (hinv : Inv len es s) (h : Stuck v s) (hstep : s.step a = some (e, t)) :
    Stuck v t ∧ t.ring = s.ring ∧ e.idle = true := by
  -- nobody else is inside the section
  have hclient : ∀ c, (s.clients c).pc.inside = false := by
    intro c
    apply Bool.eq_false_iff.mpr
    intro hin
    have hother := hinv.locked.inside_client.mp hin
    rw [h.2] at hother
    cases hother
  have hworker : ∀ w, w ≠ v → (s.workers w).pc.inside = false := by
    intro w hw
    apply Bool.eq_false_iff.mpr
    intro hin
    have hother := hinv.locked.inside_worker.mp hin
    rw [h.2] at hother
    cases hother
    exact hw rfl
  have hself : ∀ w, (s.workers w).pc ≠ .aborted → w ≠ v := by
    rintro w hpc rfl
    exact hpc h.1
  -- one case per action: those inside the section have nobody to take them
  cases a with
  | lock c msg =>
      obtain ⟨⟨hfree, -⟩, -⟩ := Option.ite_none_right_eq_some.mp hstep
      rw [h.2] at hfree
      cases hfree
  | write c =>
      have hout := hclient c
      simp only [System.step, System.writeStep] at hstep
      split at hstep
      · rename_i hpc
        rw [hpc] at hout
        cases hout
      · cases hstep
  | leave c notified =>
      have hout := hclient c
      simp only [System.step, System.leaveStep] at hstep
      split at hstep
      · rename_i hpc
        rw [hpc] at hout
        cases hout
      · rename_i hpc
        rw [hpc] at hout
        cases hout
      · cases hstep
  | fork =>
      cases hstep
      have hv : v < s.forked := hinv.forked (by rw [h.1]; rfl)
      exact ⟨stuck_setWorker h (Nat.ne_of_gt hv), rfl, rfl⟩
  | run w =>
      obtain ⟨-, hrun⟩ := Option.ite_none_right_eq_some.mp hstep
      unfold System.runStep at hrun
      cases hpc : (s.workers w).pc with
      | loopHead =>
          simp only [hpc, Option.some.injEq, Prod.mk.injEq] at hrun
          obtain ⟨rfl, rfl⟩ := hrun
          exact ⟨stuck_setWorker h (hself w (by simp [hpc])), rfl, rfl⟩
      | locking | woken =>
          simp only [hpc, Option.ite_none_right_eq_some] at hrun
          rw [h.2] at hrun
          cases hrun.1
      | appending i =>
          simp only [hpc, Option.ite_none_right_eq_some, Option.some.injEq, Prod.mk.injEq] at hrun
          obtain ⟨-, rfl, rfl⟩ := hrun
          exact ⟨stuck_setWorker h (hself w (by simp [hpc])), rfl, rfl⟩
      | testing | copying _ _ _ =>
          have hout := hworker w (hself w (by simp [hpc]))
          rw [hpc] at hout
          cases hout
      | reading _ | waiting | exited | aborted => simp [hpc] at hrun
  | read w found =>
      obtain ⟨-, hread⟩ := Option.ite_none_right_eq_some.mp hstep
      unfold System.readStep at hread
      split at hread
      · rename_i hpc
        have hout := hworker w (hself w (by simp [hpc]))
        rw [hpc] at hout
        cases hout
      · cases hread
  | append w ret =>
      obtain ⟨-, happ⟩ := Option.ite_none_right_eq_some.mp hstep
      unfold System.appendStep at happ
      dsimp only at happ
      split at happ
      · rename_i hpc
        split at happ
        · cases happ
          exact ⟨stuck_setWorker h (hself w (by simp [hpc])), rfl, rfl⟩
        · cases happ
      · cases happ
  | timeout w =>
      obtain ⟨⟨-, hpc⟩, heq⟩ := Option.ite_none_right_eq_some.mp hstep
      cases heq
      exact ⟨stuck_setWorker h (hself w (by simp [hpc])), rfl, rfl⟩
  | stop w =>
      obtain ⟨-, heq⟩ := Option.ite_none_right_eq_some.mp hstep
      cases heq
      refine ⟨⟨?_, h.2⟩, rfl, rfl⟩
      by_cases hw : v = w
      · subst hw
        rw [System.setWorker_same]
        exact h.1
      · rw [System.setWorker_other _ _ hw]
        exact h.1

/-- And so it is in every run from there, by induction. -/
theorem stuck_run {v : Nat} {fs : List (Action × Event)} (hlen : len ≤ 2 ^ 31 - 4) (hinv : Inv len es s) (h : Stuck v s)
    (hrun : Run Step s fs t) : Inv len (es ++ fs) t ∧ Stuck v t ∧ t.ring = s.ring ∧ ∀ l ∈ fs, l.2.idle = true := by
  induction hrun with
  | refl => exact ⟨by rw [List.append_nil]; exact hinv, h, rfl, fun l hl => absurd hl List.not_mem_nil⟩
  | tail _ hstep ih =>
      obtain ⟨hinv', hstuck, hring, hidle⟩ := ih
      obtain ⟨hstuck', hring', hlast⟩ := stuck_step hinv' hstuck hstep
      refine ⟨by rw [← List.append_assoc]; exact hinv'.step hlen hstep, hstuck', hring'.trans hring, ?_⟩
      intro l hl
      rcases List.mem_append.mp hl with hl | hl
      · exact hidle l hl
      · obtain rfl := List.mem_singleton.mp hl
        exact hlast

/-! ## The result

Which of the two it is, for every state that a run reaches. -/

/-- **The system gets stuck exactly when a worker aborts.** From every state a run can reach in which none has, and for every
    worker that is there, has not been told to stop and has not ended, the processes can go on, with no client entering
    `Output`, to a state where nobody holds the mutex, the ring is empty and the worker has written all it took, whatever
    the new `e.len` is as long as it is not 0. Once one has, it holds the mutex in every continuation, and nothing is put
    into the ring or taken out of it any more. -/
theorem drains {mem : Mem} {ring : RingBuffer} (hlen : len ≤ 2 ^ 31 - 4) (hring : create len mem = some ring)
    (hrun : Run Step (init ring) es s) :
    ((∀ v, (s.workers v).pc ≠ .aborted) → ∀ w found, w < s.forked → (s.workers w).running = true →
      (s.workers w).pc ≠ .exited → found ≠ 0 →
      ∃ fs t, Run Step s fs t ∧ (∀ a e, (a, e) ∈ fs → (∀ c msg, a ≠ .lock c msg) ∧ ∀ v n, a = .read v n → n = found) ∧
        t.holder = none ∧ t.queued = [] ∧ takenBy w (es ++ fs) = (appendedBy w (es ++ fs)).map (·.1)) ∧
    ∀ v, (s.workers v).pc = .aborted → ∀ fs t, Run Step s fs t →
      t.holder = some (.worker v) ∧ t.ring = s.ring ∧ ∀ a e, (a, e) ∈ fs → e.idle = true := by
  have hinv := inv_run hlen hring hrun
  refine ⟨?_, ?_⟩
  -- nobody aborted: the worker drains the ring
  · intro hunbroken w found hw hrunning hpc hfound
    obtain ⟨fs, t, hfs, hcont, -, hfree, hsize, hpending⟩ := drain hlen hfound _ s es le_rfl hinv hunbroken ⟨hw, hrunning, hpc⟩
    have hinv' := inv_run hlen hring (hrun.trans hfs)
    refine ⟨fs, t, hfs, ?_, hfree, ?_, ?_⟩
    · intro a e hmem
      have hallowed := hcont _ hmem
      refine ⟨?_, ?_⟩
      · rintro c msg rfl
        cases hallowed
      · rintro v n rfl
        exact of_decide_eq_true hallowed
    · obtain ⟨q, hrep, -⟩ := hinv'.conserved
      rw [queued_eq hlen hrep]
      rw [intact_eq (by rw [hfree]; rintro _ ⟨⟩)] at hrep
      have hnil : q = [] := List.eq_nil_of_length_eq_zero (hrep.size.symm.trans hsize)
      rw [hnil]
      rfl
    · rw [(hinv'.worker w).took, hpending, List.append_nil]
  -- somebody aborted: nothing more is taken or accepted
  · intro v hpc fs t hfs
    have hholder : s.holder = some (.worker v) := hinv.locked.inside_worker.mp (by rw [hpc]; rfl)
    obtain ⟨-, hstuck, hsame, hidle⟩ := stuck_run hlen hinv ⟨hpc, hholder⟩ hfs
    exact ⟨hstuck.2, hsame, fun a e hmem => hidle (a, e) hmem⟩

/-- Worker 1 finds a 0 where it should read the message of client 0. -/
def findsZero : List Action :=
  [.fork, .fork, .lock 0 [1], .write 0, .leave 0 none, .run 1, .run 1, .run 1, .read 1 0]

/-- The run above, in which one message is in worker 1's batch and another is being pushed; and one that aborts. -/
theorem drains_twoClients : (∃ es s, Run Step (init smallRing) es s ∧ ∃ fs t, Run Step s fs t ∧ t.queued = []) ∧
    ∃ es s, Run Step (init smallRing) es s ∧ accepted es = [[1]] ∧
      ∀ fs t, Run Step s fs t → t.holder = some (.worker 1) ∧ t.ring = s.ring := by
  constructor
  · have hstate : (exec (init smallRing) twoClients).map (fun r => (r.2.forked, (r.2.workers 1).running,
        (r.2.workers 0).pc, (r.2.workers 1).pc)) = some (2, true, .loopHead, .appending 1) := by decide +kernel
    obtain ⟨⟨es, s⟩, hexec, hres⟩ := Option.map_eq_some_iff.mp hstate
    simp only [Prod.mk.injEq] at hres
    obtain ⟨hforked, hrunning, hpc₀, hpc₁⟩ := hres
    have hr := run_exec hexec
    have hunbroken : ∀ v, (s.workers v).pc ≠ .aborted := by
      intro v
      rcases v with _ | _ | v
      · simp [hpc₀]
      · simp [hpc₁]
      · rw [(inv_run (by omega) create_small hr).unforked (v + 2) (by omega)]
        simp [newWorker]
    obtain ⟨fs, t, hfs, -, -, hq, -⟩ :=
      (drains (by omega) create_small hr).1 hunbroken 1 7 (by omega) hrunning (by simp [hpc₁]) (by decide)
    exact ⟨es, s, hr, fs, t, hfs, hq⟩
  · have hstate : (exec (init smallRing) findsZero).map (fun r => (accepted r.1, (r.2.workers 1).pc)) =
        some ([[1]], .aborted) := by decide +kernel
    obtain ⟨⟨es, s⟩, hexec, hres⟩ := Option.map_eq_some_iff.mp hstate
    obtain ⟨hacc, hpc⟩ := Prod.mk.inj hres
    have hr := run_exec hexec
    refine ⟨es, s, hr, hacc, ?_⟩
    intro fs t hfs
    obtain ⟨hholder, hring, -⟩ := (drains (by omega) create_small hr).2 1 hpc fs t hfs
    exact ⟨hholder, hring⟩

end LogServer
end Snippets
