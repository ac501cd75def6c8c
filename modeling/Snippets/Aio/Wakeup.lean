import Snippets.Aio.Waiting

/-!
# `Aio.Wakeup` — which wake-ups are lost

`laio_wait` looks at the table with the signal blocked and lets `sigsuspend` unblock it, so it sleeps only while
one of its requests is unfinished or its signal is still to come. `laio_waitone` looks at the table first and
blocks the signal afterwards: a request that finishes in between is done when it goes to sleep, and its signal
is gone.
-/

namespace Snippets
namespace Aio

open Lib

variable {κ : Type} {s t : Proc κ} {es : List WaitEvent} {e : WaitEvent} {who : Waiter} {p : InfoPtr}

/-! ## The handler

It fills the entry of its request. A request that is done stays done. -/

/-- The table is as long as before, -/
theorem handle_length (r : State) (c : Completion) : (handle r c).infos.length = r.infos.length := by
  simp [handle, aioCompletionHandler]

/-- and the request of the completion is done. -/
theorem isDone_handle_self {r : State} {c : Completion} (h : c.info < r.infos.length) :
    isDone (handle r c) c.info = true := by
  simp [isDone, handle, aioCompletionHandler, List.getElem?_eq_getElem h]

/-- A finished request stays finished. -/
theorem isDone_handle {r : State} (c : Completion) (h : isDone r p = true) : isDone (handle r c) p = true := by
  unfold isDone handle aioCompletionHandler at *
  simp only [List.getElem?_modify]
  cases hp : r.infos[p]? with
  | none => simp [hp] at h
  | some info =>
      by_cases hc : c.info = p
      · simp [hc]
      · simpa [hc, hp] using h

/-- The same after a row of completions, -/
theorem handleAll_length (r : State) (cs : List Completion) : (cs.foldl handle r).infos.length = r.infos.length := by
  induction cs generalizing r with
  | nil => rfl
  | cons c cs ih => rw [List.foldl_cons, ih, handle_length]

/-- after which what was done is done. -/
theorem isDone_handleAll {r : State} (cs : List Completion) (h : isDone r p = true) :
    isDone (cs.foldl handle r) p = true := by
  induction cs generalizing r with
  | nil => exact h
  | cons c cs ih => exact ih (isDone_handle c h)

/-! ## What holds for both calls

Each request of the table is done, in flight, or its completion is pending. Every event moves it on in that
order. -/

/-- A request of the table has been handled, is being worked on, or has its signal waiting. -/
def Accounted (s : Proc κ) : Prop :=
  ∀ kv ∈ s.table, kv.2 < s.requests.infos.length ∧
    (isDone s.requests kv.2 = true ∨ kv.2 ∈ s.inFlight ∨ kv.2 ∈ s.pending.map (·.info))

/-- One more request is finished or its signal is queued. -/
theorem Accounted.handled (h : Accounted s) (c : Completion) :
    Accounted { s with inFlight := s.inFlight.erase c.info, requests := handle s.requests c } := by
  intro kv hkv
  obtain ⟨hlt, hcase⟩ := h kv hkv
  refine ⟨by simpa [handle_length] using hlt, ?_⟩
  by_cases hc : kv.2 = c.info
  · exact Or.inl (by rw [hc]; exact isDone_handle_self (hc ▸ hlt))
  · rcases hcase with hd | hf | hp
    · exact Or.inl (isDone_handle c hd)
    · exact Or.inr (Or.inl ((List.mem_erase_of_ne hc).mpr hf))
    · exact Or.inr (Or.inr hp)

/-- A request that finishes is pending, -/
theorem Accounted.queued (h : Accounted s) (c : Completion) :
    Accounted { s with inFlight := s.inFlight.erase c.info, pending := s.pending ++ [c] } := by
  intro kv hkv
  obtain ⟨hlt, hcase⟩ := h kv hkv
  refine ⟨hlt, ?_⟩
  by_cases hc : kv.2 = c.info
  · exact Or.inr (Or.inr (by simp [hc]))
  · rcases hcase with hd | hf | hp
    · exact Or.inl hd
    · exact Or.inr (Or.inl ((List.mem_erase_of_ne hc).mpr hf))
    · exact Or.inr (Or.inr (by rw [List.map_append]; exact List.mem_append_left _ hp))

/-- one whose signal comes is done. -/
theorem Accounted.delivered {c : Completion} {rest : List Completion} (h : Accounted s) (hp : s.pending = c :: rest)
    (pc : WaitPc κ) : Accounted { s with requests := handle s.requests c, pending := rest, pc := pc } := by
  intro kv hkv
  obtain ⟨hlt, hcase⟩ := h kv hkv
  refine ⟨by simpa [handle_length] using hlt, ?_⟩
  rcases hcase with hd | hf | hm
  · exact Or.inl (isDone_handle c hd)
  · exact Or.inr (Or.inl hf)
  · rw [hp, List.map_cons, List.mem_cons] at hm
    rcases hm with hm | hm
    · exact Or.inl (by rw [hm]; exact isDone_handle_self (hm ▸ hlt))
    · exact Or.inr (Or.inr hm)

/-- Delivering everything pending leaves no signal of the table behind. -/
theorem isDone_of_pending {r : State} {cs : List Completion} (hlt : p < r.infos.length) (hp : p ∈ cs.map (·.info)) :
    isDone (cs.foldl handle r) p = true := by
  induction cs generalizing r with
  | nil => cases hp
  | cons c cs ih =>
      rw [List.foldl_cons]
      rcases List.mem_cons.mp hp with rfl | hp
      · exact isDone_handleAll cs (isDone_handle_self hlt)
      · exact ih (by rwa [handle_length]) hp

/-- When the signal is unblocked all that is pending is delivered, -/
theorem Accounted.unblock (h : Accounted s) (pc : WaitPc κ) : Accounted (s.unblock.goto pc) := by
  intro kv hkv
  obtain ⟨hlt, hcase⟩ := h kv hkv
  refine ⟨by simpa [Proc.unblock, Proc.goto, handleAll_length] using hlt, ?_⟩
  rcases hcase with hd | hf | hp
  · exact Or.inl (isDone_handleAll _ hd)
  · exact Or.inr (Or.inl hf)
  · exact Or.inl (isDone_of_pending hlt hp)

/-- and the call's own steps touch none of it. -/
theorem Accounted.same {s' : Proc κ} (h : Accounted s) (htable : s'.table = s.table)
    (hrequests : s'.requests = s.requests) (hflight : s'.inFlight = s.inFlight) (hpending : s'.pending = s.pending) :
    Accounted s' := by
  intro kv hkv
  rw [hrequests, hflight, hpending]
  exact h kv (htable ▸ hkv)

/-! ## `laio_wait`

It blocks the signal before it looks, so a request it found unfinished is in flight or pending when it sleeps. -/

/-- What `laio_wait` knows where it stands. -/
def WaitKnows (s : Proc κ) : Prop :=
  match s.pc with
  | .entry => s.blocked = false ∧ s.pending = []
  | .scanning i => s.blocked = true ∧ ∀ j kv, j < i → s.table[j]? = some kv → isDone s.requests kv.2 = true
  | .suspended => s.blocked = true ∧ ∃ kv ∈ s.table, isDone s.requests kv.2 = false
  | .leaving res => s.blocked = true ∧ res = none ∧ ∀ kv ∈ s.table, isDone s.requests kv.2 = true
  | .returned res => res = none ∧ ∀ kv ∈ s.table, isDone s.requests kv.2 = true
  | .blocking => False
  | .rescanning _ => False

/-- The invariant of `laio_wait`. -/
def WaitInv (s : Proc κ) : Prop := Accounted s ∧ WaitKnows s

/-- A scan that ran through has seen every entry, -/
theorem all_of_scanned {P : κ × InfoPtr → Prop} {table : List (κ × InfoPtr)} {i : Nat} (hi : table[i]? = none)
    (h : ∀ j kv, j < i → table[j]? = some kv → P kv) : ∀ kv ∈ table, P kv := by
  intro kv hkv
  obtain ⟨j, hj⟩ := List.mem_iff_getElem?.mp hkv
  have hlen : table.length ≤ i := List.getElem?_eq_none_iff.mp hi
  have hjlt : j < table.length := (List.getElem?_eq_some_iff.mp hj).1
  exact h j kv (by omega) hj

/-- and one step sees one more. -/
theorem scanned_succ {P : κ × InfoPtr → Prop} {table : List (κ × InfoPtr)} {i : Nat} {kv : κ × InfoPtr}
    (hi : table[i]? = some kv) (hkv : P kv) (h : ∀ j kv, j < i → table[j]? = some kv → P kv) :
    ∀ j kv, j < i + 1 → table[j]? = some kv → P kv := by
  intro j kv' hj hkv'
  rcases Nat.lt_succ_iff_lt_or_eq.mp hj with hj | rfl
  · exact h j kv' hj hkv'
  · obtain rfl : kv = kv' := Option.some.inj (hi.symm.trans hkv')
    exact hkv

/-- Each statement of `laio_wait` keeps what it knows. -/
theorem WaitInv.own (h : WaitInv s) (hstep : s.waitStep = some t) : WaitInv t := by
  obtain ⟨hacc, hknows⟩ := h
  unfold Proc.waitStep at hstep
  unfold WaitKnows at hknows
  cases hpc : s.pc with
  | entry =>
      simp only [hpc, Option.some.injEq] at hstep
      subst hstep
      exact ⟨hacc.same rfl rfl rfl rfl, rfl, fun j kv hj => absurd hj (Nat.not_lt_zero j)⟩
  | scanning i =>
      simp only [hpc] at hstep hknows
      obtain ⟨hblocked, hscanned⟩ := hknows
      cases hi : s.table[i]? with
      | none =>
          simp only [hi, Option.some.injEq] at hstep
          subst hstep
          exact ⟨hacc.same rfl rfl rfl rfl, hblocked, rfl, all_of_scanned hi hscanned⟩
      | some kv =>
          simp only [hi, Option.some.injEq] at hstep
          subst hstep
          refine ⟨hacc.same rfl rfl rfl rfl, ?_⟩
          cases hd : isDone s.requests kv.2 with
          | true => exact ⟨hblocked, scanned_succ hi hd hscanned⟩
          | false => exact ⟨hblocked, kv, List.mem_of_getElem? hi, hd⟩
  | leaving res =>
      simp only [hpc, Option.some.injEq] at hstep hknows
      subst hstep
      exact ⟨hacc.unblock _, hknows.2.1, fun kv hkv => isDone_handleAll _ (hknows.2.2 kv hkv)⟩
  | _ => simp [hpc] at hstep

/-- A request that finishes, or a signal that is delivered, keeps what `laio_wait` knows. -/
theorem WaitInv.step (h : WaitInv s) (hstep : s.step .wait e = some t) : WaitInv t := by
  cases e with
  | own => exact h.own hstep
  -- the handler runs only while the signal is not blocked
  | handled c =>
      simp only [Proc.step, Option.ite_none_right_eq_some, Option.some.injEq] at hstep
      obtain ⟨⟨-, hblocked⟩, rfl⟩ := hstep
      refine ⟨h.1.handled c, ?_⟩
      have hknows := h.2
      unfold WaitKnows at hknows ⊢
      cases hpc : s.pc <;> simp only [hpc, hblocked] at hknows ⊢
      · exact hknows
      · exact absurd hknows.1 (by simp)
      · exact absurd hknows.1 (by simp)
      · exact absurd hknows.1 (by simp)
      · exact ⟨hknows.1, fun kv hkv => isDone_handle c (hknows.2 kv hkv)⟩
  -- a signal that is blocked stays pending
  | queued c =>
      simp only [Proc.step, Option.ite_none_right_eq_some, Option.some.injEq] at hstep
      obtain ⟨⟨-, hblocked⟩, rfl⟩ := hstep
      refine ⟨h.1.queued c, ?_⟩
      have hknows := h.2
      unfold WaitKnows at hknows ⊢
      cases hpc : s.pc <;> simp only [hpc, hblocked] at hknows ⊢ <;> first | exact hknows | simp at hknows
  -- `sigsuspend` takes one signal, and the call looks from the beginning
  | woken =>
      simp only [Proc.step] at hstep
      split at hstep
      · rename_i c rest hpc hp
        obtain rfl := Option.some.inj hstep
        have hknows := h.2
        simp only [WaitKnows, hpc] at hknows
        exact ⟨h.1.delivered hp _, hknows.1, fun j kv hj => absurd hj (Nat.not_lt_zero j)⟩
      · cases hstep
  | interrupted =>
      simp only [Proc.step] at hstep
      split at hstep
      · rename_i hpc
        obtain rfl := Option.some.inj hstep
        have hknows := h.2
        simp only [WaitKnows, hpc] at hknows
        exact ⟨h.1.same rfl rfl rfl rfl, hknows.1, fun j kv hj => absurd hj (Nat.not_lt_zero j)⟩
      · cases hstep

/-- The requests are accounted for when the call begins, -/
theorem Proc.Ready.accounted (h : s.Ready) : Accounted s := fun kv hkv =>
  ⟨(h.submitted kv hkv).1, (h.submitted kv hkv).2.imp_right Or.inl⟩

/-- so the invariant holds there, -/
theorem Proc.Ready.waitInv (h : s.Ready) : WaitInv s :=
  ⟨h.accounted, by simp only [WaitKnows, h.pc]; exact ⟨h.blocked, h.pending⟩⟩

/-- and in every state of a run. -/
theorem waitInv_run (hs : s.Ready) (hrun : Run (WaitStep .wait) s es t) : WaitInv t :=
  hrun.invariant (fun _ _ _ hinv hst => hinv.step hst) hs.waitInv

/-- Statements and deliveries left before `laio_wait` returns, once no request of its table is in flight. -/
def waitWeight (s : Proc κ) : Nat :=
  s.pending.length * (s.table.length + 3) +
    match s.pc with
    | .entry => s.table.length + 3
    | .scanning i => s.table.length - i + 2
    | .leaving _ => 1
    | _ => 0

/-- While no request of the table is in flight, the call can go on, and comes closer to its end. -/
theorem waitForward (h : WaitInv s) (hflight : ∀ kv ∈ s.table, kv.2 ∉ s.inFlight)
    (hpc : ∀ res, s.pc ≠ .returned res) :
    ∃ e t, (e = .own ∨ e = .woken) ∧ s.step .wait e = some t ∧ waitWeight t < waitWeight s ∧
      t.table = s.table ∧ t.inFlight = s.inFlight := by
  obtain ⟨hacc, hknows⟩ := h
  unfold WaitKnows at hknows
  cases hs : s.pc with
  | entry =>
      refine ⟨.own, s.block.goto (.scanning 0), Or.inl rfl, by simp [Proc.step, Proc.waitStep, hs], ?_, rfl, rfl⟩
      simp [waitWeight, hs, Proc.goto, Proc.block]
  | scanning i =>
      cases hi : s.table[i]? with
      | none =>
          refine ⟨.own, s.goto (.leaving none), Or.inl rfl, by simp [Proc.step, Proc.waitStep, hs, hi], ?_, rfl, rfl⟩
          simp [waitWeight, hs, Proc.goto]
      | some kv =>
          have hlt : i < s.table.length := (List.getElem?_eq_some_iff.mp hi).1
          refine ⟨.own, s.goto (if isDone s.requests kv.2 then .scanning (i + 1) else .suspended), Or.inl rfl,
            by simp [Proc.step, Proc.waitStep, hs, hi], ?_, rfl, rfl⟩
          cases isDone s.requests kv.2 with
          | true =>
              simp [waitWeight, hs, Proc.goto]
              omega
          | false => simp [waitWeight, hs, Proc.goto]
  -- what it sleeps on has finished, so its signal is pending and wakes it
  | suspended =>
      simp only [hs] at hknows
      obtain ⟨-, kv, hkv, hd⟩ := hknows
      obtain ⟨-, hcase⟩ := hacc kv hkv
      have hp : kv.2 ∈ s.pending.map (·.info) := by
        rcases hcase with hd' | hf | hp
        · rw [hd] at hd'
          cases hd'
        · exact absurd hf (hflight kv hkv)
        · exact hp
      cases hpending : s.pending with
      | nil => simp [hpending] at hp
      | cons c rest =>
          refine ⟨.woken, { s with requests := handle s.requests c, pending := rest, pc := .scanning 0 }, Or.inr rfl,
            by simp [Proc.step, hs, hpending, Proc.afterSuspend], ?_, rfl, rfl⟩
          simp only [waitWeight, hs, hpending, List.length_cons, Nat.succ_mul]
          omega
  | leaving res =>
      refine ⟨.own, s.unblock.goto (.returned res), Or.inl rfl, by simp [Proc.step, Proc.waitStep, hs], ?_, rfl, rfl⟩
      simp [waitWeight, hs, Proc.goto, Proc.unblock]
  | returned res => exact absurd hs (hpc res)
  | blocking => simp [hs] at hknows
  | rescanning i => simp [hs] at hknows

/-- With all requests finished, the call's own steps and the pending signals take it to its end. -/
theorem wait_returns (n : Nat) : ∀ s : Proc κ, waitWeight s ≤ n → WaitInv s → (∀ kv ∈ s.table, kv.2 ∉ s.inFlight) →
    ∃ es t, Run (WaitStep .wait) s es t ∧ (∀ e ∈ es, e = .own ∨ e = .woken) ∧ ∃ res, t.pc = .returned res := by
  induction n with
  | zero =>
      intro s hn h hflight
      by_cases hpc : ∃ res, s.pc = .returned res
      · exact ⟨[], s, .refl, by simp, hpc⟩
      · obtain ⟨e, t, -, -, hlt, -⟩ := waitForward h hflight (fun res hres => hpc ⟨res, hres⟩)
        omega
  | succ n ih =>
      intro s hn h hflight
      by_cases hpc : ∃ res, s.pc = .returned res
      · exact ⟨[], s, .refl, by simp, hpc⟩
      · obtain ⟨e, t, he, hstep, hlt, htable, hfl⟩ := waitForward h hflight (fun res hres => hpc ⟨res, hres⟩)
        obtain ⟨es, u, hrun, hes, hu⟩ := ih t (by omega) (h.step hstep) (by rw [htable, hfl]; exact hflight)
        exact ⟨e :: es, u, (Run.single hstep).trans hrun, by simpa using ⟨he, hes⟩, hu⟩

/-- **`laio_wait` loses no wake-up.** However requests finish while it runs: when it returns every request of the
    table is done; while it sleeps with nothing pending, a request of its table is still in flight; and once none
    is, its own statements and the signals already pending take it to its return. -/
theorem wait_wakes (hs : s.Ready) (hrun : Run (WaitStep .wait) s es t) :
    (∀ res, t.pc = .returned res → ∀ kv ∈ t.table, isDone t.requests kv.2 = true) ∧
    (t.pc = .suspended → t.pending = [] → ∃ kv ∈ t.table, kv.2 ∈ t.inFlight) ∧
    ((∀ kv ∈ t.table, kv.2 ∉ t.inFlight) →
      ∃ fs u, Run (WaitStep .wait) t fs u ∧ (∀ e ∈ fs, e = .own ∨ e = .woken) ∧ ∃ res, u.pc = .returned res) := by
  have hinv := waitInv_run hs hrun
  obtain ⟨hacc, hknows⟩ := hinv
  refine ⟨?_, ?_, fun hflight => wait_returns _ t (Nat.le_refl _) ⟨hacc, hknows⟩ hflight⟩
  · intro res hpc
    simp only [WaitKnows, hpc] at hknows
    exact hknows.2
  · intro hpc hpending
    simp only [WaitKnows, hpc] at hknows
    obtain ⟨-, kv, hkv, hd⟩ := hknows
    refine ⟨kv, hkv, ?_⟩
    rcases (hacc kv hkv).2 with hd' | hf | hp
    · rw [hd] at hd'
      cases hd'
    · exact hf
    · simp [hpending] at hp

/-! ## `laio_waitone`

It looks first and blocks the signal then. What the handler did in between is what it can miss. -/

/-- The requests handled in two parts of a run. -/
@[simp] theorem handledOf_append (es fs : List WaitEvent) : handledOf (es ++ fs) = handledOf es ++ handledOf fs := by
  induction es with
  | nil => rfl
  | cons e es ih => cases e <;> simp [handledOf, ih]

/-- What `laio_waitone` knows where it stands, `hs` being the requests handled with the signal unblocked. -/
def WaitoneKnows (hs : List InfoPtr) (s : Proc κ) : Prop :=
  match s.pc with
  | .entry => s.blocked = false ∧ s.pending = []
  | .scanning i => s.blocked = false ∧ s.pending = [] ∧
      ∀ j kv, j < i → s.table[j]? = some kv → isDone s.requests kv.2 = true → kv.2 ∈ hs
  | .blocking => s.blocked = false ∧ s.table ≠ [] ∧ ∀ kv ∈ s.table, isDone s.requests kv.2 = true → kv.2 ∈ hs
  | .suspended => s.blocked = true ∧ ∀ kv ∈ s.table, isDone s.requests kv.2 = true → kv.2 ∈ hs
  | .rescanning i => s.blocked = true ∧ ∀ j kv, j < i → s.table[j]? = some kv → isDone s.requests kv.2 = false
  | .leaving res => s.blocked = true ∧ ∃ kv ∈ s.table, res = some kv ∧ isDone s.requests kv.2 = true
  | .returned res => (res = none ∧ s.table = []) ∨ ∃ kv ∈ s.table, res = some kv ∧ isDone s.requests kv.2 = true

/-- What holds of `laio_waitone` after the events so far. -/
structure WaitoneInv (es : List WaitEvent) (s : Proc κ) : Prop where
  accounted : Accounted s
  handled : ∀ kv ∈ s.table, kv.2 ∈ handledOf es → isDone s.requests kv.2 = true
  knows : WaitoneKnows (handledOf es) s

/-- Its own steps keep that. -/
theorem WaitoneInv.own (h : WaitoneInv es s) (hstep : s.waitoneStep = some t) : WaitoneInv (es ++ [.own]) t := by
  obtain ⟨hacc, hhandled, hknows⟩ := h
  have hes : handledOf (es ++ [.own]) = handledOf es := by simp [handledOf]
  unfold Proc.waitoneStep at hstep
  unfold WaitoneKnows at hknows
  -- one case for each place of the call
  cases hpc : s.pc with
  | entry =>
      simp only [hpc, Option.some.injEq] at hstep hknows
      subst hstep
      exact ⟨hacc.same rfl rfl rfl rfl, hes ▸ hhandled, hknows.1, hknows.2, fun j kv hj => absurd hj (Nat.not_lt_zero j)⟩
  | scanning i =>
      simp only [hpc] at hstep hknows
      obtain ⟨hblocked, hpending, hscanned⟩ := hknows
      cases hi : s.table[i]? with
      | none =>
          simp only [hi, Option.some.injEq] at hstep
          subst hstep
          refine ⟨hacc.same rfl rfl rfl rfl, hes ▸ hhandled, ?_⟩
          rw [hes]
          by_cases htable : s.table = []
          · simp only [htable, if_true]
            exact Or.inl ⟨rfl, htable⟩
          · simp only [htable, if_false]
            exact ⟨hblocked, htable, all_of_scanned hi hscanned⟩
      | some kv =>
          simp only [hi, Option.some.injEq] at hstep
          subst hstep
          refine ⟨hacc.same rfl rfl rfl rfl, hes ▸ hhandled, ?_⟩
          rw [hes]
          cases hd : isDone s.requests kv.2 with
          | true => exact Or.inr ⟨kv, List.mem_of_getElem? hi, rfl, hd⟩
          | false =>
              have hkv : isDone s.requests kv.2 = true → kv.2 ∈ handledOf es := fun hd' => by simp [hd] at hd'
              exact ⟨hblocked, hpending, scanned_succ hi hkv hscanned⟩
  | blocking =>
      simp only [hpc, Option.some.injEq] at hstep hknows
      subst hstep
      exact ⟨hacc.same rfl rfl rfl rfl, hes ▸ hhandled, rfl, hes ▸ hknows.2.2⟩
  | rescanning i =>
      simp only [hpc] at hstep hknows
      obtain ⟨hblocked, hscanned⟩ := hknows
      cases hi : s.table[i]? with
      | none =>
          simp only [hi, Option.some.injEq] at hstep
          subst hstep
          refine ⟨hacc.same rfl rfl rfl rfl, hes ▸ hhandled, hblocked, fun kv hkv hd => ?_⟩
          have hnot : isDone s.requests kv.2 = false := all_of_scanned hi hscanned kv hkv
          have hd' : isDone s.requests kv.2 = true := hd
          simp [hnot] at hd'
      | some kv =>
          simp only [hi, Option.some.injEq] at hstep
          subst hstep
          refine ⟨hacc.same rfl rfl rfl rfl, hes ▸ hhandled, ?_⟩
          cases hd : isDone s.requests kv.2 with
          | true => exact ⟨hblocked, kv, List.mem_of_getElem? hi, rfl, hd⟩
          | false => exact ⟨hblocked, scanned_succ hi hd hscanned⟩
  | leaving res =>
      simp only [hpc, Option.some.injEq] at hstep hknows
      subst hstep
      obtain ⟨-, kv, hkv, hres, hd⟩ := hknows
      exact ⟨hacc.unblock _, fun kv hkv hmem => isDone_handleAll _ (hhandled kv hkv (hes ▸ hmem)),
        Or.inr ⟨kv, hkv, hres, isDone_handleAll _ hd⟩⟩
  | _ => simp [hpc] at hstep

theorem WaitoneInv.step (h : WaitoneInv es s) (hstep : s.step .waitone e = some t) : WaitoneInv (es ++ [e]) t := by
  obtain ⟨hacc, hhandled, hknows⟩ := h
  cases e with
  | own => exact WaitoneInv.own ⟨hacc, hhandled, hknows⟩ hstep
  | handled c =>
      simp only [Proc.step, Option.ite_none_right_eq_some, Option.some.injEq] at hstep
      obtain ⟨⟨-, hblocked⟩, rfl⟩ := hstep
      have hes : handledOf (es ++ [.handled c]) = handledOf es ++ [c.info] := by simp [handledOf]
      -- a request that is done now was done before, or its handler has just run
      have hnew : ∀ kv ∈ s.table, (isDone s.requests kv.2 = true → kv.2 ∈ handledOf es) →
          isDone (handle s.requests c) kv.2 = true → kv.2 ∈ handledOf es ++ [c.info] := by
        intro kv _ hold hd
        by_cases hc : kv.2 = c.info
        · simp [hc]
        · refine List.mem_append_left _ (hold ?_)
          have hne : c.info ≠ kv.2 := Ne.symm hc
          simpa [isDone, handle, aioCompletionHandler, List.getElem?_modify, hne] using hd
      refine ⟨hacc.handled c, ?_, ?_⟩
      · intro kv hkv hmem
        rw [hes, List.mem_append, List.mem_singleton] at hmem
        rcases hmem with hmem | hmem
        · exact isDone_handle c (hhandled kv hkv hmem)
        · have hlt := (hacc kv hkv).1
          show isDone (handle s.requests c) kv.2 = true
          rw [hmem]
          exact isDone_handle_self (hmem ▸ hlt)
      · rw [hes]
        unfold WaitoneKnows at hknows ⊢
        cases hpc : s.pc <;> simp only [hpc, hblocked] at hknows ⊢
        · exact hknows
        · obtain ⟨-, hpending, hscanned⟩ := hknows
          exact ⟨trivial, hpending, fun j kv hj hi => hnew kv (List.mem_of_getElem? hi) (hscanned j kv hj hi)⟩
        · exact ⟨trivial, hknows.2.1, fun kv hkv => hnew kv hkv (hknows.2.2 kv hkv)⟩
        · exact absurd hknows.1 (by simp)
        · exact absurd hknows.1 (by simp)
        · exact absurd hknows.1 (by simp)
        · exact hknows.imp_right fun ⟨kv, hkv, hres, hd⟩ => ⟨kv, hkv, hres, isDone_handle c hd⟩
  -- a signal that is blocked stays pending
  | queued c =>
      simp only [Proc.step, Option.ite_none_right_eq_some, Option.some.injEq] at hstep
      obtain ⟨⟨-, hblocked⟩, rfl⟩ := hstep
      have hes : handledOf (es ++ [.queued c]) = handledOf es := by simp [handledOf]
      refine ⟨hacc.queued c, hes ▸ hhandled, ?_⟩
      rw [hes]
      unfold WaitoneKnows at hknows ⊢
      cases hpc : s.pc <;> simp only [hpc, hblocked] at hknows ⊢ <;> first | exact hknows | simp at hknows
  -- it wakes and looks once more, with the signal blocked
  | woken =>
      have hes : handledOf (es ++ [.woken]) = handledOf es := by simp [handledOf]
      simp only [Proc.step] at hstep
      split at hstep
      · rename_i c rest hpc hp
        obtain rfl := Option.some.inj hstep
        simp only [WaitoneKnows, hpc] at hknows
        exact ⟨hacc.delivered hp _, fun kv hkv hmem => isDone_handle c (hhandled kv hkv (hes ▸ hmem)), hknows.1,
          fun j kv hj => absurd hj (Nat.not_lt_zero j)⟩
      · cases hstep
  | interrupted =>
      have hes : handledOf (es ++ [.interrupted]) = handledOf es := by simp [handledOf]
      simp only [Proc.step] at hstep
      split at hstep
      · rename_i hpc
        obtain rfl := Option.some.inj hstep
        simp only [WaitoneKnows, hpc] at hknows
        exact ⟨hacc.same rfl rfl rfl rfl, hes ▸ hhandled, hknows.1, fun j kv hj => absurd hj (Nat.not_lt_zero j)⟩
      · cases hstep

/-- So it holds in every state of a run. -/
theorem waitoneInv_run (hs : s.Ready) (hrun : Run (WaitStep .waitone) s es t) : WaitoneInv es t := by
  refine hrun.invariantTrace (fun _ _ _ _ hinv hst => hinv.step hst) ⟨hs.accounted, ?_, ?_⟩
  · intro kv _ hmem
    cases hmem
  · simp only [WaitoneKnows, hs.pc]
    exact ⟨hs.blocked, hs.pending⟩

/-- **`laio_waitone` loses exactly the wake-ups that come while it looks.** What it returns is a finished request of
    its table, or nothing for an empty one. When it sleeps, a request of its table is already done just when one
    was handled after the call began with the signal not yet blocked; and when it sleeps with nothing pending and
    no request of the table in flight, so that none can wake it any more, every one of them was. -/
theorem waitone_loses_wakeup (hs : s.Ready) (hrun : Run (WaitStep .waitone) s es t) :
    (∀ res, t.pc = .returned res → (res = none ∧ t.table = []) ∨
      ∃ kv ∈ t.table, res = some kv ∧ isDone t.requests kv.2 = true) ∧
    (t.pc = .suspended → ((∃ kv ∈ t.table, isDone t.requests kv.2 = true) ↔ ∃ kv ∈ t.table, kv.2 ∈ handledOf es)) ∧
    (t.pc = .suspended → t.pending = [] → (∀ kv ∈ t.table, kv.2 ∉ t.inFlight) →
      ∀ kv ∈ t.table, kv.2 ∈ handledOf es) := by
  obtain ⟨hacc, hhandled, hknows⟩ := waitoneInv_run hs hrun
  refine ⟨?_, ?_, ?_⟩
  · intro res hpc
    simpa only [WaitoneKnows, hpc] using hknows
  · intro hpc
    simp only [WaitoneKnows, hpc] at hknows
    exact ⟨fun ⟨kv, hkv, hd⟩ => ⟨kv, hkv, hknows.2 kv hkv hd⟩, fun ⟨kv, hkv, hm⟩ => ⟨kv, hkv, hhandled kv hkv hm⟩⟩
  · intro hpc hpending hflight kv hkv
    simp only [WaitoneKnows, hpc] at hknows
    rcases (hacc kv hkv).2 with hd | hf | hp
    · exact hknows.2 kv hkv hd
    · exact absurd hf (hflight kv hkv)
    · simp [hpending] at hp

/-! ## A request that finishes at the wrong moment

One request, whose signal comes between the look and the blocking. -/

/-- One request, submitted and in a table of its own. -/
def oneRequest : Proc Nat where
  requests := ⟨{ fd := 3, mode := .read, infos := Vector.replicate maxInfoSize none },
    [{ aiocb := ⟨3, 1, 0⟩, buf := some [0], bufLen := 1, idx := 0 }]⟩
  inFlight := [0]
  blocked := false
  pending := []
  table := [(1, 0)]
  pc := .entry

/-- The call can begin there. -/
theorem oneRequest_ready : oneRequest.Ready := ⟨rfl, rfl, rfl, by simp [oneRequest]⟩

/-- An executed list of events is a run. -/
theorem run_exec (h : Proc.exec who s es = some t) : Run (WaitStep who) s es t := by
  induction es generalizing s with
  | nil =>
      obtain rfl := Option.some.inj h
      exact Run.refl
  | cons e es ih =>
      obtain ⟨u, hu, hrest⟩ := Option.bind_eq_some_iff.mp h
      exact (Run.single hu).trans (ih hrest)

/-- The request finishes after `laio_waitone` has looked at it: it is done, and the call sleeps on with nothing
    left to wake it. -/
theorem waitone_sleeps : ∃ t : Proc Nat, Run (WaitStep .waitone) oneRequest [.own, .own, .handled ⟨0, 0, 1⟩, .own, .own] t ∧
    t.pc = .suspended ∧ t.pending = [] ∧ t.inFlight = [] ∧ ∃ kv ∈ t.table, isDone t.requests kv.2 = true := by
  have hrun : (Proc.exec .waitone oneRequest [.own, .own, .handled ⟨0, 0, 1⟩, .own, .own]).map
      (fun t => (t.pc, t.pending, t.inFlight, t.table)) = some (.suspended, [], [], [(1, 0)]) := by decide
  obtain ⟨t, hexec, hres⟩ := Option.map_eq_some_iff.mp hrun
  simp only [Prod.mk.injEq] at hres
  obtain ⟨hpc, hpending, hflight, htable⟩ := hres
  obtain ⟨-, hiff, hall⟩ := waitone_loses_wakeup oneRequest_ready (run_exec hexec)
  have hkv : ((1, 0) : Nat × InfoPtr) ∈ t.table := by simp [htable]
  exact ⟨t, run_exec hexec, hpc, hpending, hflight,
    (hiff hpc).mpr ⟨_, hkv, hall hpc hpending (by simp [hflight]) _ hkv⟩⟩

/-- The same moment under `laio_wait`: the signal is queued, and wakes it. -/
theorem wait_wakes_oneRequest : ∃ t : Proc Nat, Run (WaitStep .wait) oneRequest [.own, .own, .queued ⟨0, 0, 1⟩] t ∧
    t.pc = .suspended ∧
    ∃ fs u, Run (WaitStep .wait) t fs u ∧ (∀ e ∈ fs, e = .own ∨ e = .woken) ∧ ∃ res, u.pc = .returned res := by
  have hrun : (Proc.exec .wait oneRequest [.own, .own, .queued ⟨0, 0, 1⟩]).map (fun t => (t.pc, t.inFlight)) =
      some (.suspended, []) := by decide
  obtain ⟨t, hexec, hres⟩ := Option.map_eq_some_iff.mp hrun
  simp only [Prod.mk.injEq] at hres
  obtain ⟨hpc, hflight⟩ := hres
  obtain ⟨-, -, hreturns⟩ := wait_wakes oneRequest_ready (run_exec hexec)
  exact ⟨t, run_exec hexec, hpc, hreturns (by simp [hflight])⟩

end Aio
end Snippets
