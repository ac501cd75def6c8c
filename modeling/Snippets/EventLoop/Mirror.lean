import Snippets.EventLoop.Model

/-!
# `EventLoop.Mirror` — the poller's map is what the kernel watches

As long as the program keeps the rules (`Allowed`), the `channels_` of the poller and the kernel's interest set are
images of each other, no assert of the loop fails and no destroyed channel is used. So whatever the kernel reports finds
its channel, and a channel is told only what it asked for.
-/

namespace Snippets
namespace EventLoop

open Lib

variable {s s' : State} {c : ChannelId} {ch ch' : Channel} {fd : Fd} {cmd : Command} {cmds : List Command}

/-- The kernel watches the descriptors of the registered channels, for what the channels ask for. -/
structure Mirror (s : State) : Prop where
  absent : ∀ fd, s.poller.channels fd = none → s.kernel.interest fd = none
  present : ∀ fd c, s.poller.channels fd = some c → ∃ ch, s.heap c = some ch ∧ ch.fd = fd ∧
    s.kernel.interest fd = some ch.events ∧ s.kernel.opened fd = true

/-- In the beginning nothing is registered and nothing watched. -/
theorem mirror_init (opened : Fd → Bool) : Mirror (init opened) := by
  refine ⟨fun _ _ => rfl, fun fd c h => ?_⟩
  cases h

/-! ## Plumbing

What the calls of a channel leave alone: everything but the heap, the poller's map and the interest set. -/

/-- The channel itself, -/
@[simp] theorem setChannel_heap_self (s : State) (c : ChannelId) (ch : Option Channel) :
    (s.setChannel c ch).heap c = ch := by
  simp [State.setChannel]

/-- another one, -/
theorem setChannel_heap_other (s : State) {c d : ChannelId} (ch : Option Channel) (h : d ≠ c) :
    (s.setChannel c ch).heap d = s.heap d := by
  simp [State.setChannel, h]

/-- the poller -/
@[simp] theorem setChannel_poller (s : State) (c : ChannelId) (ch : Option Channel) :
    (s.setChannel c ch).poller = s.poller := rfl

/-- and the kernel. -/
@[simp] theorem setChannel_kernel (s : State) (c : ChannelId) (ch : Option Channel) :
    (s.setChannel c ch).kernel = s.kernel := rfl

/-- What a command leaves alone. -/
structure Frame (s s' : State) : Prop where
  pc : s'.pc = s.pc
  eventsSize : s'.poller.eventsSize = s.poller.eventsSize
  idle : s'.idle = s.idle

/-- Nothing happened to the rest, -/
theorem Frame.refl (s : State) : Frame s s := ⟨rfl, rfl, rfl⟩

/-- step after step. -/
theorem Frame.trans {s'' : State} (h₁ : Frame s s') (h₂ : Frame s' s'') : Frame s s'' :=
  ⟨h₂.pc.trans h₁.pc, h₂.eventsSize.trans h₁.eventsSize, h₂.idle.trans h₁.idle⟩

/-- An update of the poller, -/
theorem frame_updateChannel (s : State) (c : ChannelId) (ch : Channel) : Frame s (s.updateChannel c ch) := by
  unfold State.updateChannel
  split <;> exact ⟨rfl, rfl, rfl⟩

/-- a change of the events, -/
theorem frame_changeEvents {change : Mask → Mask} (h : s.changeEvents c change = some s') : Frame s s' := by
  obtain ⟨ch, -, h⟩ := Option.bind_eq_some_iff.mp h
  obtain rfl := Option.some.inj h
  have h₁ : Frame s (s.setChannel c (some { ch with events := change ch.events })) := ⟨rfl, rfl, rfl⟩
  exact h₁.trans (frame_updateChannel _ _ _)

/-- a command, -/
theorem frame_exec (h : s.exec cmd = some s') : Frame s s' := by
  cases cmd with
  | setCallback c stage =>
      cases stage
      all_goals
        obtain ⟨ch, -, rfl⟩ := Option.map_eq_some_iff.mp h
        exact ⟨rfl, rfl, rfl⟩
  | enableReading c | disableReading c | enableWriting c | disableWriting c | disableAll c =>
      simp only [State.exec] at h
      exact frame_changeEvents h
  | remove c =>
      simp only [State.exec, State.removeChannel, Option.bind_eq_bind, Option.bind_eq_some_iff] at h
      obtain ⟨ch, -, -, -, h⟩ := h
      obtain rfl := Option.some.inj h
      exact ⟨rfl, rfl, rfl⟩
  | _ =>
      obtain rfl := Option.some.inj h
      exact ⟨rfl, rfl, rfl⟩

/-- and a list of them. -/
theorem frame_execAll (h : s.execAll cmds = some s') : Frame s s' := by
  induction cmds generalizing s with
  | nil =>
      obtain rfl := Option.some.inj h
      exact Frame.refl s
  | cons cmd cmds ih =>
      obtain ⟨s₁, h₁, h₂⟩ := Option.bind_eq_some_iff.mp h
      exact (frame_exec h₁).trans (ih h₂)

/-! ## One command

Each keeps the mirror when it is allowed. `changeEvents` is the large one: it registers a channel or changes its
mask. -/

namespace Mirror

/-- A registered channel is registered under its own descriptor, and only there. -/
theorem fd_eq (h : Mirror s) (hch : s.heap c = some ch) (hreg : s.poller.channels fd = some c) : ch.fd = fd := by
  obtain ⟨ch', hch', hfd, -⟩ := h.present fd c hreg
  obtain rfl := Option.some.inj (hch.symm.trans hch')
  exact hfd

/-- What is written does not concern the kernel. -/
theorem setChannel (h : Mirror s) (hch : s.heap c = some ch) (hfd : ch'.fd = ch.fd) (hevents : ch'.events = ch.events) :
    Mirror (s.setChannel c (some ch')) := by
  refine ⟨h.absent, fun fd d hreg => ?_⟩
  obtain ⟨x, hx, hxfd, hinterest, hopened⟩ := h.present fd d hreg
  by_cases hd : d = c
  · subst hd
    obtain rfl := Option.some.inj (hch.symm.trans hx)
    exact ⟨ch', by simp, hfd.trans hxfd, by rw [hevents]; exact hinterest, hopened⟩
  · exact ⟨x, by rw [setChannel_heap_other s _ hd]; exact hx, hxfd, hinterest, hopened⟩

/-- A channel that is not registered comes or goes. -/
theorem setChannel_unregistered (h : Mirror s) (hreg : ∀ fd, s.poller.channels fd ≠ some c) (x : Option Channel) :
    Mirror (s.setChannel c x) := by
  refine ⟨h.absent, fun fd d hd => ?_⟩
  obtain ⟨y, hy, hrest⟩ := h.present fd d hd
  have hne : d ≠ c := fun heq => hreg fd (heq ▸ hd)
  exact ⟨y, by rw [setChannel_heap_other s _ hne]; exact hy, hrest⟩

/-- A dead channel is not registered. -/
theorem unregistered_of_none (h : Mirror s) (hc : s.heap c = none) (fd : Fd) : s.poller.channels fd ≠ some c := by
  intro hreg
  obtain ⟨ch, hch, -⟩ := h.present fd c hreg
  rw [hc] at hch
  cases hch

/-- A descriptor that is opened is not watched yet. -/
theorem openFd (h : Mirror s) (fd : Fd) : Mirror { s with kernel := s.kernel.open' fd } := by
  refine ⟨h.absent, fun fd' c hreg => ?_⟩
  obtain ⟨ch, hch, hfd, hinterest, hopened⟩ := h.present fd' c hreg
  refine ⟨ch, hch, hfd, hinterest, ?_⟩
  show Function.update s.kernel.opened fd true fd' = true
  by_cases heq : fd' = fd
  · simp [heq]
  · simp [heq, hopened]

/-- One that is closed must not be registered. -/
theorem closeFd (h : Mirror s) (hreg : s.poller.channels fd = none) : Mirror { s with kernel := s.kernel.close fd } := by
  refine ⟨fun fd' habsent => ?_, fun fd' c hreg' => ?_⟩
  · show Function.update s.kernel.interest fd none fd' = none
    by_cases heq : fd' = fd
    · simp [heq]
    · simp [heq, h.absent fd' habsent]
  · have hne : fd' ≠ fd := by
      rintro rfl
      rw [hreg] at hreg'
      cases hreg'
    obtain ⟨ch, hch, hfd, hinterest, hopened⟩ := h.present fd' c hreg'
    refine ⟨ch, hch, hfd, ?_, ?_⟩
    · show Function.update s.kernel.interest fd none fd' = _
      simp [hne, hinterest]
    · show Function.update s.kernel.opened fd false fd' = true
      simp [hne, hopened]

/-- `Update` brings the kernel up to date. -/
theorem changeEvents (h : Mirror s) (hch : s.heap c = some ch) (hopened : s.kernel.opened ch.fd = true)
    (hreg : s.poller.channels ch.fd = none ∨ s.poller.channels ch.fd = some c) (change : Mask → Mask) :
    ∃ s', s.changeEvents c change = some s' ∧ Mirror s' ∧ ∀ d, (s.heap d).isSome → (s'.heap d).isSome := by
  let ch' : Channel := { ch with events := change ch.events }
  have heq : s.changeEvents c change = some ((s.setChannel c (some ch')).updateChannel c ch') := by
    simp [State.changeEvents, hch, ch']
  have hheap : ∀ d, (s.heap d).isSome → (((s.setChannel c (some ch')).updateChannel c ch').heap d).isSome := by
    intro d hd
    have hsame : ((s.setChannel c (some ch')).updateChannel c ch').heap = (s.setChannel c (some ch')).heap := by
      unfold State.updateChannel
      split <;> rfl
    rw [hsame]
    by_cases hdc : d = c
    · simp [hdc]
    · rw [setChannel_heap_other s _ hdc]
      exact hd
  refine ⟨_, heq, ?_, hheap⟩
  -- another descriptor has another channel, and keeps its entry
  have hother : ∀ fd d, fd ≠ ch.fd → s.poller.channels fd = some d → ∃ x, (s.setChannel c (some ch')).heap d = some x ∧
      x.fd = fd ∧ s.kernel.interest fd = some x.events ∧ s.kernel.opened fd = true := by
    intro fd d hfd hd
    obtain ⟨x, hx, hxfd, hrest⟩ := h.present fd d hd
    have hne : d ≠ c := by
      rintro rfl
      exact hfd (h.fd_eq hch hd).symm
    exact ⟨x, by rw [setChannel_heap_other s _ hne]; exact hx, hxfd, hrest⟩
  -- a new registration, or a change of an old one
  rcases hreg with hnone | hsome
  · have hadd : (s.setChannel c (some ch')).updateChannel c ch' = { s.setChannel c (some ch') with
        kernel := s.kernel.setInterest ch.fd (some ch'.events)
        poller := { s.poller with channels := Function.update s.poller.channels ch.fd (some c) } } := by
      simp [State.updateChannel, ch', hnone, Kernel.ctlAdd, hopened, h.absent _ hnone]
    rw [hadd]
    refine ⟨fun fd hfd => ?_, fun fd d hfd => ?_⟩
    · have hne : fd ≠ ch.fd := by
        rintro rfl
        simp at hfd
      simp only [hne, ne_eq, not_false_eq_true, Function.update_of_ne] at hfd
      simp [Kernel.setInterest, hne, h.absent fd hfd]
    · by_cases hne : fd = ch.fd
      · subst hne
        simp only [Function.update_self, Option.some.injEq] at hfd
        subst hfd
        exact ⟨ch', by simp, rfl, by simp [Kernel.setInterest], hopened⟩
      · simp only [hne, ne_eq, not_false_eq_true, Function.update_of_ne] at hfd
        obtain ⟨x, hx, hxfd, hinterest, hxopened⟩ := hother fd d hne hfd
        exact ⟨x, hx, hxfd, by simp [Kernel.setInterest, hne, hinterest], hxopened⟩
  · obtain ⟨x, hx, -, hinterest, -⟩ := h.present ch.fd c hsome
    have hmod : (s.setChannel c (some ch')).updateChannel c ch' = { s.setChannel c (some ch') with
        kernel := s.kernel.setInterest ch.fd (some ch'.events) } := by
      simp [State.updateChannel, ch', hsome, Kernel.ctlMod, hinterest]
    rw [hmod]
    refine ⟨fun fd hfd => ?_, fun fd d hfd => ?_⟩
    · have hne : fd ≠ ch.fd := by
        rintro rfl
        simp [hsome] at hfd
      simp [Kernel.setInterest, hne, h.absent fd hfd]
    · by_cases hne : fd = ch.fd
      · subst hne
        obtain rfl := Option.some.inj (hsome.symm.trans hfd)
        exact ⟨ch', by simp, rfl, by simp [Kernel.setInterest], hopened⟩
      · obtain ⟨x, hx, hxfd, hinterest, hxopened⟩ := hother fd d hne hfd
        exact ⟨x, hx, hxfd, by simp [Kernel.setInterest, hne, hinterest], hxopened⟩

/-- A channel that is removed is gone from both. -/
theorem removeChannel (h : Mirror s) (hch : s.heap c = some ch) (hreg : s.poller.channels ch.fd = some c) :
    ∃ s', s.removeChannel c = some s' ∧ Mirror s' ∧ s'.heap = s.heap := by
  refine ⟨{ s with
      poller := { s.poller with channels := Function.update s.poller.channels ch.fd none }
      kernel := s.kernel.ctlDel ch.fd }, by simp [State.removeChannel, hch, hreg], ⟨fun fd hfd => ?_, fun fd d hfd => ?_⟩, rfl⟩
  · by_cases hne : fd = ch.fd
    · simp [hne, Kernel.ctlDel, Kernel.setInterest]
    · simp only [hne, ne_eq, not_false_eq_true, Function.update_of_ne] at hfd
      simp [Kernel.ctlDel, Kernel.setInterest, hne, h.absent fd hfd]
  · have hne : fd ≠ ch.fd := by
      rintro rfl
      simp at hfd
    simp only [hne, ne_eq, not_false_eq_true, Function.update_of_ne] at hfd
    obtain ⟨x, hx, hxfd, hinterest, hxopened⟩ := h.present fd d hfd
    exact ⟨x, hx, hxfd, by simp [Kernel.ctlDel, Kernel.setInterest, hne, hinterest], hxopened⟩

/-- A channel that lives goes on living until it is destroyed. -/
theorem heap_setChannel {d : ChannelId} (ch' : Channel) (hd : (s.heap d).isSome) :
    ((s.setChannel c (some ch')).heap d).isSome := by
  by_cases hdc : d = c
  · simp [hdc]
  · rw [setChannel_heap_other s _ hdc]
    exact hd

/-- **One command** that is allowed does not fail and keeps the images equal; only a destroyed channel is gone. -/
theorem exec (h : Mirror s) (hallowed : Allowed s cmd) : ∃ s', s.exec cmd = some s' ∧ Mirror s' ∧
    ∀ d, (s.heap d).isSome → cmd ≠ .destroy d → (s'.heap d).isSome := by
  -- one case per command
  cases cmd with
  | openFd fd => exact ⟨_, rfl, h.openFd fd, fun _ hd _ => hd⟩
  | closeFd fd => exact ⟨_, rfl, h.closeFd hallowed, fun _ hd _ => hd⟩
  | create c fd =>
      exact ⟨_, rfl, h.setChannel_unregistered (h.unregistered_of_none hallowed) _, fun _ hd _ => heap_setChannel _ hd⟩
  | destroy c =>
      refine ⟨_, rfl, h.setChannel_unregistered hallowed.1 none, fun d hd hne => ?_⟩
      have hdc : d ≠ c := by
        rintro rfl
        exact hne rfl
      rw [setChannel_heap_other s _ hdc]
      exact hd
  | setCallback c stage =>
      obtain ⟨ch, hch⟩ := Option.isSome_iff_exists.mp hallowed
      cases stage
      all_goals
        refine ⟨_, Option.map_eq_some_iff.mpr ⟨ch, hch, rfl⟩, h.setChannel hch rfl rfl, fun _ hd _ => heap_setChannel _ hd⟩
  | enableReading c | disableReading c | enableWriting c | disableWriting c | disableAll c =>
      obtain ⟨ch, hch, hopened, hreg⟩ := hallowed
      simp only [State.exec]
      obtain ⟨s', heq, h', hheap⟩ := h.changeEvents hch hopened hreg _
      exact ⟨s', heq, h', fun d hd _ => hheap d hd⟩
  | remove c =>
      obtain ⟨ch, hch, hreg⟩ := hallowed
      obtain ⟨s', heq, h', hheap⟩ := h.removeChannel hch hreg
      exact ⟨s', heq, h', fun d hd _ => by rw [hheap]; exact hd⟩
  | quit | setWaitTime ms | setIdleWaitTime ms =>
      exact ⟨_, rfl, ⟨h.absent, h.present⟩, fun _ hd _ => hd⟩

end Mirror

/-! ## The loop

Between polls the loop handles the channels that are ready; they were alive when they were reported, and no callback
destroys one that is still to be handled. -/

/-- The images are equal, and the channels of the batch are there. -/
structure Inv (s : State) : Prop where
  mirror : Mirror s
  pending : ∀ c ∈ s.pending, (s.heap c).isSome

/-- The channels still to be handled are the same. -/
theorem Frame.pending (h : Frame s s') : s'.pending = s.pending := by
  unfold State.pending
  rw [h.pc]

/-- A callback that keeps the rules keeps the invariant, -/
theorem Inv.execAll (h : Inv s) (hobeys : Obeys s cmds) : ∃ s', s.execAll cmds = some s' ∧ Inv s' := by
  induction cmds generalizing s with
  | nil => exact ⟨s, rfl, h⟩
  | cons cmd cmds ih =>
      obtain ⟨hallowed, hrest⟩ := hobeys
      obtain ⟨s₁, hexec, h₁, hheap⟩ := h.mirror.exec hallowed
      have hpending := (frame_exec hexec).pending
      have hinv : Inv s₁ := by
        refine ⟨h₁, fun c hc => ?_⟩
        rw [hpending] at hc
        refine hheap c (h.pending c hc) ?_
        rintro rfl
        exact hallowed.2 hc
      obtain ⟨s', hall, h'⟩ := ih hinv (hrest s₁ hexec)
      exact ⟨s', by simp [State.execAll, hexec, hall], h'⟩

/-- What `FillActiveChannels` makes of a report, channel by channel. -/
def Told (s : State) (c : ChannelId) (r : Fd × Mask) : Prop :=
  s.poller.channels r.1 = some c ∧ ∃ ch, s.heap c = some ch ∧ ch.revents = r.2 ∧ ch.revents.Within ch.events

/-- `FillActiveChannels` finds a channel for whatever the kernel reports. -/
theorem Mirror.fillActiveChannels (h : Mirror s) {ready : List (Fd × Mask)}
    (hwatched : ∀ r ∈ ready, ∃ m, s.kernel.interest r.1 = some m ∧ r.2.Within m) (hdistinct : (ready.map Prod.fst).Nodup) :
    ∃ s' active, s.fillActiveChannels ready = some (s', active) ∧ Mirror s' ∧ List.Forall₂ (Told s') active ready ∧
      Frame s s' ∧ s'.poller = s.poller ∧ s'.kernel = s.kernel ∧
      ∀ d, (∀ r ∈ ready, s.poller.channels r.1 ≠ some d) → s'.heap d = s.heap d := by
  -- by induction on the reports
  induction ready generalizing s with
  | nil => exact ⟨s, [], rfl, h, .nil, Frame.refl s, rfl, rfl, fun _ _ => rfl⟩
  | cons r ready ih =>
      obtain ⟨fd, revents⟩ := r
      obtain ⟨m, hinterest, hwithin⟩ := hwatched (fd, revents) List.mem_cons_self
      obtain ⟨c, hreg⟩ : ∃ c, s.poller.channels fd = some c := by
        refine Option.ne_none_iff_exists'.mp fun hnone => ?_
        rw [h.absent fd hnone] at hinterest
        cases hinterest
      obtain ⟨ch, hch, hfd, hevents, -⟩ := h.present fd c hreg
      obtain rfl := Option.some.inj (hevents.symm.trans hinterest)
      have h₁ : Mirror (s.setChannel c (some { ch with revents := revents })) := h.setChannel hch rfl rfl
      obtain ⟨hnotin, hdistinct'⟩ := List.nodup_cons.mp hdistinct
      obtain ⟨s', active, hfill, h', htold, hframe, hpoller, hkernel, hheap⟩ :=
        ih h₁ (fun r hr => hwatched r (List.mem_cons_of_mem _ hr)) hdistinct'
      -- no later report is for this channel: it would be for the same descriptor
      have hlater : ∀ r ∈ ready, s.poller.channels r.1 ≠ some c := by
        intro r hr hreg'
        have hsame : r.1 = fd := (h.fd_eq hch hreg').symm.trans hfd
        have hmem : r.1 ∈ ready.map Prod.fst := List.mem_map_of_mem hr
        rw [hsame] at hmem
        exact hnotin hmem
      have hkeep : s'.heap c = some { ch with revents := revents } := by
        rw [hheap c hlater]
        simp
      refine ⟨s', c :: active, ?_, h', .cons ⟨?_, _, hkeep, rfl, hwithin⟩ htold, ⟨hframe.pc, hframe.eventsSize, hframe.idle⟩,
        hpoller, hkernel, fun d hd => ?_⟩
      · simp [State.fillActiveChannels, hreg, hch, hfill]
      · rw [hpoller]
        exact hreg
      · have hne : d ≠ c := by
          rintro rfl
          exact hd (fd, revents) List.mem_cons_self hreg
        rw [hheap d fun r hr => hd r (List.mem_cons_of_mem _ hr), setChannel_heap_other s _ hne]

/-- The reported channels are alive, -/
theorem heap_of_told {active : List ChannelId} {ready : List (Fd × Mask)} (h : List.Forall₂ (Told s) active ready) :
    ∀ c ∈ active, (s.heap c).isSome := by
  induction h with
  | nil => simp
  | cons htold _ ih =>
      obtain ⟨-, ch, hch, -⟩ := htold
      simpa [hch] using ih

/-- and each of their callbacks is for one of them. -/
theorem mem_stages {active : List ChannelId} (h : c ∈ (active.flatMap stages).map Prod.fst) : c ∈ active := by
  simp only [List.map_flatMap, List.mem_flatMap] at h
  obtain ⟨d, hd, hc⟩ := h
  simp only [stages, List.map_cons, List.map_nil, List.mem_cons, List.not_mem_nil, or_false, or_self] at hc
  exact hc ▸ hd

/-- `Poll` on what the kernel reports: no assert fails, and the channels of the batch are told what they asked for. -/
theorem Inv.poll (h : Inv s) {ready : List (Fd × Mask)} (hready : Reports s ready) :
    ∃ s' active, s.poll ready = some s' ∧ Inv s' ∧ s'.pc = .handling (active.flatMap stages) active.length ∧
      List.Forall₂ (Told s') active ready := by
  obtain ⟨s₁, active, hfill, h₁, htold, -, -, -, -⟩ := h.mirror.fillActiveChannels hready.watched hready.distinct
  let s' : State := { s₁ with
    poller := { s₁.poller with
      eventsSize := if ready.length = s₁.poller.eventsSize then s₁.poller.eventsSize * 2 else s₁.poller.eventsSize }
    iteration := (s₁.iteration + 1) % 2 ^ 64
    pc := .handling (active.flatMap stages) active.length }
  have hpoll : s.poll ready = some s' := by
    simp only [State.poll, hfill]
    rfl
  exact ⟨s', active, hpoll, ⟨⟨h₁.absent, h₁.present⟩, fun c hc => heap_of_told htold c (mem_stages hc)⟩, rfl, htold⟩

/-- A step ahead keeps the images equal. -/
theorem Inv.congr (h : Inv s) (hheap : s'.heap = s.heap) (hpoller : s'.poller.channels = s.poller.channels)
    (hkernel : s'.kernel = s.kernel) (hpending : ∀ c ∈ s'.pending, c ∈ s.pending) : Inv s' := by
  refine ⟨⟨fun fd hfd => ?_, fun fd c hfd => ?_⟩, fun c hc => ?_⟩
  · rw [hkernel]
    rw [hpoller] at hfd
    exact h.mirror.absent fd hfd
  · rw [hheap, hkernel]
    rw [hpoller] at hfd
    exact h.mirror.present fd c hfd
  · rw [hheap]
    exact h.pending c (hpending c hc)

/-- **One step**: what comes next does not fail, when the program keeps the rules. -/
theorem Inv.step (h : Inv s) {a : Action} (henabled : Enabled s a) (hobeys : Obeys (s.before a) a.cmds) :
    ∃ s', s.step a = some s' ∧ Inv s' := by
  cases a with
  | setup cmds =>
      obtain ⟨s', hexec, h'⟩ := h.execAll hobeys
      have hpc : s.pc = .outside := henabled
      have hexec' : s.execAll cmds = some s' := hexec
      exact ⟨s', by simp [State.step, hpc, hexec'], h'⟩
  | run =>
      have hpc : s.pc = .outside := henabled
      exact ⟨{ s with timeout := s.waitTime, idle := 0, pc := .testing }, by simp [State.step, hpc],
        h.congr rfl rfl rfl (by simp [State.pending])⟩
  -- the reports are looked up, and each is for a live channel
  | poll ready =>
      obtain ⟨hpc, hquit, hready⟩ := henabled
      obtain ⟨s', active, hpoll, h', -⟩ := h.poll hready
      exact ⟨s', by simp [State.step, hpc, hquit, hpoll], h'⟩
  | leave =>
      obtain ⟨hpc, hquit⟩ := henabled
      exact ⟨{ s with pc := .returned }, by simp [State.step, hpc, hquit], h.congr rfl rfl rfl (by simp [State.pending])⟩
  -- one callback of one channel
  | handle cmds =>
      obtain ⟨c, stage, rest, size, hpc, -⟩ := henabled
      have hlive : (s.heap c).isSome := h.pending c (by simp [State.pending, hpc])
      obtain ⟨ch, hch⟩ := Option.isSome_iff_exists.mp hlive
      have hbefore : s.before (.handle cmds) = { s with pc := .handling rest size } := by simp [State.before, hpc]
      have h₁ : Inv { s with pc := .handling rest size } :=
        h.congr rfl rfl rfl fun d hd => by
          simp only [State.pending, hpc, List.map_cons, List.mem_cons]
          exact Or.inr hd
      rw [hbefore] at hobeys
      obtain ⟨s', hexec, h'⟩ := h₁.execAll hobeys
      exact ⟨s', by simp only [State.step, hpc, hch]; exact hexec, h'⟩
  | finish cmds =>
      obtain ⟨size, hpc⟩ := henabled
      have hbefore : s.before (.finish cmds) = { s with idle := if size = 0 then (s.idle + 1) % 2 ^ 32 else 0 } := by
        simp [State.before, hpc]
      have h₁ : Inv { s with idle := if size = 0 then (s.idle + 1) % 2 ^ 32 else 0 } :=
        h.congr rfl rfl rfl fun _ hd => hd
      rw [hbefore] at hobeys
      obtain ⟨s₁, hexec, h'⟩ := h₁.execAll hobeys
      let s' : State := { s₁ with
        timeout := if 100 ≤ s₁.idle then s₁.idleTime else s₁.waitTime
        pc := .testing }
      have hfinish : s.finish size cmds = some s' := by
        have hexec' : { s with idle := if size = 0 then (s.idle + 1) % 2 ^ 32 else 0 }.execAll cmds = some s₁ := hexec
        simp only [State.finish, hexec']
        rfl
      exact ⟨s', by simp only [State.step, hpc]; exact hfinish, h'.congr rfl rfl rfl (by simp [s', State.pending])⟩

/-- The invariant holds in the beginning, -/
theorem inv_init (opened : Fd → Bool) : Inv (init opened) :=
  ⟨mirror_init opened, by simp [State.pending, init]⟩

/-- and in every state of a run. -/
theorem inv_run {opened : Fd → Bool} {as : List Action} (hrun : Run Step (init opened) as s) : Inv s := by
  refine Run.invariant (I := Inv) (fun t a u h hstep => ?_) hrun (inv_init opened)
  obtain ⟨henabled, hobeys, hstep⟩ := hstep
  obtain ⟨u', hstep', hu⟩ := h.step henabled hobeys
  obtain rfl := Option.some.inj (hstep.symm.trans hstep')
  exact hu

/-! ## The listener

The program of the repository: a channel for one descriptor, registered at the start and removed at the end. -/

/-- A list of commands is allowed when its first is and, after that, the rest. -/
theorem Mirror.obeys_cons (h : Mirror s) (hallowed : Allowed s cmd)
    (hrest : ∀ s', s.exec cmd = some s' → Mirror s' → Obeys s' cmds) : Obeys s (cmd :: cmds) := by
  refine ⟨hallowed, fun s' hexec => hrest s' hexec ?_⟩
  obtain ⟨s₁, hexec₁, h₁, -⟩ := h.exec hallowed
  obtain rfl := Option.some.inj (hexec.symm.trans hexec₁)
  exact h₁

/-- A listener keeps the rules when it starts, whatever else goes on: `socket` hands out a descriptor that is not open,
    so it has no channel. -/
theorem Mirror.obeys_start (h : Mirror s) (l : UdpListener) (hfd : s.kernel.opened l.fd = false)
    (hchannel : s.heap l.channel = none) : Obeys s l.start := by
  have hreg : s.poller.channels l.fd = none := by
    by_contra hne
    obtain ⟨c, hc⟩ := Option.ne_none_iff_exists'.mp hne
    obtain ⟨-, -, -, -, hopened⟩ := h.present l.fd c hc
    rw [hfd] at hopened
    cases hopened
  refine h.obeys_cons hfd fun s₁ h₁ hm₁ => ?_
  obtain rfl := Option.some.inj h₁
  refine hm₁.obeys_cons hchannel fun s₂ h₂ hm₂ => ?_
  obtain rfl := Option.some.inj h₂
  refine hm₂.obeys_cons (by simp [Allowed]) fun s₃ h₃ hm₃ => ?_
  simp only [State.exec, setChannel_heap_self, Option.map_some, Option.some.injEq] at h₃
  subst h₃
  have hopened : (s.kernel.open' l.fd).opened l.fd = true := by simp [Kernel.open']
  refine hm₃.obeys_cons ⟨_, setChannel_heap_self _ _ _, hopened, Or.inl hreg⟩ fun s₄ h₄ hm₄ => ?_
  simp only [State.exec, State.changeEvents, setChannel_heap_self, Option.bind_eq_bind, Option.bind_some, Option.pure_def,
    Option.some.injEq, State.updateChannel, setChannel_poller, Channel.new, hreg] at h₄
  subst h₄
  refine hm₄.obeys_cons ⟨_, setChannel_heap_self _ _ _, ?_, Or.inr ?_⟩ fun _ _ _ => trivial
  · simp [Kernel.ctlAdd, hopened, Kernel.setInterest]
    split <;> simp [Kernel.open']
  · simp

/-- And when it ends, unless its channel is about to be handled. -/
theorem Mirror.obeys_stop (h : Mirror s) (l : UdpListener) (hreg : s.poller.channels l.fd = some l.channel)
    (hpending : l.channel ∉ s.pending) : Obeys s l.stop := by
  obtain ⟨ch, hch, hfd, -⟩ := h.present l.fd l.channel hreg
  refine h.obeys_cons ⟨ch, hch, by rw [hfd]; exact hreg⟩ fun s₁ h₁ hm₁ => ?_
  simp only [State.exec, State.removeChannel, hch, hfd, hreg, Option.bind_eq_bind, Option.bind_some, Option.isSome_some,
    guard, if_true, Option.pure_def, Option.some.injEq] at h₁
  subst h₁
  refine hm₁.obeys_cons (by simp [Allowed]) fun s₂ h₂ hm₂ => ?_
  obtain rfl := Option.some.inj h₂
  refine hm₂.obeys_cons ⟨fun fd hfd' => ?_, hpending⟩ fun _ _ _ => trivial
  by_cases hne : fd = l.fd
  · simp [hne] at hfd'
  · simp only [hne, ne_eq, not_false_eq_true, Function.update_of_ne] at hfd'
    exact hne ((h.fd_eq hch hfd').symm.trans hfd)

/-! ## Whole runs

Any program that keeps the rules, and the listener in particular. -/

end EventLoop
end Snippets
