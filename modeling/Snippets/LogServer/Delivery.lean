import Snippets.LogServer.Model
import Snippets.RingBuffer.Empty

/-!
# `LogServer.Delivery` — no message is lost, doubled or reordered

The invariant of the running system has three parts, each kept by every step of every process: the mutex is
held by exactly the process inside the guarded section (`Locked`); what was accepted is what was taken, then
the message being copied, then the ring (`Conserved`); and what a worker took is what it gave to its file,
then what it still holds (`WorkerInv`). The copy out of the ring is safe because the worker that pops still
holds the mutex when it copies, so no other process has touched the bytes. A worker that has ended in `ReadNext`
has counted its message off and left it in the ring; it still holds the mutex, so nobody meets the wrong count.
-/

namespace Snippets
namespace LogServer

open Lib RingBuffer LogFiles

variable {s s' t : System} {es : List (Action × Event)} {a : Action} {e : Event} {w c : Nat} {len : Nat}

/-! ## Frame lemmas

`setWorker`, `setClient`, `lock` and `unlock` change one component each, and `simp` uses these equations to see
every other component through them. -/

namespace System

variable (s) (p : Proc) (x : Worker) (y : Client)

@[simp] theorem setWorker_same : (s.setWorker w x).workers w = x := if_pos rfl

@[simp] theorem setWorker_other {v : Nat} (h : v ≠ w) : (s.setWorker w x).workers v = s.workers v := if_neg h

@[simp] theorem setWorker_ring : (s.setWorker w x).ring = s.ring := rfl

@[simp] theorem setWorker_holder : (s.setWorker w x).holder = s.holder := rfl

@[simp] theorem setWorker_clients : (s.setWorker w x).clients = s.clients := rfl

@[simp] theorem setWorker_forked : (s.setWorker w x).forked = s.forked := rfl

@[simp] theorem setClient_same : (s.setClient c y).clients c = y := if_pos rfl

@[simp] theorem setClient_other {d : Nat} (h : d ≠ c) : (s.setClient c y).clients d = s.clients d := if_neg h

@[simp] theorem setClient_ring : (s.setClient c y).ring = s.ring := rfl

@[simp] theorem setClient_holder : (s.setClient c y).holder = s.holder := rfl

@[simp] theorem setClient_workers : (s.setClient c y).workers = s.workers := rfl

@[simp] theorem setClient_forked : (s.setClient c y).forked = s.forked := rfl

@[simp] theorem lock_holder : (s.lock p).holder = some p := rfl

@[simp] theorem lock_ring : (s.lock p).ring = s.ring := rfl

@[simp] theorem lock_workers : (s.lock p).workers = s.workers := rfl

@[simp] theorem lock_clients : (s.lock p).clients = s.clients := rfl

@[simp] theorem lock_forked : (s.lock p).forked = s.forked := rfl

@[simp] theorem unlock_holder : s.unlock.holder = none := rfl

@[simp] theorem unlock_ring : s.unlock.ring = s.ring := rfl

@[simp] theorem unlock_workers : s.unlock.workers = s.workers := rfl

@[simp] theorem unlock_clients : s.unlock.clients = s.clients := rfl

@[simp] theorem unlock_forked : s.unlock.forked = s.forked := rfl

end System

/-! ## The labels of a run

What was accepted, taken and appended is read off the labels, so each is additive in the run and empty at a quiet
step. -/

/-- What the clients were told, in two parts of a run, -/
@[simp] theorem accepted_append (es fs : List (Action × Event)) : accepted (es ++ fs) = accepted es ++ accepted fs := by
  induction es with
  | nil => rfl
  | cons l es ih =>
      obtain ⟨a, e⟩ := l
      cases e <;> simp [accepted, ih]

/-- what the workers took, -/
@[simp] theorem taken_append (es fs : List (Action × Event)) : taken (es ++ fs) = taken es ++ taken fs := by
  induction es with
  | nil => rfl
  | cons l es ih =>
      obtain ⟨a, e⟩ := l
      cases e <;> simp [taken, ih]

/-- what one of them took -/
@[simp] theorem takenBy_append (w : Nat) (es fs : List (Action × Event)) :
    takenBy w (es ++ fs) = takenBy w es ++ takenBy w fs := by
  simp [takenBy]

/-- and what it wrote. -/
@[simp] theorem appendedBy_append (w : Nat) (es fs : List (Action × Event)) :
    appendedBy w (es ++ fs) = appendedBy w es ++ appendedBy w fs := by
  induction es with
  | nil => rfl
  | cons l es ih =>
      obtain ⟨a, e⟩ := l
      cases e with
      | appended v msg ret =>
          by_cases hv : v = w
          · simp [appendedBy, ih, hv]
          · simp [appendedBy, ih, hv]
      | _ => simp [appendedBy, ih]

/-- A step that took nothing out of the ring and gave nothing to a file. -/
def Event.quiet : Event → Bool
  | .took _ _ | .appended _ _ _ => false
  | _ => true

/-- A quiet step takes nothing, -/
@[simp] theorem taken_quiet (h : e.quiet = true) : taken [(a, e)] = [] := by
  cases e <;> first | rfl | simp [Event.quiet] at h

/-- for no worker, -/
@[simp] theorem takenBy_quiet (h : e.quiet = true) : takenBy w [(a, e)] = [] := by
  simp [takenBy, taken_quiet h]

/-- and writes nothing. -/
@[simp] theorem appendedBy_quiet (h : e.quiet = true) : appendedBy w [(a, e)] = [] := by
  cases e <;> first | rfl | simp [Event.quiet] at h

/-! ## The invariant

Three parts: who is inside the guarded section, what is in the ring, and what each worker did with its messages.
While a worker inside has popped and not yet copied, the ring is one record short of what it holds (`intact`). -/

/-- The mutex is held by exactly the process inside the section it guards. -/
def Locked (s : System) : Prop := ∀ p, s.inside p = true ↔ s.holder = some p

/-- The ring with the message that an aborted worker has counted off. -/
def WorkerPc.intact (ring : RingBuffer) : WorkerPc → RingBuffer
  | .aborted => ring.setSize (ring.size + 1)
  | _ => ring

/-- The ring with what a worker inside is about to copy. -/
def System.intact (s : System) : RingBuffer := s.ofHolder s.ring (WorkerPc.intact s.ring)

/-- What was accepted is what was taken, then the message being copied, then the ring. -/
def Conserved (len : Nat) (es : List (Action × Event)) (s : System) : Prop :=
  ∃ q, Rep len s.intact q ∧ (∀ e ∈ q, e.msg ≠ []) ∧
    accepted es = (taken es).map (·.2) ++ s.inFlight ++ q.map (·.msg)

/-- Where the worker stands in its batch. -/
def Worker.InBatch (x : Worker) : Prop :=
  match x.pc with
  | .reading num => x.msgs.length = num ∧ num ≤ kMaxMessageEachTime
  | .copying num _ _ => x.msgs.length = num ∧ num < kMaxMessageEachTime
  | .appending i => i ≤ x.msgs.length ∧ x.msgs.length ≤ kMaxMessageEachTime
  | .aborted => x.msgs.length ≤ kMaxMessageEachTime
  | _ => x.msgs = []

/-- What `write` took of a message. -/
def onDisk (m : Message × Option Nat) : Message :=
  match m.2 with
  | some n => m.1.take n
  | none => []

/-- What a worker took is what it wrote, and what it still has to write. -/
structure WorkerInv (w : Nat) (es : List (Action × Event)) (x : Worker) : Prop where
  took : takenBy w es = (appendedBy w es).map (·.1) ++ x.pending
  batch : x.InBatch
  file : x.file.files.flatten = ((appendedBy w es).map onDisk).flatten

/-- The invariant after the events so far: the accepted messages are those taken, in flight and queued, in this
    order. -/
structure Inv (len : Nat) (es : List (Action × Event)) (s : System) : Prop where
  locked : Locked s
  conserved : Conserved len es s
  worker : ∀ w, WorkerInv w es (s.workers w)
  unforked : ∀ w, s.forked ≤ w → s.workers w = newWorker

section Holder

variable {β : Type} {d : β} {f : WorkerPc → β}

/-- Only the worker that holds the mutex counts, -/
theorem ofHolder_worker (h : s.holder = some (.worker w)) : s.ofHolder d f = f (s.workers w).pc := by
  simp [System.ofHolder, h]

/-- and it counts for nothing in most of its places. -/
theorem ofHolder_eq (h : ∀ w, s.holder = some (.worker w) → f (s.workers w).pc = d) : s.ofHolder d f = d := by
  unfold System.ofHolder
  split
  · exact h _ ‹_›
  · rfl

/-- A step that leaves the mutex and the places leaves it, -/
theorem ofHolder_same (hholder : s'.holder = s.holder) (hpcs : ∀ v, (s'.workers v).pc = (s.workers v).pc) :
    s'.ofHolder d f = s.ofHolder d f := by
  unfold System.ofHolder
  rw [hholder]
  split
  · rw [hpcs]
  · rfl

/-- A step of worker `w` between two places where it shows nothing changes nothing to see. -/
theorem ofHolder_worker_step {x : Worker} (hworkers : ∀ v ≠ w, s'.workers v = s.workers v) (hx : s'.workers w = x)
    (hother : ∀ p ≠ Proc.worker w, s'.holder = some p ↔ s.holder = some p) (hf : f (s.workers w).pc = d) (hf' : f x.pc = d) :
    s'.ofHolder d f = s.ofHolder d f := by
  by_cases hv : ∃ v ≠ w, s.holder = some (.worker v)
  · obtain ⟨v, hvw, hv⟩ := hv
    have hv' : s'.holder = some (.worker v) := (hother (.worker v) (by simpa using hvw)).mpr hv
    rw [ofHolder_worker hv, ofHolder_worker hv', hworkers v hvw]
  · have hself : ∀ u, s.holder = some (.worker u) → u = w := fun u hu => by_contra fun huw => hv ⟨u, huw, hu⟩
    have hs : s.ofHolder d f = d := by
      apply ofHolder_eq
      intro u hu
      obtain rfl := hself u hu
      exact hf
    rw [hs]
    apply ofHolder_eq
    intro u hu
    by_cases huw : u = w
    · subst huw
      rw [hx]
      exact hf'
    · exact absurd (hself u ((hother (.worker u) (by simpa using huw)).mp hu)) huw

/-- and so does a client's step. -/
theorem ofHolder_client_step (hworkers : s'.workers = s.workers)
    (hother : ∀ p ≠ Proc.client c, s'.holder = some p ↔ s.holder = some p) : s'.ofHolder d f = s.ofHolder d f := by
  by_cases hv : ∃ v, s.holder = some (.worker v)
  · obtain ⟨v, hv⟩ := hv
    rw [ofHolder_worker hv, ofHolder_worker ((hother (.worker v) (by simp)).mpr hv), hworkers]
  · rw [ofHolder_eq fun v hs => absurd ⟨v, hs⟩ hv]
    exact ofHolder_eq fun v hs => absurd ⟨v, (hother (.worker v) (by simp)).mp hs⟩ hv

end Holder

/-- The worker shows neither a message nor a wrong count. -/
def WorkerPc.plain : WorkerPc → Bool
  | .copying _ _ _ | .aborted => false
  | _ => true

/-- At a plain place nothing is in flight, -/
theorem WorkerPc.inFlight_of_plain {pc : WorkerPc} {mem : Mem} (h : pc.plain = true) : pc.inFlight mem = [] := by
  cases pc <;> first | rfl | cases h

/-- and the ring is whole. -/
theorem WorkerPc.intact_of_plain {pc : WorkerPc} {ring : RingBuffer} (h : pc.plain = true) : pc.intact ring = ring := by
  cases pc <;> first | rfl | cases h

/-- Outside the section every place is plain. -/
theorem WorkerPc.plain_of_outside {pc : WorkerPc} (h : pc.inside = false) : pc.plain = true := by
  cases pc <;> first | rfl | cases h

/-- The ring is intact unless a worker has aborted in it. -/
theorem intact_eq (h : ∀ w, s.holder = some (.worker w) → (s.workers w).pc ≠ .aborted) : s.intact = s.ring := by
  apply ofHolder_eq
  intro w hw
  have hpc := h w hw
  cases hcase : (s.workers w).pc with
  | aborted => exact absurd hcase hpc
  | _ => rfl

/-- A worker is inside exactly when it holds the mutex, -/
theorem Locked.inside_worker (h : Locked s) : (s.workers w).pc.inside = true ↔ s.holder = some (.worker w) :=
  h (.worker w)

/-- and so is a client. -/
theorem Locked.inside_client (h : Locked s) : (s.clients c).pc.inside = true ↔ s.holder = some (.client c) :=
  h (.client c)

/-! ## Rules for one step

A step changes the record of one process, and perhaps the holder and the ring. -/

/-- The mutex rule for a step of worker `w`. -/
theorem Locked.worker (h : Locked s) (x : Worker) (hclients : s'.clients = s.clients)
    (hworkers : ∀ v ≠ w, s'.workers v = s.workers v) (hx : s'.workers w = x)
    (hin : x.pc.inside = true ↔ s'.holder = some (.worker w))
    (hother : ∀ p ≠ Proc.worker w, s'.holder = some p ↔ s.holder = some p) : Locked s' := by
  intro p
  cases p with
  | client d =>
      rw [hother _ (by simp)]
      simpa [System.inside, hclients] using h (.client d)
  | worker v =>
      by_cases hv : v = w
      · subst hv
        simpa [System.inside, hx] using hin
      · rw [hother _ (by simpa using hv)]
        simpa [System.inside, hworkers v hv] using h (.worker v)

/-- The mutex rule for a step of client `c`, which leaves the workers' positions relative to the section. -/
theorem Locked.client (h : Locked s) (y : Client) (hworkers : ∀ v, (s'.workers v).pc.inside = (s.workers v).pc.inside)
    (hclients : ∀ d ≠ c, s'.clients d = s.clients d) (hy : s'.clients c = y)
    (hin : y.pc.inside = true ↔ s'.holder = some (.client c))
    (hother : ∀ p ≠ Proc.client c, s'.holder = some p ↔ s.holder = some p) : Locked s' := by
  intro p
  cases p with
  | worker v =>
      rw [hother _ (by simp)]
      simpa [System.inside, hworkers v] using h (.worker v)
  | client d =>
      by_cases hd : d = c
      · subst hd
        simpa [System.inside, hy] using hin
      · rw [hother _ (by simpa using hd)]
        simpa [System.inside, hclients d hd] using h (.client d)

/-- A step that leaves the ring alone and accepts nothing keeps the books when nothing is in flight before or
    after it, or the same message is. -/
theorem Conserved.same (h : Conserved len es s) (hring : s'.intact = s.intact) (hquiet : e.quiet = true)
    (hacc : accepted [(a, e)] = []) (hfly : s'.inFlight = s.inFlight) : Conserved len (es ++ [(a, e)]) s' := by
  obtain ⟨q, hrep, hne, heq⟩ := h
  exact ⟨q, hring ▸ hrep, hne, by simp [heq, hacc, hfly, taken_quiet hquiet]⟩

/-- A step of another process is none of worker `w`'s. -/
theorem WorkerInv.other {x : Worker} (h : WorkerInv w es x) (htook : takenBy w [(a, e)] = [])
    (happ : appendedBy w [(a, e)] = []) : WorkerInv w (es ++ [(a, e)]) x where
  took := by simp [h.took, htook, happ]
  batch := h.batch
  file := by simp [h.file, happ]

/-- A quiet step of worker `w` that keeps what it holds. -/
theorem WorkerInv.keep {x y : Worker} (h : WorkerInv w es x) (hquiet : e.quiet = true)
    (hpend : y.pending = x.pending) (hbatch : y.InBatch) (hfile : y.file = x.file) :
    WorkerInv w (es ++ [(a, e)]) y where
  took := by simp [h.took, hpend, takenBy_quiet hquiet, appendedBy_quiet hquiet]
  batch := hbatch
  file := by simp [h.file, hfile, appendedBy_quiet hquiet]

/-- **The rule for a quiet step of worker `w`**: the ring is as it was, nothing is in flight. -/
theorem Inv.quietWorker (h : Inv len es s) (hw : w < s.forked) (y : Worker) (holder' : Option Proc)
    (hin : y.pc.inside = true ↔ holder' = some (.worker w))
    (hother : ∀ p ≠ Proc.worker w, holder' = some p ↔ s.holder = some p)
    (hplain : (s.workers w).pc.plain = true) (hplain' : y.pc.plain = true)
    (hpend : y.pending = (s.workers w).pending) (hbatch : y.InBatch) (hfile : y.file = (s.workers w).file) :
    Inv len (es ++ [(a, .internal)]) ({ s with holder := holder' }.setWorker w y) where
  locked := h.locked.worker y rfl (fun v hv => System.setWorker_other _ _ hv) (by simp) hin hother
  conserved := by
    have hsame : ∀ {β : Type} {d : β} {f : WorkerPc → β}, f (s.workers w).pc = d → f y.pc = d →
        ({ s with holder := holder' }.setWorker w y).ofHolder d f = s.ofHolder d f := fun hf hf' =>
      ofHolder_worker_step (fun v hv => System.setWorker_other _ _ hv) (System.setWorker_same _ _) hother hf hf'
    exact h.conserved.same (hsame (WorkerPc.intact_of_plain hplain) (WorkerPc.intact_of_plain hplain')) rfl rfl
      (hsame (WorkerPc.inFlight_of_plain hplain) (WorkerPc.inFlight_of_plain hplain'))
  worker := by
    intro v
    by_cases hv : v = w
    · subst hv
      simpa using (h.worker v).keep rfl hpend hbatch hfile
    · rw [System.setWorker_other _ _ hv]
      exact (h.worker v).other rfl rfl
  unforked := by
    intro v hv
    have hv' : s.forked ≤ v := hv
    rw [System.setWorker_other _ _ (by omega)]
    exact h.unforked v hv'

/-! ## The ring with another count

A worker that aborts has lowered the count and read nothing. Reading does not look at the count, so the records
are what they were. -/

/-- The number of messages says nothing about where they lie. -/
theorem Rep.resize {rb : RingBuffer} {q : List Entry} (h : Rep len rb q) {m n : Int} (hn : toSize n = q.length) :
    Rep len ((rb.setSize m).setSize n) q :=
  ⟨⟨h.endOff, h.length, hn, h.small, h.stored⟩, h.layout⟩

/-- A message is counted off, and counted again. -/
theorem Rep.counted (hlen : len ≤ 2 ^ 31 - 4) {rb : RingBuffer} {q : List Entry} (h : Rep len rb q) (hused : rb.used ≠ 0) :
    Rep len ((rb.setSize (rb.size - 1)).setSize ((rb.setSize (rb.size - 1)).size + 1)) q := by
  have hpos : q ≠ [] := by
    rintro rfl
    exact hused (h.used hlen)
  have hbound := h.length_lt hlen
  have hcount : 0 < q.length := List.length_pos_iff.mpr hpos
  have hsize := h.size
  apply Rep.resize h
  have hfewer : (rb.setSize (rb.size - 1)).size = q.length - 1 := by
    show toSize ((rb.size : Int) - 1) = _
    rw [toSize_of_range (by omega) (by omega)]
    omega
  rw [hfewer, toSize_of_range (by omega) (by omega)]
  omega

/-- The next record, -/
theorem readNext_setSize (rb : RingBuffer) (n : Int) : (rb.setSize n).readNext = (rb.readNext.1.setSize n, rb.readNext.2) := by
  unfold RingBuffer.readNext
  by_cases hend : rb.front + rb.padding = rb.endOff
  · have hend' : (rb.setSize n).front + (rb.setSize n).padding = (rb.setSize n).endOff := hend
    simp only [hend, hend', if_true]
    rfl
  · have hend' : ¬ (rb.setSize n).front + (rb.setSize n).padding = (rb.setSize n).endOff := hend
    simp only [hend, hend', if_false]
    rfl

/-- Nor does `Pop` look at it. -/
theorem pop_setSize (rb : RingBuffer) (n : Int) : ∃ m, (rb.setSize n).pop = (rb.pop.1.setSize m, rb.pop.2) := by
  unfold RingBuffer.pop
  by_cases hempty : rb.used = 0
  · have hempty' : (rb.setSize n).used = 0 := hempty
    simp only [hempty, hempty', if_true]
    exact ⟨n, rfl⟩
  · have hempty' : ¬ (rb.setSize n).used = 0 := hempty
    simp only [hempty, hempty', if_false]
    refine ⟨(rb.setSize n).size - 1, ?_⟩
    rw [readNext_setSize, readNext_setSize, readNext_setSize]
    rfl

/-- and all of them. -/
theorem popAll_setSize (k : Nat) (rb : RingBuffer) (n : Int) : popAll k (rb.setSize n) = popAll k rb := by
  induction k generalizing rb n with
  | zero => rfl
  | succ k ih =>
      obtain ⟨m, hpop⟩ := pop_setSize rb n
      unfold popAll
      rw [hpop]
      cases hres : rb.pop with
      | mk rb' r =>
          cases r with
          | none => rfl
          | some r => exact congrArg (r.bytes :: ·) (ih rb' m)

/-! ## The worker's steps

A worker pops, copies, leaves the section and writes. Each step moves a message one place along: from the ring
into flight, from there into the worker's batch, and from that into the file. -/

/-- A worker takes the mutex. -/
theorem Inv.acquire (h : Inv len es s) (hw : w < s.forked)
    (hpc : (s.workers w).pc = .locking ∨ (s.workers w).pc = .woken) (hfree : s.holder = none) :
    Inv len (es ++ [(a, .internal)]) ((s.lock (.worker w)).setPc w .testing) := by
  have hmsgs : (s.workers w).msgs = [] := by
    have hb := (h.worker w).batch
    rcases hpc with hpc | hpc <;> simpa [Worker.InBatch, hpc] using hb
  refine h.quietWorker hw { s.workers w with pc := .testing } (some (.worker w)) ?_ ?_ ?_ rfl ?_ hmsgs rfl
  · simp [WorkerPc.inside]
  · intro p hp
    simp [hfree, Ne.symm hp]
  · rcases hpc with hpc | hpc <;> rw [hpc] <;> rfl
  · rcases hpc with hpc | hpc <;> simp [Worker.pending, hpc]

/-- A worker inside the section leaves it, with nothing in flight. -/
theorem Inv.release (h : Inv len es s) (hw : w < s.forked) (hin : (s.workers w).pc.inside = true)
    (hplain : (s.workers w).pc.plain = true) {pc : WorkerPc} (hout : pc.inside = false)
    (hpend : Worker.pending { s.workers w with pc := pc } = (s.workers w).pending)
    (hbatch : Worker.InBatch { s.workers w with pc := pc }) :
    Inv len (es ++ [(a, .internal)]) (s.unlock.setPc w pc) := by
  have hholder := h.locked.inside_worker.mp hin
  refine h.quietWorker hw { s.workers w with pc := pc } none ?_ ?_ hplain (WorkerPc.plain_of_outside hout) hpend hbatch rfl
  · simp [hout]
  · intro p hp
    simp [hholder, Ne.symm hp]

/-- A worker that keeps its side of the section. -/
theorem Inv.move (h : Inv len es s) (hw : w < s.forked) (y : Worker)
    (hin : y.pc.inside = (s.workers w).pc.inside) (hplain : (s.workers w).pc.plain = true) (hplain' : y.pc.plain = true)
    (hpend : y.pending = (s.workers w).pending) (hbatch : y.InBatch) (hfile : y.file = (s.workers w).file) :
    Inv len (es ++ [(a, .internal)]) (s.setWorker w y) :=
  h.quietWorker hw y s.holder (by rw [hin]; exact h.locked.inside_worker) (fun _ _ => Iff.rfl) hplain hplain' hpend
    hbatch hfile

/-- Reading writes nothing into memory, -/
theorem readNext_mem (rb : RingBuffer) : rb.readNext.1.mem = rb.mem := by
  unfold RingBuffer.readNext
  by_cases hend : rb.front + rb.padding = rb.endOff <;> simp [hend, setFront, setPadding]

/-- and gives the bytes at the record. -/
theorem readNext_bytes (rb : RingBuffer) :
    rb.readNext.2.bytes = rb.mem.read rb.readNext.2.ptr rb.readNext.2.len.toNat := by
  unfold RingBuffer.readNext
  by_cases hend : rb.front + rb.padding = rb.endOff <;> simp [hend, setPadding]

/-- The pop neither. -/
theorem pop_mem (rb : RingBuffer) : rb.pop.1.mem = rb.mem := by
  unfold RingBuffer.pop
  by_cases hempty : rb.used = 0 <;> simp [hempty, readNext_mem, setSize]

/-- What `Pop` hands back is what lies there. -/
theorem pop_bytes {rb : RingBuffer} {r : Popped} (h : rb.pop.2 = some r) : r.bytes = rb.mem.read r.ptr r.len.toNat := by
  unfold RingBuffer.pop at h
  by_cases hempty : rb.used = 0
  · simp [hempty] at h
  · simp only [hempty, if_false, Option.some.injEq] at h
    subst h
    exact readNext_bytes _

/-- The worker in the reading loop has the ring to itself, and it is intact. -/
theorem intact_of_reading (hholder : s.holder = some (.worker w)) {num : Nat} (hpc : (s.workers w).pc = .reading num) :
    s.intact = s.ring := by
  rw [System.intact, ofHolder_worker hholder, hpc]
  rfl

/-- `Pop` found a message: it is in flight. -/
theorem Inv.popped (hlen : len ≤ 2 ^ 31 - 4) (h : Inv len es s) (hw : w < s.forked) {num : Nat}
    (hpc : (s.workers w).pc = .reading num) (hnum : num < kMaxMessageEachTime) {r : Popped}
    (hpop : s.ring.pop.2 = some r) :
    r.len ≠ 0 ∧ Inv len (es ++ [(a, .internal)])
      ({ s with ring := s.ring.pop.1 }.setPc w (.copying num r.ptr r.len)) := by
  have hbytes := pop_bytes hpop
  have hholder : s.holder = some (.worker w) := h.locked.inside_worker.mp (by simp [hpc, WorkerPc.inside])
  obtain ⟨q, hrep, hne, heq⟩ := h.conserved
  rw [intact_of_reading hholder hpc] at hrep
  rcases hrep.pop hlen with ⟨-, hnone⟩ | ⟨e, q', rfl, hsome, hrep'⟩
  · rw [hnone] at hpop
    cases hpop
  obtain rfl : r = _ := Option.some.inj (hpop.symm.trans hsome)
  have hmsg : e.msg ≠ [] := hne e (by simp)
  -- nothing was in flight, and now the popped message is
  have hold : s.inFlight = [] := by
    rw [System.inFlight, ofHolder_worker hholder, hpc]
    rfl
  have hintact : ({ s with ring := s.ring.pop.1 }.setPc w (.copying num (e.addr + 4) e.msg.length)).intact = s.ring.pop.1 := by
    rw [System.intact, ofHolder_worker (by exact hholder)]
    simp [System.setPc, WorkerPc.intact]
  refine ⟨by simpa using hmsg, ⟨?_, ⟨q', by rw [hintact]; exact hrep', fun x hx => hne x (by simp [hx]), ?_⟩, ?_, ?_⟩⟩
  · exact h.locked.worker { s.workers w with pc := .copying num _ _ } rfl
      (fun v hv => System.setWorker_other _ _ hv) (System.setWorker_same _ _)
      (by simp [WorkerPc.inside, System.setPc, hholder]) (fun _ _ => Iff.rfl)
  · have hnew : ({ s with ring := s.ring.pop.1 }.setPc w (.copying num (e.addr + 4) e.msg.length)).inFlight =
        [e.msg] := by
      rw [System.inFlight, ofHolder_worker (by exact hholder)]
      simpa [System.setPc, WorkerPc.inFlight, pop_mem] using hbytes.symm
    rw [hnew]
    simp [heq, hold, accepted, taken]
  · intro v
    by_cases hv : v = w
    · subst hv
      have hb : (s.workers v).msgs.length = num := by
        have := (h.worker v).batch
        simp only [Worker.InBatch, hpc] at this
        exact this.1
      refine (System.setWorker_same _ _) ▸ (h.worker v).keep rfl ?_ ⟨hb, hnum⟩ rfl
      simp [Worker.pending, hpc]
    · have hsame : ({ s with ring := s.ring.pop.1 }.setPc w (.copying num (e.addr + 4) e.msg.length)).workers v =
          s.workers v := System.setWorker_other _ _ hv
      exact hsame ▸ (h.worker v).other rfl rfl
  · intro v hv
    have hv' : s.forked ≤ v := hv
    exact (System.setWorker_other _ _ (by omega)).trans (h.unforked v hv')

/-- `Pop` found the ring empty. -/
theorem Inv.nothing (hlen : len ≤ 2 ^ 31 - 4) (h : Inv len es s) {num : Nat} (hpc : (s.workers w).pc = .reading num)
    (hpop : s.ring.pop.2 = none) : s.ring.pop.1 = s.ring := by
  obtain ⟨q, hrep, -, -⟩ := h.conserved
  rw [intact_of_reading (h.locked.inside_worker.mp (by simp [hpc, WorkerPc.inside])) hpc] at hrep
  rcases hrep.pop hlen with ⟨-, hnone⟩ | ⟨e, q', -, hsome, -⟩
  · rw [hnone]
  · rw [hpop] at hsome
    cases hsome

/-- The copy: the message in flight joins the worker's batch. -/
theorem Inv.copied (h : Inv len es s) (hw : w < s.forked) {num : Nat} {buf n : Int}
    (hpc : (s.workers w).pc = .copying num buf n) :
    Inv len (es ++ [(a, .took w (s.ring.mem.read buf n.toNat))]) (s.setWorker w
      { s.workers w with pc := .reading (num + 1), msgs := (s.workers w).msgs ++ [s.ring.mem.read buf n.toNat] }) := by
  have hholder : s.holder = some (.worker w) := h.locked.inside_worker.mp (by simp [hpc, WorkerPc.inside])
  refine ⟨?_, ?_, ?_, ?_⟩
  · exact h.locked.worker _ rfl (fun v hv => System.setWorker_other _ _ hv) (System.setWorker_same _ _)
      (by simp [WorkerPc.inside, hholder]) (fun _ _ => Iff.rfl)
  -- the message leaves the flight, and is taken
  · obtain ⟨q, hrep, hne, heq⟩ := h.conserved
    rw [System.intact, ofHolder_worker hholder, hpc] at hrep
    rw [System.inFlight, ofHolder_worker hholder, hpc] at heq
    refine ⟨q, ?_, hne, ?_⟩
    · rw [System.intact, ofHolder_worker (by exact hholder), System.setWorker_same]
      exact hrep
    · rw [System.inFlight, ofHolder_worker (by exact hholder)]
      simp [heq, accepted, taken, WorkerPc.inFlight]
  · intro v
    by_cases hv : v = w
    · subst hv
      have hinv := h.worker v
      have hb : (s.workers v).msgs.length = num ∧ num < kMaxMessageEachTime := by
        simpa only [Worker.InBatch, hpc] using hinv.batch
      rw [System.setWorker_same]
      refine ⟨?_, ⟨by simp [hb.1], hb.2⟩, by simpa [appendedBy] using hinv.file⟩
      have htook : takenBy v es = (appendedBy v es).map (·.1) ++ (s.workers v).msgs := by
        simpa [Worker.pending, hpc] using hinv.took
      have hone : takenBy v [(a, .took v (s.ring.mem.read buf n.toNat))] = [s.ring.mem.read buf n.toNat] := by
        simp [takenBy, taken]
      rw [takenBy_append, htook, hone]
      simp [appendedBy, Worker.pending]
    · rw [System.setWorker_other _ _ hv]
      exact (h.worker v).other (by simp [takenBy, taken, Ne.symm hv]) rfl
  · intro v hv
    have hv' : s.forked ≤ v := hv
    exact (System.setWorker_other _ _ (by omega)).trans (h.unforked v hv')

/-- Every step of `runStep`. -/
theorem Inv.run (h : Inv len es s) (hw : w < s.forked)
    (hstep : s.runStep w = some (e, t)) : Inv len (es ++ [(a, e)]) t := by
  have hb := (h.worker w).batch
  unfold System.runStep at hstep
  -- one case for each place; most steps are quiet
  cases hpc : (s.workers w).pc with
  | loopHead =>
      simp only [hpc, Option.some.injEq, Prod.mk.injEq] at hstep
      obtain ⟨rfl, rfl⟩ := hstep
      have hmsgs : (s.workers w).msgs = [] := by simpa [Worker.InBatch, hpc] using hb
      have hnext : ∀ pc, pc = .locking ∨ pc = .exited → Inv len (es ++ [(a, .internal)]) (s.setPc w pc) := by
        rintro pc (rfl | rfl)
        · exact h.move hw { s.workers w with pc := .locking } (by simp [hpc, WorkerPc.inside])
            (by simp [hpc, WorkerPc.plain]) rfl (by simp [Worker.pending, hpc]) hmsgs rfl
        · exact h.move hw { s.workers w with pc := .exited } (by simp [hpc, WorkerPc.inside])
            (by simp [hpc, WorkerPc.plain]) rfl (by simp [Worker.pending, hpc]) hmsgs rfl
      exact hnext _ (by split <;> simp)
  | locking =>
      simp only [hpc, Option.ite_none_right_eq_some, Option.some.injEq, Prod.mk.injEq] at hstep
      obtain ⟨hfree, rfl, rfl⟩ := hstep
      exact h.acquire hw (Or.inl hpc) hfree
  | woken =>
      simp only [hpc, Option.ite_none_right_eq_some, Option.some.injEq, Prod.mk.injEq] at hstep
      obtain ⟨hfree, rfl, rfl⟩ := hstep
      exact h.acquire hw (Or.inr hpc) hfree
  | testing =>
      have hmsgs : (s.workers w).msgs = [] := by simpa [Worker.InBatch, hpc] using hb
      have hplain : (s.workers w).pc.plain = true := by simp [hpc, WorkerPc.plain]
      simp only [hpc] at hstep
      split at hstep
      · obtain ⟨rfl, rfl⟩ := Prod.mk.inj (Option.some.inj hstep)
        exact h.release hw (by simp [hpc, WorkerPc.inside]) hplain rfl (by simp [Worker.pending, hpc]) hmsgs
      · obtain ⟨rfl, rfl⟩ := Prod.mk.inj (Option.some.inj hstep)
        exact h.move hw { s.workers w with pc := .reading 0 } (by simp [hpc, WorkerPc.inside]) hplain rfl
          (by simp [Worker.pending, hpc]) ⟨by simp [hmsgs], Nat.zero_le _⟩ rfl
  | waiting => simp [hpc] at hstep
  | exited => simp [hpc] at hstep
  | aborted => simp [hpc] at hstep
  | reading num => simp [hpc] at hstep
  | copying num buf n =>
      simp only [hpc, Option.some.injEq, Prod.mk.injEq] at hstep
      obtain ⟨rfl, rfl⟩ := hstep
      exact h.copied hw hpc
  | appending i =>
      simp only [hpc, Option.ite_none_right_eq_some, Option.some.injEq, Prod.mk.injEq] at hstep
      obtain ⟨hi, rfl, rfl⟩ := hstep
      exact h.move hw { s.workers w with pc := .loopHead, msgs := [] } (by simp [hpc, WorkerPc.inside])
        (by simp [hpc, WorkerPc.plain]) rfl (by simp [Worker.pending, hpc, hi]) rfl rfl

/-- The assert in `ReadNext` fails: the message is counted off, and stays in the ring. -/
theorem Inv.aborted (hlen : len ≤ 2 ^ 31 - 4) (h : Inv len es s) (hw : w < s.forked) {num : Nat}
    (hpc : (s.workers w).pc = .reading num) (hused : s.ring.used ≠ 0) :
    Inv len (es ++ [(a, .internal)]) ({ s with ring := s.ring.setSize (s.ring.size - 1) }.setPc w .aborted) := by
  have hholder : s.holder = some (.worker w) := h.locked.inside_worker.mp (by simp [hpc, WorkerPc.inside])
  have hbatch : (s.workers w).msgs.length = num ∧ num ≤ kMaxMessageEachTime := by
    simpa only [Worker.InBatch, hpc] using (h.worker w).batch
  refine ⟨?_, ?_, ?_, ?_⟩
  · exact h.locked.worker { s.workers w with pc := .aborted } rfl (fun v hv => System.setWorker_other _ _ hv)
      (System.setWorker_same _ _) (by simp [WorkerPc.inside, System.setPc, hholder]) (fun _ _ => Iff.rfl)
  -- the count is lowered, and no record is read
  · obtain ⟨q, hrep, hne, heq⟩ := h.conserved
    rw [intact_of_reading hholder hpc] at hrep
    rw [System.inFlight, ofHolder_worker hholder, hpc] at heq
    refine ⟨q, ?_, hne, ?_⟩
    · rw [System.intact, ofHolder_worker (by exact hholder)]
      simpa [System.setPc, WorkerPc.intact] using Rep.counted hlen hrep hused
    · rw [System.inFlight, ofHolder_worker (by exact hholder)]
      simpa [System.setPc, WorkerPc.inFlight, accepted, taken] using heq
  · intro v
    by_cases hv : v = w
    · subst hv
      refine (System.setWorker_same _ _) ▸ (h.worker v).keep rfl ?_ ?_ rfl
      · simp [Worker.pending, hpc]
      · show (s.workers v).msgs.length ≤ kMaxMessageEachTime
        rw [hbatch.1]
        exact hbatch.2
    · have hsame : ({ s with ring := s.ring.setSize (s.ring.size - 1) }.setPc w .aborted).workers v = s.workers v :=
        System.setWorker_other _ _ hv
      exact hsame ▸ (h.worker v).other rfl rfl
  · intro v hv
    have hv' : s.forked ≤ v := hv
    exact (System.setWorker_other _ _ (by omega)).trans (h.unforked v hv')

/-- Every step of `readStep`. -/
theorem Inv.read (hlen : len ≤ 2 ^ 31 - 4) (h : Inv len es s) (hw : w < s.forked) {found : Int}
    (hstep : s.readStep w found = some (e, t)) : Inv len (es ++ [(a, e)]) t := by
  have hb := (h.worker w).batch
  unfold System.readStep at hstep
  cases hpc : (s.workers w).pc with
  | reading num =>
      have hbatch : (s.workers w).msgs.length = num ∧ num ≤ kMaxMessageEachTime := by
        simpa only [Worker.InBatch, hpc] using hb
      have hleave : Inv len (es ++ [(a, .internal)]) (s.unlock.setPc w (.appending 0)) :=
        h.release hw (by simp [hpc, WorkerPc.inside]) (by simp [hpc, WorkerPc.plain]) rfl
          (by simp [Worker.pending, hpc]) ⟨Nat.zero_le _, by simpa [hbatch.1] using hbatch.2⟩
      simp only [hpc] at hstep
      split at hstep
      · rename_i hnum
        -- the assert on the length that is found, and then the record
        split at hstep
        · rename_i hfound
          obtain ⟨rfl, rfl⟩ := Prod.mk.inj (Option.some.inj hstep)
          exact h.aborted hlen hw hpc hfound.1
        cases hres : s.ring.pop.2 with
        | none =>
            have hring := h.nothing hlen hpc hres
            have hpair : s.ring.pop = (s.ring, none) := Prod.ext hring hres
            rw [hpair] at hstep
            obtain ⟨rfl, rfl⟩ := Prod.mk.inj (Option.some.inj hstep)
            exact hleave
        | some r =>
            have hpair : s.ring.pop = (s.ring.pop.1, some r) := Prod.ext rfl hres
            obtain ⟨hne, hpopped⟩ := h.popped (a := a) hlen hw hpc hnum hres
            rw [hpair] at hstep
            simp only [hne, if_false, Option.some.injEq, Prod.mk.injEq] at hstep
            obtain ⟨rfl, rfl⟩ := hstep
            exact hpopped
      · obtain ⟨rfl, rfl⟩ := Prod.mk.inj (Option.some.inj hstep)
        exact hleave
  | _ => simp [hpc] at hstep

/-- What `LogFdFile::Append` adds to its files, rotated or not. -/
theorem append_files (f : RotatingFile) (msg : Message) (ret : Option Nat) :
    (LogFdFile.append f msg ret).files.flatten = f.files.flatten ++ onDisk (msg, ret) := by
  unfold LogFdFile.append
  by_cases hfull : f.bytesWritten ≥ f.rotateSize <;> cases ret <;>
    simp [hfull, RotatingFile.files, RotatingFile.write, RotatingFile.rotateFile, onDisk]

/-- A worker gives the next message of its batch to its file. -/
theorem Inv.appended (h : Inv len es s) (hw : w < s.forked) {ret : Option Nat}
    (hstep : s.appendStep w ret = some (e, t)) : Inv len (es ++ [(a, e)]) t := by
  unfold System.appendStep at hstep
  cases hpc : (s.workers w).pc with
  | appending i =>
      -- the message at the index is the next of the batch
      cases hmsg : (s.workers w).msgs[i]? with
      | none => simp [hpc, hmsg] at hstep
      | some msg =>
          simp only [hpc, hmsg, Option.some.injEq, Prod.mk.injEq] at hstep
          obtain ⟨rfl, rfl⟩ := hstep
          have hi : i < (s.workers w).msgs.length := (List.getElem?_eq_some_iff.mp hmsg).1
          have hdrop : (s.workers w).msgs.drop i = msg :: (s.workers w).msgs.drop (i + 1) := by
            rw [List.drop_eq_getElem_cons hi, (List.getElem?_eq_some_iff.mp hmsg).2]
          refine ⟨?_, ?_, ?_, ?_⟩
          · refine h.locked.worker _ rfl (fun v hv => System.setWorker_other _ _ hv) (System.setWorker_same _ _) ?_
              (fun _ _ => Iff.rfl)
            rw [System.setWorker_holder, ← h.locked.inside_worker, hpc]
            simp [WorkerPc.inside]
          · obtain ⟨q, hrep, hne, heq⟩ := h.conserved
            have hplain : (s.workers w).pc.plain = true := by simp [hpc, WorkerPc.plain]
            have hsame : ∀ {β : Type} {d : β} {f : WorkerPc → β}, f (.appending i) = d → f (.appending (i + 1)) = d →
                (s.setWorker w { s.workers w with
                  pc := .appending (i + 1), msgCount := ((s.workers w).msgCount + 1) % 2 ^ 32,
                  file := LogFdFile.append (s.workers w).file msg ret }).ofHolder d f = s.ofHolder d f := fun hf hf' =>
              ofHolder_worker_step (fun v hv => System.setWorker_other _ _ hv) (System.setWorker_same _ _)
                (fun _ _ => Iff.rfl) (hpc ▸ hf) hf'
            refine ⟨q, ?_, hne, ?_⟩
            · exact Eq.mpr (congrArg (Rep len · q) (hsame (d := s.ring) (f := WorkerPc.intact s.ring) rfl rfl)) hrep
            · rw [accepted_append, taken_append, heq]
              have hfly := hsame (d := []) (f := WorkerPc.inFlight s.ring.mem) rfl rfl
              simpa [System.inFlight, accepted, taken] using hfly.symm
          · intro v
            by_cases hv : v = w
            · subst hv
              have hinv := h.worker v
              have hb : (s.workers v).msgs.length ≤ kMaxMessageEachTime := by
                have := hinv.batch
                simp only [Worker.InBatch, hpc] at this
                exact this.2
              rw [System.setWorker_same]
              refine ⟨?_, ⟨hi, hb⟩, ?_⟩
              · have htook : takenBy v es = (appendedBy v es).map (·.1) ++ msg :: (s.workers v).msgs.drop (i + 1) := by
                  rw [← hdrop]
                  simpa [Worker.pending, hpc] using hinv.took
                rw [takenBy_append, htook]
                simp [takenBy, taken, appendedBy, Worker.pending]
              · simp [append_files, hinv.file, appendedBy]
            · rw [System.setWorker_other _ _ hv]
              exact (h.worker v).other (by simp [takenBy, taken]) (by simp [appendedBy, Ne.symm hv])
          · intro v hv
            have hv' : s.forked ≤ v := hv
            exact (System.setWorker_other _ _ (by omega)).trans (h.unforked v hv')
  | _ => simp [hpc] at hstep

/-! ## The clients' steps

A client locks, pushes its message and leaves. Only the push touches the ring, and its answer says whether the
message is in. -/

/-- **The rule for a step of client `c`** that leaves the ring alone. -/
theorem Inv.client (h : Inv len es s) (y : Client) (holder' : Option Proc)
    (hin : y.pc.inside = true ↔ holder' = some (.client c))
    (hother : ∀ p ≠ Proc.client c, holder' = some p ↔ s.holder = some p) :
    Inv len (es ++ [(a, .internal)]) ({ s with holder := holder' }.setClient c y) where
  locked := h.locked.client y (fun _ => rfl) (fun _ hd => System.setClient_other _ _ hd) (System.setClient_same _ _)
    hin hother
  conserved := h.conserved.same (ofHolder_client_step rfl hother) rfl rfl (ofHolder_client_step rfl hother)
  worker := fun v => (h.worker v).other rfl rfl
  unforked := h.unforked

/-- Locking keeps the invariant: the client is inside, and nothing else changed. -/
theorem Inv.lock (h : Inv len es s) {msg : Message} (hstep : s.lockStep c msg = some (e, t)) :
    Inv len (es ++ [(a, e)]) t := by
  simp only [System.lockStep, Option.ite_none_right_eq_some, Option.some.injEq, Prod.mk.injEq] at hstep
  obtain ⟨⟨hfree, -, -⟩, rfl, rfl⟩ := hstep
  refine h.client { s.clients c with pc := .locked msg } (some (.client c)) (by simp [ClientPc.inside]) ?_
  intro p hp
  simp [hfree, Ne.symm hp]

/-- The push: the message is queued behind the others exactly when the client is told so. -/
theorem Inv.write (hlen : len ≤ 2 ^ 31 - 4) (h : Inv len es s) (hstep : s.writeStep c = some (e, t)) :
    Inv len (es ++ [(a, e)]) t := by
  unfold System.writeStep at hstep
  cases hpc : (s.clients c).pc with
  | outside => simp [hpc] at hstep
  | written msg ok => simp [hpc] at hstep
  | locked msg =>
      have hholder : s.holder = some (.client c) := h.locked.inside_client.mp (by simp [hpc, ClientPc.inside])
      have hfly : s.inFlight = [] := ofHolder_eq (by simp [hholder])
      have hfly' : ∀ ring y, ({ s with ring := ring }.setClient c y).inFlight = [] := fun ring y =>
        ofHolder_eq (by simp [hholder])
      have hintact' : ∀ ring y, ({ s with ring := ring }.setClient c y).intact = ring := fun ring y =>
        intact_eq (by simp [hholder])
      obtain ⟨q, hrep, hne, heq⟩ := h.conserved
      rw [intact_eq (by simp [hholder])] at hrep
      rw [hfly] at heq
      cases hpush : s.ring.push msg with
      | none => simp [hpc, hpush] at hstep
      | some r =>
          obtain ⟨ring, ok, ws⟩ := r
          simp only [hpc, hpush, Option.some.injEq, Prod.mk.injEq] at hstep
          obtain ⟨rfl, rfl⟩ := hstep
          have hquiet : (if ok = true then Event.accepted c msg else .rejected c msg).quiet = true := by
            cases ok <;> rfl
          refine ⟨?_, ?_, fun v => (h.worker v).other (takenBy_quiet hquiet) (appendedBy_quiet hquiet), h.unforked⟩
          · exact h.locked.client { s.clients c with pc := .written msg ok } (fun _ => rfl)
              (fun d hd => System.setClient_other _ _ hd) (System.setClient_same _ _)
              (by simp [ClientPc.inside, hholder]) (fun _ _ => Iff.rfl)
          · cases ok with
            | true =>
                obtain ⟨addr, hrep', -⟩ := hrep.push hlen hpush
                obtain ⟨hpos, -⟩ := push_accepted hpush
                have hmsg : msg ≠ [] := fun hnil => by simp [hnil] at hpos
                refine ⟨_, by rw [hintact']; exact hrep', ?_, ?_⟩
                · simpa [or_imp, forall_and] using ⟨hne, hmsg⟩
                · rw [hfly']
                  simp [heq, accepted, taken]
            | false =>
                obtain ⟨rfl, -⟩ := push_rejected hpush
                refine ⟨q, by rw [hintact']; exact hrep, hne, ?_⟩
                rw [hfly']
                simp [heq, accepted, taken]

/-- `notify_one` only moves a waiting worker on to wanting the mutex. -/
theorem notifyOne_cases {notified : Option Nat} (h : s.notifyOne notified = some t) :
    t = s ∨ ∃ w, w < s.forked ∧ (s.workers w).pc = .waiting ∧ t = s.setPc w .woken := by
  unfold System.notifyOne at h
  cases notified with
  | none =>
      simp only [Option.ite_none_right_eq_some, Option.some.injEq] at h
      exact Or.inl h.2.symm
  | some w =>
      simp only [Option.ite_none_right_eq_some, Option.some.injEq] at h
      exact Or.inr ⟨w, h.1.1, h.1.2, h.2.symm⟩

/-- A waiting worker is woken, by a notification or by its deadline. -/
theorem Inv.wake (h : Inv len es s) (hw : w < s.forked) (hpc : (s.workers w).pc = .waiting) :
    Inv len (es ++ [(a, .internal)]) (s.setPc w .woken) := by
  have hmsgs : (s.workers w).msgs = [] := by simpa [Worker.InBatch, hpc] using (h.worker w).batch
  exact h.move hw { s.workers w with pc := .woken } (by simp [hpc, WorkerPc.inside])
    (by simp [hpc, WorkerPc.plain]) rfl (by simp [Worker.pending, hpc]) hmsgs rfl

/-- An internal event in the middle of a step does not show in the labels of the run. -/
theorem Inv.dropInternal {b : Action} (h : Inv len (es ++ [(a, .internal)] ++ [(b, .internal)]) s) :
    Inv len (es ++ [(b, .internal)]) s where
  locked := h.locked
  conserved := by simpa [Conserved, accepted, taken] using h.conserved
  worker := by
    intro v
    have hv := h.worker v
    exact ⟨by simpa [takenBy, taken, appendedBy] using hv.took, hv.batch, by simpa [appendedBy] using hv.file⟩
  unforked := h.unforked

/-- Leaving, with or without a notification. -/
theorem Inv.leave (h : Inv len es s) {notified : Option Nat} (hstep : s.leaveStep c notified = some (e, t)) :
    Inv len (es ++ [(a, e)]) t := by
  unfold System.leaveStep at hstep
  have hout : ∀ {s : System} {es : List (Action × Event)} (y : Client), Inv len es s →
      (s.clients c).pc.inside = true → y.pc = .outside →
      Inv len (es ++ [(a, .internal)]) (s.unlock.setClient c y) := by
    intro s es y h hin hy
    have hholder := h.locked.inside_client.mp hin
    refine h.client y none (by simp [hy, ClientPc.inside]) ?_
    intro p hp
    simp [hholder, Ne.symm hp]
  cases hpc : (s.clients c).pc with
  | outside => simp [hpc] at hstep
  | locked msg => simp [hpc] at hstep
  | written msg ok =>
      have hin : (s.clients c).pc.inside = true := by simp [hpc, ClientPc.inside]
      cases ok with
      | false =>
          simp only [hpc, Option.some.injEq, Prod.mk.injEq] at hstep
          obtain ⟨rfl, rfl⟩ := hstep
          exact hout _ h hin rfl
      | true =>
          simp only [hpc, Option.map_eq_some_iff, Prod.mk.injEq] at hstep
          obtain ⟨s₁, hs₁, rfl, rfl⟩ := hstep
          have hcases : s₁ = s ∨ ∃ w, w < s.forked ∧ (s.workers w).pc = .waiting ∧ s₁ = s.setPc w .woken := by
            split at hs₁
            · exact notifyOne_cases hs₁
            · exact Or.inl (Option.some.inj hs₁).symm
          -- the notified worker wakes up, which is quiet
          rcases hcases with rfl | ⟨w, hw, hwait, rfl⟩
          · exact hout _ h hin rfl
          · exact (hout _ (h.wake (a := a) hw hwait) hin rfl).dropInternal

/-! ## Every step, and every run

One case for each action. -/

/-- A new worker has taken and written nothing. -/
theorem Inv.fork (h : Inv len es s) :
    Inv len (es ++ [(a, .internal)]) ({ s with forked := s.forked + 1 }.setWorker s.forked newWorker) := by
  have hsame : ({ s with forked := s.forked + 1 }.setWorker s.forked newWorker) = { s with forked := s.forked + 1 } := by
    have hworkers : (fun i => if i = s.forked then newWorker else s.workers i) = s.workers := by
      funext i
      split
      · rename_i hi
        rw [h.unforked i (by omega)]
      · rfl
    simp [System.setWorker, hworkers]
  rw [hsame]
  exact ⟨h.locked, h.conserved.same rfl rfl rfl rfl, fun v => (h.worker v).other rfl rfl,
    fun v hv => h.unforked v (by exact Nat.le_of_succ_le hv)⟩

/-- Every step keeps the invariant. -/
theorem Inv.step (hlen : len ≤ 2 ^ 31 - 4) (h : Inv len es s) (hstep : s.step a = some (e, t)) :
    Inv len (es ++ [(a, e)]) t := by
  cases ha : a with
  | lock c msg => rw [ha] at hstep; exact h.lock hstep
  | write c => rw [ha] at hstep; exact h.write hlen hstep
  | leave c notified => rw [ha] at hstep; exact h.leave hstep
  | fork =>
      rw [ha] at hstep
      obtain ⟨rfl, rfl⟩ := Prod.mk.inj (Option.some.inj hstep)
      exact h.fork
  | run w =>
      simp only [ha, System.step, Option.ite_none_right_eq_some] at hstep
      exact h.run hstep.1 hstep.2
  | read w found =>
      simp only [ha, System.step, Option.ite_none_right_eq_some] at hstep
      exact h.read hlen hstep.1 hstep.2
  | append w ret =>
      simp only [ha, System.step, Option.ite_none_right_eq_some] at hstep
      exact h.appended hstep.1 hstep.2
  | timeout w =>
      simp only [ha, System.step, Option.ite_none_right_eq_some, Option.some.injEq, Prod.mk.injEq] at hstep
      obtain ⟨⟨hw, hpc⟩, rfl, rfl⟩ := hstep
      exact h.wake hw hpc
  | stop w =>
      simp only [ha, System.step, Option.ite_none_right_eq_some, Option.some.injEq, Prod.mk.injEq] at hstep
      obtain ⟨hw, rfl, rfl⟩ := hstep
      have hquiet : ∀ y : Worker, y.pc = (s.workers w).pc → y.msgs = (s.workers w).msgs →
          y.file = (s.workers w).file → Inv len (es ++ [(.stop w, .internal)]) (s.setWorker w y) := by
        intro y hpc hmsgs hfile
        refine ⟨?_, ?_, ?_, ?_⟩
        · exact h.locked.worker y rfl (fun v hv => System.setWorker_other _ _ hv) (System.setWorker_same _ _)
            (by rw [hpc]; exact h.locked.inside_worker) (fun _ _ => Iff.rfl)
        · have hpcs : ∀ v, ((s.setWorker w y).workers v).pc = (s.workers v).pc := by
            intro v
            by_cases hv : v = w
            · rw [hv, System.setWorker_same]
              exact hpc
            · rw [System.setWorker_other _ _ hv]
          exact h.conserved.same (ofHolder_same rfl hpcs) rfl rfl (ofHolder_same rfl hpcs)
        · intro v
          by_cases hv : v = w
          · subst hv
            rw [System.setWorker_same]
            refine (h.worker v).keep rfl ?_ ?_ hfile
            · simp only [Worker.pending, hpc, hmsgs]
            · simpa only [Worker.InBatch, hpc, hmsgs] using (h.worker v).batch
          · rw [System.setWorker_other _ _ hv]
            exact (h.worker v).other rfl rfl
        · intro v hv
          have hv' : s.forked ≤ v := hv
          exact (System.setWorker_other _ _ (by omega)).trans (h.unforked v hv')
      exact hquiet _ rfl rfl rfl

/-- It holds in the beginning, -/
theorem inv_init {mem : Mem} {ring : RingBuffer} (hlen : len ≤ 2 ^ 31 - 4) (h : create len mem = some ring) :
    Inv len [] (init ring) where
  locked := by
    intro p
    cases p <;> simp [System.inside, init, newClient, newWorker, ClientPc.inside, WorkerPc.inside]
  conserved := ⟨[], rep_create hlen h, by simp, rfl⟩
  worker := fun _ => ⟨rfl, rfl, rfl⟩
  unforked := fun _ _ => rfl

/-- and so in every state of a run. -/
theorem inv_run {mem : Mem} {ring : RingBuffer} (hlen : len ≤ 2 ^ 31 - 4) (h : create len mem = some ring)
    (hrun : Run Step (init ring) es s) : Inv len es s :=
  hrun.invariantTrace (fun _ _ _ _ hinv hst => hinv.step hlen hst) (inv_init hlen h)

/-! ## The delivered log

What is still in the ring, popped one by one, is the rest of what was accepted. -/

/-- What the ring would hand out is what is queued in it. -/
theorem popAll_rep (hlen : len ≤ 2 ^ 31 - 4) {rb : RingBuffer} {q : List Entry} (h : Rep len rb q) {n : Nat} (hn : q.length ≤ n) :
    popAll n rb = q.map (·.msg) := by
  -- by induction on the queue
  induction q generalizing rb n with
  | nil =>
      cases n with
      | zero => rfl
      | succ n =>
          rcases h.pop hlen with ⟨-, hnone⟩ | ⟨e, q', hcons, -⟩
          · unfold popAll
            rw [hnone]
            rfl
          · cases hcons
  | cons e q ih =>
      cases n with
      | zero => cases hn
      | succ n =>
          rcases h.pop hlen with ⟨hnil, -⟩ | ⟨e', q', hcons, hsome, hrep⟩
          · cases hnil
          · obtain ⟨rfl, rfl⟩ := List.cons.inj hcons
            have hpair : rb.pop = (rb.pop.1, some ⟨e.addr + 4, e.msg.length, e.msg⟩) := Prod.ext rfl hsome
            unfold popAll
            rw [hpair]
            exact congrArg (e.msg :: ·) (ih hrep (Nat.le_of_succ_le_succ hn))

/-- An aborted worker has changed the count only. -/
theorem intact_setSize (s : System) : s.intact = s.ring ∨ ∃ n, s.intact = s.ring.setSize n := by
  unfold System.intact System.ofHolder
  split
  · rename_i w _
    cases (s.workers w).pc with
    | aborted => exact Or.inr ⟨_, rfl⟩
    | _ => exact Or.inl rfl
  · exact Or.inl rfl

/-- Every message takes room in the ring. -/
theorem length_le_totalCost (q : List Entry) : (q.length : Int) ≤ totalCost q := by
  induction q with
  | nil => exact le_refl _
  | cons e q ih =>
      have hcost := e.cost_pos
      rw [totalCost_cons, List.length_cons]
      omega

/-- The queued messages are those of the ring's queue. -/
theorem queued_eq (hlen : len ≤ 2 ^ 31 - 4) {q : List Entry} (h : Rep len s.intact q) : s.queued = q.map (·.msg) := by
  have hused := h.used hlen
  have hcount := length_le_totalCost q
  have hqueued : s.queued = popAll s.intact.used.toNat s.intact := by
    rcases intact_setSize s with heq | ⟨n, heq⟩
    · rw [heq]
      rfl
    · rw [heq, popAll_setSize]
      rfl
  rw [hqueued]
  exact popAll_rep hlen h (by omega)

/-- **Nothing is lost, doubled or reordered, however the processes interleave.** In every run of clients and
    workers over a bus of at most `2^31 - 4` bytes: at most one process is inside the guarded section; the
    messages accepted are, in order, those the workers took out, the one just being copied, and those still in
    the ring; the messages a worker took are, in order, those it has given to its file and those it still
    holds, at most 1024, none of them once it has left its loop; and its files hold what the writes took of them.
    A worker that has aborted goes on holding what it had taken, and the message it was to take stays in the ring. -/
theorem bus_delivers {mem : Mem} {ring : RingBuffer} (hlen : len ≤ 2 ^ 31 - 4) (hring : create len mem = some ring)
    (hrun : Run Step (init ring) es s) :
    (∀ p p', s.inside p = true → s.inside p' = true → p = p') ∧
    accepted es = (taken es).map (·.2) ++ s.inFlight ++ s.queued ∧
    ∀ w, takenBy w es = (appendedBy w es).map (·.1) ++ (s.workers w).pending ∧
      (s.workers w).pending.length ≤ 1024 ∧ ((s.workers w).pc = .exited → (s.workers w).pending = []) ∧
      (s.workers w).file.files.flatten = ((appendedBy w es).map onDisk).flatten := by
  have hinv := inv_run hlen hring hrun
  refine ⟨?_, ?_, ?_⟩
  · intro p p' hp hp'
    have := (hinv.locked p).mp hp
    rw [(hinv.locked p').mp hp'] at this
    exact (Option.some.inj this).symm
  · obtain ⟨q, hrep, -, heq⟩ := hinv.conserved
    rw [heq, queued_eq hlen hrep]
  · intro w
    obtain ⟨htook, hbatch, hfile⟩ := hinv.worker w
    refine ⟨htook, ?_, ?_, hfile⟩
    · cases hpc : (s.workers w).pc <;> simp_all [Worker.InBatch, Worker.pending, kMaxMessageEachTime] <;> omega
    · intro hpc
      simpa [Worker.InBatch, Worker.pending, hpc] using hbatch

/-! ## A run

Two clients and two workers, of which one has taken a message. -/

/-- An executed list of actions is a run. -/
theorem run_exec {as : List Action} (h : exec s as = some (es, t)) : Run Step s es t := by
  induction as generalizing s es with
  | nil =>
      obtain ⟨rfl, rfl⟩ := Prod.mk.inj (Option.some.inj h)
      exact Run.refl
  | cons a as ih =>
      simp only [exec] at h
      split at h
      · rename_i e u hu
        obtain ⟨⟨es', t'⟩, hrest, heq⟩ := Option.map_eq_some_iff.mp h
        obtain ⟨rfl, rfl⟩ := Prod.mk.inj heq
        exact (Run.single (show Step s (a, e) u from hu)).trans (ih hrest)
      · cases h

/-- Two clients and two workers: worker 1 takes the first message while client 1 pushes the second. -/
def twoClients : List Action :=
  [.fork, .fork, .lock 0 [1], .write 0, .leave 0 none, .run 1, .run 1, .run 1, .read 1 5, .run 1, .read 1 5,
    .lock 1 [2, 3], .append 1 (some 1), .write 1]

/-- The second message is still queued when the first one has been taken. -/
theorem bus_delivers_twoClients : ∃ es s, Run Step (init smallRing) es s ∧ accepted es = [[1], [2, 3]] ∧
    taken es = [(1, [1])] ∧ s.inFlight ++ s.queued = [[2, 3]] := by
  have hrun : (exec (init smallRing) twoClients).map (fun r => (accepted r.1, taken r.1)) =
      some ([[1], [2, 3]], [(1, [1])]) := by decide +kernel
  obtain ⟨⟨es, s⟩, hexec, hres⟩ := Option.map_eq_some_iff.mp hrun
  obtain ⟨hacc, htaken⟩ := Prod.mk.inj hres
  have hr := run_exec hexec
  obtain ⟨-, heq, -⟩ := bus_delivers (by omega) create_small hr
  refine ⟨es, s, hr, hacc, htaken, ?_⟩
  have heq' : [[1], [2, 3]] = [[1]] ++ s.inFlight ++ s.queued := by
    rw [← hacc, heq, show taken es = [(1, [1])] from htaken]
    rfl
  simpa using heq'.symm

end LogServer
end Snippets
