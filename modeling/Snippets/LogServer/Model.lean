import Snippets.RingBuffer.Model
import Snippets.LogFiles.Model

/-!
# `LogServer.Model` — the process bus, its clients and the log server's workers

Model of `ProcessBus/src/process_bus.cc`, `ProcessBus/src/client.cc` and `logsvrd/src/logsvrd.cc` as one system:
any number of clients push messages into the ring in shared memory (`Connect` maps the memory the server's
`Listen` initialised), any number of forked workers pop them and append them to a file of their own, and one
named mutex guards the ring.

An `Action` is one step of one process, between two points where another process may run. A process that
crashed is one that takes no further step, so crashes need no action of their own; `fork` is a worker started
by `Run` or restarted by `MonitorRoutine`. `Event` is what the step did to a message. The one crash that the
code makes for itself is a state: `Read` does not set `e.len`, and `ReadNext` asserts that it is not 0, so an
action that reads says what it finds there.
-/

namespace Snippets
namespace LogServer

open Lib LogFiles

abbrev Message := List UInt8

/-- `kMaxMessageEachTime`. -/
def kMaxMessageEachTime : Nat := 1 <<< 10

/-! ## State -/

/-- A process attached to the bus. -/
inductive Proc
  | client (c : Nat)
  | worker (w : Nat)
deriving DecidableEq, Repr

/-- Where a client stands in `Output`. -/
inductive ClientPc
  | outside
  | locked (msg : Message)               -- holds `mutex`, before `bus->Write(e)`
  | written (msg : Message) (ok : Bool)  -- holds `mutex`, after it
deriving DecidableEq, Repr

/-- A client process: `failed` and `gTotalBytes`. -/
structure Client where
  pc : ClientPc
  failed : Nat
  totalBytes : Nat
deriving DecidableEq, Repr

/-- Where a worker stands in `WorkerRoutine`. -/
inductive WorkerPc
  | loopHead                              -- before `while (running_)`
  | locking                               -- at the `scoped_lock`
  | testing                               -- holds `mutex_`, before the test of the waiting loop
  | waiting                               -- inside `timed_wait`, which has released `mutex_`
  | woken                                 -- inside `timed_wait`, which wants `mutex_` back
  | reading (num : Nat)                   -- holds `mutex_`, before the test of the reading loop
  | copying (num : Nat) (buf len : Int)   -- holds `mutex_`, has read `e`, before `msgs.push_back`
  | aborted                               -- ended by the assert in `ReadNext`; nobody gives `mutex_` back
  | appending (i : Nat)                   -- before the test of the writing loop
  | exited
deriving DecidableEq, Repr

/-- A worker process: its `running_`, its locals and its file. -/
structure Worker where
  pc : WorkerPc
  running : Bool
  msgs : List Message
  msgCount : Nat
  file : RotatingFile
deriving DecidableEq, Repr

/-- The ring in shared memory, who holds the mutex, and every process; workers `0` to `forked - 1` exist. -/
structure System where
  ring : RingBuffer
  holder : Option Proc
  clients : Nat → Client
  workers : Nat → Worker
  forked : Nat

def newClient : Client := ⟨.outside, 0, 0⟩

/-- A worker that has just opened its `LogFdFile`. -/
def newWorker : Worker := ⟨.loopHead, true, [], 0, .new (1 <<< 30)⟩

/-- The bus after `Listen`, with no worker forked yet. -/
def init (ring : RingBuffer) : System := ⟨ring, none, fun _ => newClient, fun _ => newWorker, 0⟩

namespace System

def setClient (s : System) (c : Nat) (x : Client) : System :=
  { s with clients := fun i => if i = c then x else s.clients i }

def setWorker (s : System) (w : Nat) (x : Worker) : System :=
  { s with workers := fun i => if i = w then x else s.workers i }

def setPc (s : System) (w : Nat) (pc : WorkerPc) : System := s.setWorker w { s.workers w with pc := pc }

def lock (s : System) (p : Proc) : System := { s with holder := some p }

def unlock (s : System) : System := { s with holder := none }

end System

/-! ## Steps -/

inductive Action
  | lock (c : Nat) (msg : Message)              -- a client enters `Output(msg)` and takes the mutex
  | write (c : Nat)                             -- `bus->Write(e)`
  | leave (c : Nat) (notified : Option Nat)     -- the rest of `Output`; whom `notify_one` wakes
  | fork
  | run (w : Nat)                               -- the worker's next step, outside the reading loop
  | read (w : Nat) (len : Int)                  -- and in it, where a new `e.len` is `len` by chance
  | append (w : Nat) (ret : Option Nat)         -- `file->Append`, with the result of its `write`
  | timeout (w : Nat)                           -- the deadline of `timed_wait`
  | stop (w : Nat)                              -- `LogServer::Stop`, from a signal
deriving DecidableEq, Repr

inductive Event
  | internal
  | accepted (c : Nat) (msg : Message)
  | rejected (c : Nat) (msg : Message)
  | took (w : Nat) (msg : Message)
  | appended (w : Nat) (msg : Message) (ret : Option Nat)
deriving DecidableEq, Repr

namespace System

variable (s : System)

/-- `scoped_lock` at the head of `Output`. -/
def lockStep (c : Nat) (msg : Message) : Option (Event × System) :=
  if s.holder = none ∧ (s.clients c).pc = .outside ∧ msg.length < 2 ^ 31 then
    some (.internal, (s.lock (.client c)).setClient c { s.clients c with pc := .locked msg })
  else none

/-- `bus->Write(e)`. -/
def writeStep (c : Nat) : Option (Event × System) :=
  match (s.clients c).pc with
  | .locked msg =>
      match s.ring.push msg with
      | some (ring, ok, _) =>
          some (if ok then .accepted c msg else .rejected c msg,
            { s with ring := ring }.setClient c { s.clients c with pc := .written msg ok })
      | none => none
  | _ => none

/-- `cond->notify_one()`: wakes a waiting worker when there is one. -/
def notifyOne (notified : Option Nat) : Option System :=
  match notified with
  | some w => if w < s.forked ∧ (s.workers w).pc = .waiting then some (s.setPc w .woken) else none
  | none => if ∀ w < s.forked, (s.workers w).pc ≠ .waiting then some s else none

/-- The rest of `Output`, which gives the mutex back. -/
def leaveStep (c : Nat) (notified : Option Nat) : Option (Event × System) :=
  match (s.clients c).pc with
  | .written msg true =>
      let client := { s.clients c with pc := .outside, totalBytes := (s.clients c).totalBytes + msg.length }
      (if s.ring.size % 10 = 0 then s.notifyOne notified else some s).map fun s =>
        (.internal, s.unlock.setClient c client)
  | .written _ false =>
      let client := { s.clients c with pc := .outside, failed := (s.clients c).failed + 1 }
      some (.internal, s.unlock.setClient c client)
  | _ => none

/-- The worker's next step; `none` where it has to wait, or has ended, or is in the reading loop. -/
def runStep (w : Nat) : Option (Event × System) :=
  let x := s.workers w
  match x.pc with
  | .loopHead => some (.internal, s.setPc w (if x.running then .locking else .exited))
  | .locking | .woken =>
      if s.holder = none then some (.internal, (s.lock (.worker w)).setPc w .testing) else none
  | .testing =>
      if s.ring.size = 0 ∧ x.running then some (.internal, s.unlock.setPc w .waiting)
      else some (.internal, s.setPc w (.reading 0))
  | .copying num buf len =>
      let msg := s.ring.mem.read buf len.toNat
      some (.took w msg, s.setWorker w { x with pc := .reading (num + 1), msgs := x.msgs ++ [msg] })
  | .appending i =>
      if i = x.msgs.length then some (.internal, s.setWorker w { x with pc := .loopHead, msgs := [] }) else none
  | .reading _ | .waiting | .exited | .aborted => none

/-- The reading loop: its test, then `process_bus_->Read()`, which hands the address of a new `e.len` to `Pop` without setting
    it. On a ring that is not empty `Pop` has counted the message off when `ReadNext` asserts that `e.len` is not 0. -/
def readStep (w : Nat) (len : Int) : Option (Event × System) :=
  match (s.workers w).pc with
  | .reading num =>
      if num < kMaxMessageEachTime then
        if s.ring.used ≠ 0 ∧ len = 0 then
          some (.internal, { s with ring := s.ring.setSize (s.ring.size - 1) }.setPc w .aborted)
        else
          match s.ring.pop with
          | (ring, some e) =>
              if e.len = 0 then some (.internal, { s with ring := ring }.unlock.setPc w (.appending 0))
              else some (.internal, { s with ring := ring }.setPc w (.copying num e.ptr e.len))
          | (ring, none) => some (.internal, { s with ring := ring }.unlock.setPc w (.appending 0))
      else some (.internal, s.unlock.setPc w (.appending 0))
  | _ => none

/-- `file->Append(msgs[i].data(), msgs[i].size()); ++msg_count`. -/
def appendStep (w : Nat) (ret : Option Nat) : Option (Event × System) :=
  let x := s.workers w
  match x.pc with
  | .appending i =>
      match x.msgs[i]? with
      | some msg => some (.appended w msg ret, s.setWorker w
          { x with pc := .appending (i + 1), msgCount := (x.msgCount + 1) % 2 ^ 32,
                   file := LogFdFile.append x.file msg ret })
      | none => none
  | _ => none

def step : Action → Option (Event × System)
  | .lock c msg => s.lockStep c msg
  | .write c => s.writeStep c
  | .leave c notified => s.leaveStep c notified
  | .fork => some (.internal, { s with forked := s.forked + 1 }.setWorker s.forked newWorker)
  | .run w => if w < s.forked then s.runStep w else none
  | .read w len => if w < s.forked then s.readStep w len else none
  | .append w ret => if w < s.forked then s.appendStep w ret else none
  | .timeout w =>
      if w < s.forked ∧ (s.workers w).pc = .waiting then some (.internal, s.setPc w .woken) else none
  | .stop w =>
      if w < s.forked then some (.internal, s.setWorker w { s.workers w with running := false }) else none

end System

/-- The step relation; a label is the action and what it did. -/
def Step (s : System) (l : Action × Event) (t : System) : Prop := s.step l.1 = some (l.2, t)

/-- The run that a list of actions makes, when each of them can be taken. -/
def exec (s : System) : List Action → Option (List (Action × Event) × System)
  | [] => some ([], s)
  | a :: as =>
      match s.step a with
      | some (e, t) => (exec t as).map fun r => ((a, e) :: r.1, r.2)
      | none => none

/-! ## What a run has done, and what is still to do -/

/-- The messages accepted, in the order they went into the ring. -/
def accepted : List (Action × Event) → List Message
  | [] => []
  | (_, .accepted _ msg) :: es => msg :: accepted es
  | _ :: es => accepted es

/-- The messages taken out of the ring, each with the worker that took it, in order. -/
def taken : List (Action × Event) → List (Nat × Message)
  | [] => []
  | (_, .took w msg) :: es => (w, msg) :: taken es
  | _ :: es => taken es

/-- The messages worker `w` took, in order. -/
def takenBy (w : Nat) (es : List (Action × Event)) : List Message :=
  ((taken es).filter (·.1 = w)).map (·.2)

/-- The messages worker `w` gave to `file->Append`, with the results of the writes, in order. -/
def appendedBy (w : Nat) : List (Action × Event) → List (Message × Option Nat)
  | [] => []
  | (_, .appended v msg ret) :: es => if v = w then (msg, ret) :: appendedBy w es else appendedBy w es
  | _ :: es => appendedBy w es

/-- The messages a worker has taken and not yet given to its file. -/
def Worker.pending (x : Worker) : List Message :=
  match x.pc with
  | .appending i => x.msgs.drop i
  | _ => x.msgs

/-- What `n` calls of `Pop` would return, up to the first `NULL`. -/
def popAll : Nat → RingBuffer → List Message
  | 0, _ => []
  | n + 1, rb =>
      match rb.pop with
      | (rb', some e) => e.bytes :: popAll n rb'
      | (_, none) => []

/-- The messages in the ring, oldest first. A message takes more than one byte, so there are fewer than `used()`. -/
def System.queued (s : System) : List Message := popAll s.ring.used.toNat s.ring

/-- What the worker that holds the mutex shows, and `d` when none holds it. -/
def System.ofHolder {β : Type} (s : System) (d : β) (f : WorkerPc → β) : β :=
  match s.holder with
  | some (.worker w) => f (s.workers w).pc
  | _ => d

/-- The message a worker at `pc` has popped and is about to copy. -/
def WorkerPc.inFlight (mem : Mem) : WorkerPc → List Message
  | .copying _ buf len => [mem.read buf len.toNat]
  | _ => []

/-- The message popped and not yet copied. -/
def System.inFlight (s : System) : List Message := s.ofHolder [] (WorkerPc.inFlight s.ring.mem)

def ClientPc.inside : ClientPc → Bool
  | .outside => false
  | .locked _ | .written _ _ => true

def WorkerPc.inside : WorkerPc → Bool
  | .testing | .reading _ | .copying _ _ _ | .aborted => true
  | .loopHead | .locking | .waiting | .woken | .appending _ | .exited => false

/-- The process is inside the section that the mutex guards, or has ended there. -/
def System.inside (s : System) : Proc → Bool
  | .client c => (s.clients c).pc.inside
  | .worker w => (s.workers w).pc.inside

end LogServer
end Snippets
