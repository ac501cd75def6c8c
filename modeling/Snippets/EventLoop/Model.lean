import Mathlib.Tactic.Ring
import Mathlib.Logic.Function.Basic
import Snippets.Lib.Run

/-!
# `EventLoop.Model` — `Channel`, `Poller` and `EventLoop` over `epoll`

Model of `udpserver/src/net/channel.cc`, `poller.cc`, `event_loop.cc` and of the listener in `udp_listener.cc`, with what
the kernel keeps for an `epoll` descriptor. Callbacks are the program's own; what one does to the loop is a list of
`Command`s, which an `Action` brings along. So does the answer of `epoll_wait`, which is the kernel's.

A failing `assert` and the use of a channel that has been destroyed have no result (`none`).
-/

namespace Snippets
namespace EventLoop

open Lib

abbrev Fd := Nat

/-- Where a `Channel` object lies. -/
abbrev ChannelId := Nat

/-- An `int` of `EPOLL` flags. -/
structure Mask where
  epollin : Bool
  epollout : Bool
  epollerr : Bool
  epollhup : Bool
deriving DecidableEq, Repr

/-- `kNoneEvents`. -/
def kNoneEvents : Mask := ⟨false, false, false, false⟩

/-- `Channel`; of a callback it matters here whether there is one. -/
structure Channel where
  fd : Fd
  events : Mask
  revents : Mask
  readCallback : Bool
  writeCallback : Bool
  errorCallback : Bool
deriving DecidableEq, Repr

/-- The constructor of `Channel`. -/
def Channel.new (fd : Fd) : Channel := ⟨fd, kNoneEvents, kNoneEvents, false, false, false⟩

/-! ## The kernel -/

/-- The descriptors that are open, and what the `epoll` descriptor watches. -/
structure Kernel where
  opened : Fd → Bool
  interest : Fd → Option Mask

namespace Kernel

variable (k : Kernel) (fd : Fd)

def setInterest (m : Option Mask) : Kernel := { k with interest := Function.update k.interest fd m }

/-- `epoll_ctl` with `EPOLL_CTL_ADD`; the loop ignores its errors. -/
def ctlAdd (m : Mask) : Kernel := if k.opened fd = true ∧ k.interest fd = none then k.setInterest fd (some m) else k

/-- `epoll_ctl` with `EPOLL_CTL_MOD`. -/
def ctlMod (m : Mask) : Kernel := if k.interest fd = none then k else k.setInterest fd (some m)

/-- `epoll_ctl` with `EPOLL_CTL_DEL`. -/
def ctlDel : Kernel := k.setInterest fd none

/-- `socket` has returned `fd`. -/
def open' : Kernel := { k with opened := Function.update k.opened fd true }

/-- `close`; a descriptor that is closed is no longer watched. -/
def close : Kernel := { k.setInterest fd none with opened := Function.update k.opened fd false }

end Kernel

/-! ## The state -/

/-- The `channels_` of `Poller` and the size of its `events_`. -/
structure Poller where
  channels : Fd → Option ChannelId
  eventsSize : Nat

/-- The three tests of `HandleEvents`. -/
inductive Stage
  | error
  | write
  | read
deriving DecidableEq, Repr

/-- Where `EventLoop::Run` stands. -/
inductive Pc
  | outside                                          -- before `Run`
  | testing                                          -- before the test of `quit_`
  | handling (rest : List (ChannelId × Stage)) (size : Nat)
      -- in the loop over `channels`, of which there are `size`, with these tests left
  | returned
deriving DecidableEq, Repr

/-- The loop with its poller, the locals of `Run`, every channel, and the kernel. -/
structure State where
  heap : ChannelId → Option Channel
  poller : Poller
  kernel : Kernel
  quit : Bool
  iteration : Nat
  waitTime : Int
  idleTime : Int
  timeout : Int
  idle : Nat
  pc : Pc

/-- The constructors of `Poller` and `EventLoop`, in a process with the open descriptors `opened`. -/
def init (opened : Fd → Bool) : State where
  heap := fun _ => none
  poller := ⟨fun _ => none, 20⟩
  kernel := ⟨opened, fun _ => none⟩
  quit := false
  iteration := 0
  waitTime := 20
  idleTime := 100
  timeout := 20
  idle := 0
  pc := .outside

/-! ## Commands -/

inductive Command
  | openFd (fd : Fd)
  | closeFd (fd : Fd)
  | create (c : ChannelId) (fd : Fd)
  | destroy (c : ChannelId)
  | setCallback (c : ChannelId) (stage : Stage)
  | enableReading (c : ChannelId)
  | disableReading (c : ChannelId)
  | enableWriting (c : ChannelId)
  | disableWriting (c : ChannelId)
  | disableAll (c : ChannelId)
  | remove (c : ChannelId)
  | quit
  | setWaitTime (ms : Int)
  | setIdleWaitTime (ms : Int)
deriving DecidableEq, Repr

namespace State

variable (s : State)

def setChannel (c : ChannelId) (ch : Option Channel) : State := { s with heap := Function.update s.heap c ch }

/-- `UpdateChannel`: the channel is new to the poller, or its descriptor is known there. -/
def updateChannel (c : ChannelId) (ch : Channel) : State :=
  match s.poller.channels ch.fd with
  | none =>
      { s with
        kernel := s.kernel.ctlAdd ch.fd ch.events
        poller := { s.poller with channels := Function.update s.poller.channels ch.fd (some c) } }
  | some _ => { s with kernel := s.kernel.ctlMod ch.fd ch.events }

/-- `EnableReading` and its kin: the channel's events are changed, and then `Update`. -/
def changeEvents (c : ChannelId) (change : Mask → Mask) : Option State := do
  let ch ← s.heap c
  let ch := { ch with events := change ch.events }
  return (s.setChannel c (some ch)).updateChannel c ch

/-- `RemoveChannel`. -/
def removeChannel (c : ChannelId) : Option State := do
  let ch ← s.heap c
  guard (s.poller.channels ch.fd).isSome
  return { s with
    poller := { s.poller with channels := Function.update s.poller.channels ch.fd none }
    kernel := s.kernel.ctlDel ch.fd }

def exec : Command → Option State
  | .openFd fd => some { s with kernel := s.kernel.open' fd }
  | .closeFd fd => some { s with kernel := s.kernel.close fd }
  | .create c fd => some (s.setChannel c (some (.new fd)))
  | .destroy c => some (s.setChannel c none)
  | .setCallback c .error => (s.heap c).map fun ch => s.setChannel c (some { ch with errorCallback := true })
  | .setCallback c .write => (s.heap c).map fun ch => s.setChannel c (some { ch with writeCallback := true })
  | .setCallback c .read => (s.heap c).map fun ch => s.setChannel c (some { ch with readCallback := true })
  | .enableReading c => s.changeEvents c fun m => { m with epollin := true }
  | .disableReading c => s.changeEvents c fun m => { m with epollin := false }
  | .enableWriting c => s.changeEvents c fun m => { m with epollout := true }
  | .disableWriting c => s.changeEvents c fun m => { m with epollout := false }
  | .disableAll c => s.changeEvents c fun _ => kNoneEvents
  | .remove c => s.removeChannel c
  | .quit => some { s with quit := true }
  | .setWaitTime ms => some { s with waitTime := ms }
  | .setIdleWaitTime ms => some { s with idleTime := ms }

def execAll : State → List Command → Option State
  | s, [] => some s
  | s, cmd :: cmds => (s.exec cmd).bind fun s => s.execAll cmds

end State

/-! ## The loop -/

/-- The loop of `FillActiveChannels`, with the channels that it appends. -/
def State.fillActiveChannels : State → List (Fd × Mask) → Option (State × List ChannelId)
  | s, [] => some (s, [])
  | s, (fd, revents) :: ready => do
      let c ← s.poller.channels fd
      let ch ← s.heap c
      let s := s.setChannel c (some { ch with revents := revents })
      let (s, active) ← s.fillActiveChannels ready
      return (s, c :: active)

/-- The tests that `HandleEvents` makes on a channel. -/
def stages (c : ChannelId) : List (ChannelId × Stage) := [(c, .error), (c, .write), (c, .read)]

/-- A test of `HandleEvents`: whether it leads to a call. -/
def Channel.calls (ch : Channel) : Stage → Bool
  | .error => (ch.revents.epollerr || ch.revents.epollhup) && ch.errorCallback
  | .write => ch.revents.epollout && ch.writeCallback
  | .read => ch.revents.epollin && ch.readCallback

inductive Action
  | setup (cmds : List Command)     -- the program, before `Run`
  | run
  | poll (ready : List (Fd × Mask)) -- `epoll_wait` returns; an error counts as nothing
  | handle (cmds : List Command)    -- the next test of `HandleEvents`, and what its callback does
  | finish (cmds : List Command)    -- the end of the iteration, and what the period functor does
  | leave                           -- `quit_` is set
deriving DecidableEq, Repr

/-- `Poll`: what `epoll_wait` has returned is handed on, and `events_` is doubled when it was full. -/
def State.poll (s : State) (ready : List (Fd × Mask)) : Option State := do
  let (s, active) ← s.fillActiveChannels ready
  let eventsSize := if ready.length = s.poller.eventsSize then s.poller.eventsSize * 2 else s.poller.eventsSize
  return { s with
    poller := { s.poller with eventsSize := eventsSize }
    iteration := (s.iteration + 1) % 2 ^ 64
    pc := .handling (active.flatMap stages) active.length }

/-- The end of an iteration over `size` channels. `idle` is `unsigned`. -/
def State.finish (s : State) (size : Nat) (cmds : List Command) : Option State := do
  let s := { s with idle := if size = 0 then (s.idle + 1) % 2 ^ 32 else 0 }
  let s ← s.execAll cmds
  return { s with
    timeout := if 100 ≤ s.idle then s.idleTime else s.waitTime
    pc := .testing }

def State.step (s : State) : Action → Option State
  | .setup cmds => if s.pc = .outside then s.execAll cmds else none
  | .run => if s.pc = .outside then some { s with timeout := s.waitTime, idle := 0, pc := .testing } else none
  | .poll ready => if s.pc = .testing ∧ s.quit = false then s.poll ready else none
  | .leave => if s.pc = .testing ∧ s.quit = true then some { s with pc := .returned } else none
  | .handle cmds =>
      match s.pc with
      | .handling ((c, _) :: rest) size =>
          match s.heap c with
          | none => none
          | some _ => { s with pc := .handling rest size }.execAll cmds
      | _ => none
  | .finish cmds =>
      match s.pc with
      | .handling [] size => s.finish size cmds
      | _ => none

/-! ## What the kernel and the program may do -/

/-- The kernel reports what was asked for, an error and a hang-up always. -/
def Mask.Within (revents events : Mask) : Prop :=
  (revents.epollin = true → events.epollin = true) ∧ (revents.epollout = true → events.epollout = true)

/-- `epoll_wait` reports watched descriptors, each once, and not more than fit. -/
structure Reports (s : State) (ready : List (Fd × Mask)) : Prop where
  watched : ∀ r ∈ ready, ∃ m, s.kernel.interest r.1 = some m ∧ r.2.Within m
  distinct : (ready.map Prod.fst).Nodup
  fits : ready.length ≤ s.poller.eventsSize

/-- The action is the next one, and its part that is the kernel's can happen. A test that leads to no call does nothing. -/
def Enabled (s : State) : Action → Prop
  | .setup _ => s.pc = .outside
  | .run => s.pc = .outside
  | .poll ready => s.pc = .testing ∧ s.quit = false ∧ Reports s ready
  | .leave => s.pc = .testing ∧ s.quit = true
  | .handle cmds => ∃ c stage rest size, s.pc = .handling ((c, stage) :: rest) size ∧
      ∀ ch, s.heap c = some ch → ch.calls stage = false → cmds = []
  | .finish _ => ∃ size, s.pc = .handling [] size

/-- The channels that `HandleEvents` is still to be called on, or is being called on. -/
def State.pending (s : State) : List ChannelId :=
  match s.pc with
  | .handling rest _ => rest.map Prod.fst
  | _ => []

/-- A program that keeps the rules: a descriptor has one channel at a time and is open as long as its channel is
    registered, and a channel is neither registered nor about to be handled when it is destroyed. -/
def Allowed (s : State) : Command → Prop
  | .openFd fd => s.kernel.opened fd = false
  | .closeFd fd => s.poller.channels fd = none
  | .create c _ => s.heap c = none
  | .destroy c => (∀ fd, s.poller.channels fd ≠ some c) ∧ c ∉ s.pending
  | .setCallback c _ => (s.heap c).isSome
  | .enableReading c | .disableReading c | .enableWriting c | .disableWriting c | .disableAll c =>
      ∃ ch, s.heap c = some ch ∧ s.kernel.opened ch.fd = true ∧
        (s.poller.channels ch.fd = none ∨ s.poller.channels ch.fd = some c)
  | .remove c => ∃ ch, s.heap c = some ch ∧ s.poller.channels ch.fd = some c
  | .quit | .setWaitTime _ | .setIdleWaitTime _ => True

/-- Each command is allowed when it is executed. -/
def Obeys : State → List Command → Prop
  | _, [] => True
  | s, cmd :: cmds => Allowed s cmd ∧ ∀ s', s.exec cmd = some s' → Obeys s' cmds

/-- The state in which the commands of an action begin. -/
def State.before (s : State) : Action → State
  | .handle _ =>
      match s.pc with
      | .handling (_ :: rest) size => { s with pc := .handling rest size }
      | _ => s
  | .finish _ =>
      match s.pc with
      | .handling _ size => { s with idle := if size = 0 then (s.idle + 1) % 2 ^ 32 else 0 }
      | _ => s
  | _ => s

def Action.cmds : Action → List Command
  | .setup cmds | .handle cmds | .finish cmds => cmds
  | _ => []

/-- A step of a program that keeps the rules. -/
def Step (s : State) (a : Action) (s' : State) : Prop :=
  Enabled s a ∧ Obeys (s.before a) a.cmds ∧ s.step a = some s'

/-! ## The listener -/

/-- `UdpListener`: its descriptor and its channel. -/
structure UdpListener where
  fd : Fd
  channel : ChannelId

namespace UdpListener

/-- The `socket` of `BindOrAbort`, and `Start`. -/
def start (l : UdpListener) : List Command :=
  [.openFd l.fd, .create l.channel l.fd, .setCallback l.channel .read, .enableReading l.channel, .disableWriting l.channel]

/-- `~UdpListener`, of a listener that has been started. -/
def stop (l : UdpListener) : List Command := [.remove l.channel, .closeFd l.fd, .destroy l.channel]

end UdpListener

end EventLoop
end Snippets
