import Snippets.Aio.Model
import Snippets.Lib.Run

/-!
# `Aio.Waiting` — `laio_wait` and `laio_waitone` against the kernel's signals

A call waits on a table of requests while the kernel finishes them. Each finished request raises `aio_signo`, a
queued real-time signal: its handler runs at once while the signal is not blocked, and the signal is `pending`
while it is. `sigsuspend` unblocks it for as long as it sleeps, so it delivers the oldest pending signal and
returns with the signal blocked again.

A step is one statement of the call, one finished request, or one signal delivered to `sigsuspend`. The table is
in the order `lua_next` walks it; keys are of any type. The call gets one argument, a table whose values are all
infos: the assertion on `state_top` and the tests of `checkinfo`, which any other argument fails, are left out.
-/

namespace Snippets
namespace Aio

open Lib

/-- A finished request, with what `aio_error` and `aio_return` will say of it. -/
structure Completion where
  info : InfoPtr
  error : Int
  ret : Int
deriving DecidableEq, Repr

/-- The call that waits. -/
inductive Waiter
  | wait
  | waitone
deriving DecidableEq, Repr

/-- Where the call stands; `i` is the entry of the table a scan is at. -/
inductive WaitPc (κ : Type)
  | entry
  | scanning (i : Nat)
  | blocking                                 -- `laio_waitone`, before `sigprocmask(SIG_BLOCK, ..)`
  | suspended                                -- inside `sigsuspend`
  | rescanning (i : Nat)                     -- `laio_waitone`, after `sigsuspend`
  | leaving (res : Option (κ × InfoPtr))     -- before `sigprocmask(SIG_UNBLOCK, ..)`
  | returned (res : Option (κ × InfoPtr))
deriving DecidableEq, Repr

/-- The process with its requests, and the kernel's side of them. -/
structure Proc (κ : Type) where
  requests : State
  inFlight : List InfoPtr
  blocked : Bool
  pending : List Completion
  table : List (κ × InfoPtr)
  pc : WaitPc κ

/-- `info->done`. -/
def isDone (s : State) (p : InfoPtr) : Bool := (s.infos[p]?).any (·.done)

/-- The handler for one signal. -/
def handle (s : State) (c : Completion) : State := aioCompletionHandler s c.info c.error c.ret

namespace Proc

variable {κ : Type} (s : Proc κ)

def block : Proc κ := { s with blocked := true }

/-- `SIG_UNBLOCK`: everything pending is delivered, oldest first. -/
def unblock : Proc κ := { s with requests := s.pending.foldl handle s.requests, pending := [], blocked := false }

def goto (pc : WaitPc κ) : Proc κ := { s with pc := pc }

/-- The next statement of `laio_wait`; `none` asleep and after the return. -/
def waitStep : Option (Proc κ) :=
  match s.pc with
  | .entry => some (s.block.goto (.scanning 0))
  | .scanning i =>
      match s.table[i]? with
      | some kv => some (s.goto (if isDone s.requests kv.2 then .scanning (i + 1) else .suspended))
      | none => some (s.goto (.leaving none))
  | .leaving res => some (s.unblock.goto (.returned res))
  | _ => none

/-- The next statement of `laio_waitone`. -/
def waitoneStep : Option (Proc κ) :=
  match s.pc with
  | .entry => some (s.goto (.scanning 0))
  | .scanning i =>
      match s.table[i]? with
      | some kv => some (s.goto (if isDone s.requests kv.2 then .returned (some kv) else .scanning (i + 1)))
      | none => some (s.goto (if s.table = [] then .returned none else .blocking))
  | .blocking => some (s.block.goto .suspended)
  | .rescanning i =>
      match s.table[i]? with
      | some kv => some (s.goto (if isDone s.requests kv.2 then .leaving (some kv) else .rescanning (i + 1)))
      | none => some (s.goto .suspended)
  | .leaving res => some (s.unblock.goto (.returned res))
  | _ => none

/-- Where `sigsuspend` returns to. -/
def afterSuspend : Waiter → WaitPc κ
  | .wait => .scanning 0
  | .waitone => .rescanning 0

end Proc

/-- One step, as an observer sees it. -/
inductive WaitEvent
  | own                       -- a statement of the call
  | handled (c : Completion)  -- a request finished with the signal unblocked: the handler ran at once
  | queued (c : Completion)   -- a request finished with the signal blocked
  | woken                     -- `sigsuspend` returns with the oldest pending signal delivered
  | interrupted               -- `sigsuspend` returns for another signal
deriving DecidableEq, Repr

namespace Proc

variable {κ : Type} (s : Proc κ)

/-- The step of an event, where it can happen. -/
def step (who : Waiter) : WaitEvent → Option (Proc κ)
  | .own => match who with
      | .wait => s.waitStep
      | .waitone => s.waitoneStep
  | .handled c =>
      if c.info ∈ s.inFlight ∧ s.blocked = false then
        some { s with inFlight := s.inFlight.erase c.info, requests := handle s.requests c }
      else none
  | .queued c =>
      if c.info ∈ s.inFlight ∧ s.blocked = true then
        some { s with inFlight := s.inFlight.erase c.info, pending := s.pending ++ [c] }
      else none
  | .woken =>
      match s.pc, s.pending with
      | .suspended, c :: rest =>
          some { s with requests := handle s.requests c, pending := rest, pc := afterSuspend who }
      | _, _ => none
  | .interrupted =>
      match s.pc with
      | .suspended => some (s.goto (afterSuspend who))
      | _ => none

/-- The call begins: the signal is not blocked, and every request of the table was submitted. -/
structure Ready (s : Proc κ) : Prop where
  pc : s.pc = .entry
  blocked : s.blocked = false
  pending : s.pending = []
  submitted : ∀ kv ∈ s.table, kv.2 < s.requests.infos.length ∧ (isDone s.requests kv.2 = true ∨ kv.2 ∈ s.inFlight)

/-- The run that some events make, when each of them can happen. -/
def exec (who : Waiter) (s : Proc κ) : List WaitEvent → Option (Proc κ)
  | [] => some s
  | e :: es => (s.step who e).bind fun t => exec who t es

end Proc

/-- The step relation. -/
def WaitStep {κ : Type} (who : Waiter) (s : Proc κ) (e : WaitEvent) (t : Proc κ) : Prop := s.step who e = some t

/-- The requests whose handler ran as they finished, the signal not being blocked. -/
def handledOf : List WaitEvent → List InfoPtr
  | [] => []
  | .handled c :: es => c.info :: handledOf es
  | _ :: es => handledOf es

end Aio
end Snippets
