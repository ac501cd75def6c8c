import Snippets.Lib.Run

/-!
# `Logger.AsyncLogger` — the double-buffered logger as a step system

Model of `logger/src/async_logger.cc` and `logger/include/fixed_size_buffer.hpp`. Buffer objects are shared
through `boost::shared_ptr`, so they live on a heap (`heap`, indexed by `BufId`) and the logger and its
thread hold ids; `new FixedSizeBufferType` takes the next unused id.

The atomic steps are the critical sections of the source: `Write` under `mutex_`, the log thread's test of
`running_`, its locked swap section, its unlocked output section, and the final locked flush. A step that
has to wait is `blocked`; a failing `assert` (or a null dereference) is `abort`.
-/

namespace Snippets
namespace Logger

open Lib

/-- `AsyncLogger::kBufferSize`. -/
def kBufferSize : Nat := 1 <<< 16

/-! ## `FixedSizeBuffer` -/

/-- `FixedSizeBuffer<size>`: the first `used_` bytes of `buf_`. No buffer can hold more than `size`. -/
structure FixedSizeBuffer (size : Nat) where
  data : List UInt8
  fits : data.length ≤ size

namespace FixedSizeBuffer

variable {size : Nat}

/-- The freshly constructed buffer, `used_(0)`. -/
def new : FixedSizeBuffer size := ⟨[], Nat.zero_le _⟩

def used (b : FixedSizeBuffer size) : Nat := b.data.length

def available (b : FixedSizeBuffer size) : Nat := size - b.used

def clearUsed (_b : FixedSizeBuffer size) : FixedSizeBuffer size := new

/-- `Append`; `none` when its `assert (Available() >= len)` fails. -/
def append (b : FixedSizeBuffer size) (bs : List UInt8) : Option (FixedSizeBuffer size) :=
  if h : bs.length ≤ b.available then
    some ⟨b.data ++ bs, by
      have := b.fits
      simp only [available, used] at h
      simp only [List.length_append]; omega⟩
  else none

end FixedSizeBuffer

/-! ## State -/

abbrev BufId := Nat

/-- Where the log thread stands in `LogTheadRoutine`. -/
inductive ThreadPc
  | notStarted   -- `Init` has not run the routine yet
  | loopHead     -- before the test of `while (running_)`
  | locking      -- inside the loop, before the locked swap section
  | writing      -- after the swap section, before the unlocked output section
  | flushing     -- left the loop, before the final locked flush
  | done
deriving DecidableEq, Repr

/-- The logger's members, the log thread's locals, the buffer heap, and (`out`) the argument of every call
    of `output_` so far, in order. -/
structure AsyncLogger where
  heap : BufId → FixedSizeBuffer kBufferSize
  fresh : BufId
  buffers : List BufId
  current : BufId
  next : Option BufId
  running : Bool
  outputSet : Bool
  maxBuffersSize : Nat
  pc : ThreadPc
  tmp1 : Option BufId
  buffersToWrite : List BufId
  out : List (List UInt8)

/-- A labelled step: a call of `Write`, `Flush(true)` setting `running_`, or a step of the log thread. -/
inductive Action
  | write (bs : List UInt8)
  | stop
  | start
  | test
  | swap
  | output
  | flush
deriving DecidableEq, Repr

/-- What a step comes to. -/
inductive Outcome
  | next (s : AsyncLogger)
  | blocked
  | abort

namespace AsyncLogger

/-- `AsyncLogger::AsyncLogger()` followed by `SetOutput`. -/
def create : AsyncLogger where
  heap := fun _ => .new
  fresh := 2
  buffers := []
  current := 0
  next := some 1
  running := true
  outputSet := true
  maxBuffersSize := 0
  pc := .notStarted
  tmp1 := none
  buffersToWrite := []
  out := []

/-- Replace the contents of buffer object `i`. -/
def setBuf (s : AsyncLogger) (i : BufId) (b : FixedSizeBuffer kBufferSize) : AsyncLogger :=
  { s with heap := fun j => if j = i then b else s.heap j }

/-- `new FixedSizeBufferType`: the next unused id, holding an empty buffer. -/
def newBuffer (s : AsyncLogger) : AsyncLogger × BufId :=
  ({ s.setBuf s.fresh .new with fresh := s.fresh + 1 }, s.fresh)

/-- `current_->Append(buf, len)`. -/
def appendCurrent (s : AsyncLogger) (bs : List UInt8) : Outcome :=
  match (s.heap s.current).append bs with
  | some b => .next (s.setBuf s.current b)
  | none => .abort

/-- `Write`'s `else` branch up to its `assert`: queue `current_` and take `next_`, or a new buffer. -/
def rotate (s : AsyncLogger) : AsyncLogger :=
  let s := { s with buffers := s.buffers ++ [s.current] }
  match s.next with
  | some n => { s with current := n, next := none }
  | none =>
      let (s, n) := s.newBuffer
      { s with current := n }

/-- `AsyncLogger::Write`. -/
def write (s : AsyncLogger) (bs : List UInt8) : Outcome :=
  if bs.length ≤ (s.heap s.current).available then s.appendCurrent bs
  else s.rotate.appendCurrent bs

/-- `LogTheadRoutine` up to its loop: allocate `tmp1`. -/
def start (s : AsyncLogger) : Outcome :=
  if s.pc = .notStarted then
    let (s, t) := s.newBuffer
    .next { s with tmp1 := some t, pc := .loopHead }
  else .blocked

/-- `while (running_)`, then `assert (tmp1->used() == 0)`. -/
def test (s : AsyncLogger) : Outcome :=
  if s.pc = .loopHead then
    if s.running then
      match s.tmp1 with
      | some t => if (s.heap t).used = 0 then .next { s with pc := .locking } else .abort
      | none => .abort
    else .next { s with pc := .flushing }
  else .blocked

/-- The locked swap section. It waits while `current_` and `buffers_` are both empty. -/
def swap (s : AsyncLogger) : Outcome :=
  if s.pc = .locking then
    if (s.heap s.current).available = kBufferSize ∧ s.buffers = [] then .blocked
    else
      let s := if s.buffers ≠ [] then
          { s with maxBuffersSize := max s.maxBuffersSize s.buffers.length
                   buffersToWrite := s.buffers
                   buffers := s.buffersToWrite }
        else s
      let s := if s.next = none then { s with next := s.tmp1, tmp1 := none } else s
      .next { s with pc := .writing }
  else .blocked

/-- The unlocked output section: emit the swapped buffers, then recycle the first one as `tmp1`. -/
def output (s : AsyncLogger) : Outcome :=
  if s.pc = .writing then
    let s := if s.outputSet then
        { s with out := s.out ++ s.buffersToWrite.map (fun b => (s.heap b).data) }
      else s
    match s.tmp1, s.buffersToWrite with
    | none, [] => .abort
    | none, b :: _ =>
        .next { s.setBuf b (s.heap b).clearUsed with
                  tmp1 := some b, buffersToWrite := [], pc := .loopHead }
    | some _, _ => .next { s with buffersToWrite := [], pc := .loopHead }
  else .blocked

/-- `if (b and b->used() != 0u) output_(b->buf(), b->used())`, for one buffer. -/
def flushOne (s : AsyncLogger) (b : Option BufId) : List (List UInt8) :=
  match b with
  | some b => if (s.heap b).used ≠ 0 then [(s.heap b).data] else []
  | none => []

/-- The final locked flush: everything queued, then `current_`, then `next_`. -/
def flush (s : AsyncLogger) : Outcome :=
  if s.pc = .flushing then
    if s.outputSet then
      .next { s with
        maxBuffersSize := max s.maxBuffersSize s.buffers.length
        out := s.out ++ s.buffers.map (fun b => (s.heap b).data)
                 ++ s.flushOne (some s.current) ++ s.flushOne s.next
        pc := .done }
    else .abort
  else .blocked

def step (s : AsyncLogger) : Action → Outcome
  | .write bs => s.write bs
  | .stop => .next { s with running := false }
  | .start => s.start
  | .test => s.test
  | .swap => s.swap
  | .output => s.output
  | .flush => s.flush

/-- The step relation. -/
def Step (s : AsyncLogger) (a : Action) (t : AsyncLogger) : Prop := s.step a = .next t

end AsyncLogger

/-- The arguments of the `Write` calls among the labels of a run, in lock order. -/
def writesOf : List Action → List (List UInt8)
  | [] => []
  | .write bs :: as => bs :: writesOf as
  | _ :: as => writesOf as

end Logger
end Snippets
