import Snippets.Lib.Bytes
import Snippets.Lib.Run

/-!
# `RingBuffer.Model` — the byte ring of `ProcessBus/src/ring_buffer.cc`

Pointers are offsets from `start_`, so `start_` is `0` and `end_` is the buffer length; the memory the ring
lives in is addressed the same way and extends beyond the buffer on both sides, so a write past `end_` is
expressible. `int` members and locals keep their width: every conversion to `int` is a `toInt32`.

`Push` and `Pop` return what the source returns, and `Push` also lists the `memset`/`memcpy` writes it makes
(`MemWrite`), which is what memory safety is stated over.
-/

namespace Snippets

open Lib

namespace RingBuffer

/-- `RingBuffer::OffsetData`. -/
structure OffsetData where
  frontOffset : Int
  backOffset : Int
  padding : Int
  size : Nat

/-- One `memcpy`/`memset`: the address written first and the bytes written from there on. -/
structure MemWrite where
  addr : Int
  bytes : List UInt8

end RingBuffer

/-- `class RingBuffer`, with the memory around it. -/
structure RingBuffer where
  endOff : Int
  length : Int
  offsets : RingBuffer.OffsetData
  mem : Mem

namespace RingBuffer

/-! ## Accessors -/

def front (rb : RingBuffer) : Int := rb.offsets.frontOffset

def back (rb : RingBuffer) : Int := rb.offsets.backOffset

def padding (rb : RingBuffer) : Int := rb.offsets.padding

def size (rb : RingBuffer) : Nat := rb.offsets.size

def setFront (rb : RingBuffer) (p : Int) : RingBuffer :=
  { rb with offsets := { rb.offsets with frontOffset := p } }

def setBack (rb : RingBuffer) (p : Int) : RingBuffer :=
  { rb with offsets := { rb.offsets with backOffset := p } }

def setPadding (rb : RingBuffer) (n : Int) : RingBuffer :=
  { rb with offsets := { rb.offsets with padding := n } }

/-- `set_size`, on a `size_t`. -/
def setSize (rb : RingBuffer) (n : Int) : RingBuffer :=
  { rb with offsets := { rb.offsets with size := toSize n } }

def store (rb : RingBuffer) (w : MemWrite) : RingBuffer := { rb with mem := rb.mem.write w.addr w.bytes }

/-! ## Operations -/

/-- The constructor with `init_offsetdata`; `none` when one of its asserts fails. -/
def create (len : Nat) (mem : Mem) : Option RingBuffer :=
  if len > 1024 then
    some { endOff := len, length := toInt32 len, offsets := ⟨0, 0, 0, 0⟩, mem := mem }
  else none

def used (rb : RingBuffer) : Int :=
  if rb.back ≥ rb.front then toInt32 (rb.back - rb.front)
  else toInt32 (rb.back + rb.length - rb.front - rb.padding)

/-- `CheckCanWrite`: `none` is `false`, `some np` is `true` with `*needs_padding = np`. -/
def checkCanWrite (rb : RingBuffer) (len : Int) : Option Bool :=
  let total := toInt32 (4 + len)
  if rb.back ≥ rb.front then
    if rb.back + total ≥ rb.endOff then
      if total ≥ rb.front then none else some true
    else some false
  else if rb.back + total ≥ rb.front then none
  else some false

/-- The `needs_padding` block of `Write`: zero the tail and restart at `start_`. -/
def padTail (rb : RingBuffer) : RingBuffer × MemWrite :=
  let padding := toInt32 (rb.endOff - rb.back)
  let w : MemWrite := ⟨rb.back, List.replicate (toSize padding) 0⟩
  (((rb.store w).setPadding padding).setBack 0, w)

/-- The rest of `Write`: the length word, then the bytes. -/
def putMessage (rb : RingBuffer) (buf : List UInt8) : RingBuffer × List MemWrite :=
  let hdr : MemWrite := ⟨rb.back, int32Bytes buf.length⟩
  let body : MemWrite := ⟨rb.back + 4, buf⟩
  (((rb.store hdr).store body).setBack (rb.back + 4 + buf.length), [hdr, body])

/-- `Write`; `none` when its `assert (back >= front)` fails. -/
def write (rb : RingBuffer) (buf : List UInt8) (needsPadding : Bool) :
    Option (RingBuffer × List MemWrite) :=
  if needsPadding then
    if rb.back ≥ rb.front then
      let (rb', w) := rb.padTail
      let (rb'', ws) := rb'.putMessage buf
      some (rb'', w :: ws)
    else none
  else some (rb.putMessage buf)

/-- `Push(buf, len)`: the buffer after, the result, and the writes made. -/
def push (rb : RingBuffer) (buf : List UInt8) : Option (RingBuffer × Bool × List MemWrite) :=
  if buf.length = 0 ∨ (buf.length : Int) ≥ rb.length then some (rb, false, [])
  else
    match rb.checkCanWrite buf.length with
    | none => some (rb, false, [])
    | some needsPadding =>
        match rb.write buf needsPadding with
        | none => none
        | some (rb', ws) => some (rb'.setSize (1 + rb'.size), true, ws)

/-- What a non-null `Pop` hands back: the pointer, `*plen`, and the bytes there. -/
structure Popped where
  ptr : Int
  len : Int
  bytes : List UInt8

/-- `ReadNext`, called with `*plen` non-zero. -/
def readNext (rb : RingBuffer) : RingBuffer × Popped :=
  let (rb, front) := if rb.front + rb.padding = rb.endOff then (rb.setPadding 0, 0) else (rb, rb.front)
  let len := int32OfBytes (rb.mem.read front 4)
  let buf := front + 4
  (rb.setFront (buf + len), ⟨buf, len, rb.mem.read buf len.toNat⟩)

/-- `Pop`; the result is `none` for `NULL`. -/
def pop (rb : RingBuffer) : RingBuffer × Option Popped :=
  if rb.used = 0 then (rb, none)
  else
    let rb := rb.setSize (rb.size - 1)
    let (rb, r) := rb.readNext
    (rb, some r)

/-! ## Calls and runs -/

/-- A call with what it returned (and, for `Push`, what it wrote). -/
inductive Call
  | push (buf : List UInt8) (accepted : Bool) (writes : List MemWrite)
  | pop (res : Option Popped)

/-- The step relation. `Push` takes its length as an `int`, so a message has fewer than `2^31` bytes. -/
def Step (rb : RingBuffer) : Call → RingBuffer → Prop
  | .push buf ok ws, rb' => buf.length < 2 ^ 31 ∧ rb.push buf = some (rb', ok, ws)
  | .pop res, rb' => rb.pop = (rb', res)

/-! ## The queue it implements -/

/-- A queued message and the address of its length word. -/
structure Entry where
  addr : Int
  msg : List UInt8

/-- The bytes an entry occupies: its length word and its text. -/
def Entry.cost (e : Entry) : Int := 4 + e.msg.length

def totalCost (q : List Entry) : Int := (q.map Entry.cost).sum

/-- The write stays inside `[start_, end_)` of a buffer of length `len`. -/
def MemWrite.InBuffer (len : Nat) (w : MemWrite) : Prop := 0 ≤ w.addr ∧ w.addr + w.bytes.length ≤ len

/-- The write touches no byte of the queued entry `e`. -/
def MemWrite.Avoids (w : MemWrite) (e : Entry) : Prop :=
  w.addr + w.bytes.length ≤ e.addr ∨ e.addr + e.cost ≤ w.addr

/-- One call, as a bounded FIFO of byte messages allows it: an accepted message joins at the back, written
    inside the buffer and clear of everything queued; a rejected one writes nothing; `Pop` returns the
    oldest message, and `NULL` exactly on the empty queue. -/
def FifoStep (len : Nat) (q : List Entry) : Call → List Entry → Prop
  | .push buf true ws, q' =>
      (∃ a, q' = q ++ [⟨a, buf⟩]) ∧ ∀ w ∈ ws, w.InBuffer len ∧ ∀ e ∈ q, w.Avoids e
  | .push _ false ws, q' => q' = q ∧ ws = []
  | .pop none, q' => q = [] ∧ q' = []
  | .pop (some r), q' => ∃ e, q = e :: q' ∧ r.ptr = e.addr + 4 ∧ r.len = e.msg.length ∧ r.bytes = e.msg

/-- **The FIFO specification** of a buffer of length `len`: every run from a freshly initialised buffer is
    a run of the queue with the same calls and results; `size()` and `used()` are those of the queue, a
    rejected `Push` changes nothing, and no `Push` fails an assertion. -/
def FifoSpec (len : Nat) : Prop :=
  ∀ mem rb₀, create len mem = some rb₀ → ∀ calls rb, Run Step rb₀ calls rb →
    (∃ q, Run (FifoStep len) [] calls q ∧ rb.size = q.length ∧ rb.used = totalCost q) ∧
    (∀ buf ws rb', Step rb (.push buf false ws) rb' → rb' = rb) ∧
    (∀ buf : List UInt8, buf.length < 2 ^ 31 → rb.push buf ≠ none)

end RingBuffer
end Snippets
