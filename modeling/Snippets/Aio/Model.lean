import Mathlib.Data.List.Basic

/-!
# `Aio.Model` — the requests of `lua_aio`

A handle is a file with a table of the infos of its requests; an info has its slot in the table, a buffer, and what the
completion handler has put into it. The infos that were made are a list, and a pointer to one is its index. The Lua API and the
POSIX calls succeed. What `malloc` finds in a new buffer is a parameter.

`retrieve`, `len` and `pop_front` are left out; waiting is in `Aio.Waiting`.
-/

namespace Snippets
namespace Aio

/-- `max_info_size`. -/
def maxInfoSize : Nat := 16

/-- `info_t *`. -/
abbrev InfoPtr := Nat

inductive Mode
  | read
  | write
deriving DecidableEq

inductive Failure
  | notForRead
  | notForWrite
  | maxConcurrent
deriving DecidableEq

/-- The text of `luaL_error`. -/
def Failure.message : Failure → String
  | .notForRead => "file is not open for read"
  | .notForWrite => "file is not open for write"
  | .maxConcurrent => "reach max concurrent async IO limit."

/-- `m_aiocb`, without the signal. -/
structure Aiocb where
  fildes : Int
  nbytes : Nat
  offset : Int

/-- `info_s`; a buffer of `none` has been freed. -/
structure Info where
  aiocb : Aiocb
  buf : Option (List UInt8)
  bufLen : Nat
  idx : Int
  aioRet : Int := 0
  ret : Int := 0
  done : Bool := false
  gc : Bool := false

/-- `handle_s`. -/
structure Handle where
  fd : Int
  mode : Mode
  infos : Vector (Option InfoPtr) maxInfoSize
  gc : Bool := false

/-- A handle, and the infos that were made for it. -/
structure State where
  handle : Handle
  infos : List Info

/-- `laio_newhandle`, once the file is open. -/
def newHandle (fd : Int) (mode : Mode) : State := ⟨{ fd := fd, mode := mode, infos := Vector.replicate maxInfoSize none }, []⟩

/-! ## Slots -/

/-- The loop of `first_slot`. -/
def firstSlotLoop : List (Option InfoPtr) → Nat → Nat
  | some _ :: rest, i => firstSlotLoop rest (i + 1)
  | _, i => i

def firstSlot (infos : List (Option InfoPtr)) : Int :=
  let i := firstSlotLoop infos 0
  if i = infos.length then -1 else i

/-! ## Requests -/

/-- What `laio_read` and `laio_write` do after their checks. -/
def request (s : State) (offset : Int) (buf : List UInt8) : Except Failure (State × InfoPtr) :=
  let idx := firstSlot s.handle.infos.toList
  if idx = -1 then .error .maxConcurrent
  else
    let info : Info := { aiocb := ⟨s.handle.fd, buf.length, offset⟩, buf := some buf, bufLen := buf.length, idx := idx }
    .ok ({ s with infos := s.infos ++ [info] }, s.infos.length)

def laioRead (garbage : Nat → UInt8) (s : State) (offset : Int) (nbytes : Nat) : Except Failure (State × InfoPtr) :=
  if s.handle.mode ≠ .read then .error .notForRead else request s offset ((List.range nbytes).map garbage)

def laioWrite (s : State) (offset : Int) (data : List UInt8) : Except Failure (State × InfoPtr) :=
  if s.handle.mode ≠ .write then .error .notForWrite else request s offset data

/-- `aio_completion_handler`, with what `aio_error` and `aio_return` say. -/
def aioCompletionHandler (s : State) (p : InfoPtr) (error ret : Int) : State :=
  { s with infos := s.infos.modify p fun info =>
      { info with aioRet := error, ret := if error = 0 then ret else info.ret, done := true } }

/-! ## Cleaning up -/

/-- `cleanup_info`. -/
def cleanupInfo (s : State) (p : InfoPtr) : Option State :=
  match s.infos[p]? with
  | none => none
  | some info =>
      if info.gc then some s
      else
        some ⟨{ s.handle with infos := s.handle.infos.setIfInBounds info.idx.toNat none },
          s.infos.set p { info with buf := none, gc := true }⟩

/-- The loop of `cleanup_handle`, with how many slots are left. -/
def cleanupLoop : Nat → Nat → State → Option State
  | 0, _, s => some s
  | n + 1, i, s =>
      match s.handle.infos[i]? with
      | some (some p) => (cleanupInfo s p).bind (cleanupLoop n (i + 1))
      | _ => cleanupLoop n (i + 1) s

/-- `cleanup_handle`. -/
def cleanupHandle (s : State) : Option State :=
  if s.handle.gc then some s
  else (cleanupLoop maxInfoSize 0 s).map fun s => { s with handle := { s.handle with gc := true } }

/-! ## Calls -/

/-- A call with what it returned: a pointer to the new info, or an error. -/
inductive Call
  | read (offset : Int) (nbytes : Nat) (res : Except Failure InfoPtr)
  | write (offset : Int) (data : List UInt8) (res : Except Failure InfoPtr)
  | complete (p : InfoPtr) (error ret : Int)
  | destroy (p : InfoPtr)

/-- A request that failed changes nothing. -/
def Answers (s : State) (run : Except Failure (State × InfoPtr)) (res : Except Failure InfoPtr) (t : State) : Prop :=
  (∃ p, run = .ok (t, p) ∧ res = .ok p) ∨ ∃ e, run = .error e ∧ res = .error e ∧ t = s

/-- The step relation; `destroy` is `laio_deleteinfo`. -/
def Step (garbage : Nat → UInt8) (s : State) : Call → State → Prop
  | .read offset nbytes res, t => Answers s (laioRead garbage s offset nbytes) res t
  | .write offset data res, t => Answers s (laioWrite s offset data) res t
  | .complete p error ret, t => t = aioCompletionHandler s p error ret
  | .destroy p, t => cleanupInfo s p = some t

end Aio
end Snippets
