import Snippets.Lib.Bytes
import Snippets.Lib.Chunks

/-!
# `LogFiles.Model` — the rotating log files

Model of `LogFiles/src/log_fd_file.cc`, `LogFiles/src/log_cfile.cc`, `logger/src/log_file.cc` and
`logger/src/log_mmap_file.cc`: a log object writes to one file at a time and moves on to a new one by its
size. What the object has put into each file it opened is kept in `closed` (oldest first) and `cur`; the
names (prefix, time stamp, suffix) are left out, and opening a file always succeeds (the source asserts it). So
does `mmap`, which the source does not assert: after a `MAP_FAILED` it would copy to that address.

A system call that may come up short gets its result as an argument: `some n` when it took `n` bytes, `none`
when it failed.
-/

namespace Snippets
namespace LogFiles

open Lib

/-- What `LogFdFile`, `LogCFile` and `LogFile` share: the files opened so far, `rotate_size_` and
    `bytes_written_`. -/
structure RotatingFile where
  closed : List (List UInt8)
  cur : List UInt8
  rotateSize : Nat
  bytesWritten : Nat
deriving DecidableEq, Repr

namespace RotatingFile

/-- The constructors: the first file is open and empty. -/
def new (rotateSize : Nat) : RotatingFile := ⟨[], [], rotateSize, 0⟩

/-- Every file opened so far, the current one last. -/
def files (f : RotatingFile) : List (List UInt8) := f.closed ++ [f.cur]

/-- `RotateFile`: close the file, open the next, `bytes_written_ = 0`. -/
def rotateFile (f : RotatingFile) : RotatingFile :=
  { f with closed := f.closed ++ [f.cur], cur := [], bytesWritten := 0 }

/-- A `write` of `buf` that returned `ret`. -/
def write (f : RotatingFile) (buf : List UInt8) (ret : Option Nat) : RotatingFile :=
  match ret with
  | some n => { f with cur := f.cur ++ buf.take n, bytesWritten := f.bytesWritten + n }
  | none => f

end RotatingFile

/-- `LogFdFile::NonLockAppend`; `ret` is the result of `write`. -/
def LogFdFile.append (f : RotatingFile) (buf : List UInt8) (ret : Option Nat) : RotatingFile :=
  let f := if f.bytesWritten ≥ f.rotateSize then f.rotateFile else f
  f.write buf ret

/-- `LogCFile::NonLockAppend`; `ret` is the result of `fwrite`, a `size_t` that is kept in an `int`. -/
def LogCFile.append (f : RotatingFile) (buf : List UInt8) (ret : Nat) : RotatingFile :=
  let f := if f.bytesWritten ≥ f.rotateSize then f.rotateFile else f
  let f := { f with cur := f.cur ++ buf.take ret }
  let bytes := toInt32 ret
  if bytes < 0 then f else { f with bytesWritten := f.bytesWritten + bytes.toNat }

/-- `LogFile::NonLockAppend`: write, then rotate a file that is over its size; `none` when
    `assert (bytes == len)` fails. -/
def LogFile.append (f : RotatingFile) (buf : List UInt8) (ret : Nat) : Option RotatingFile :=
  let f := f.write buf (some ret)
  if ret = buf.length then some (if f.bytesWritten > f.rotateSize then f.rotateFile else f) else none

/-- `LogMMapFile`: `unmapped` holds what was in each mapping when it was given back, `cur` the bytes written
    to the present one, whose size is `rotateSize`. -/
structure LogMMapFile where
  unmapped : List (List UInt8)
  cur : List UInt8
  rotateSize : Nat
  bytesWritten : Nat
deriving DecidableEq, Repr

namespace LogMMapFile

/-- The constructor. -/
def new (rotateSize : Nat) : LogMMapFile := ⟨[], [], rotateSize, 0⟩

/-- Every mapping made so far, the present one last. -/
def mappings (f : LogMMapFile) : List (List UInt8) := f.unmapped ++ [f.cur]

/-- `RotateFile`, then `bytes_written_ = 0`. -/
def rotateFile (f : LogMMapFile) : LogMMapFile :=
  { f with unmapped := f.unmapped ++ [f.cur], cur := [], bytesWritten := 0 }

/-- `memcpy(mem_ + bytes_written_, buf, len)`; `none` when it runs past the end of the mapping. -/
def copy (f : LogMMapFile) (buf : List UInt8) : Option LogMMapFile :=
  if f.bytesWritten + buf.length ≤ f.rotateSize then
    some { f with cur := f.cur ++ buf, bytesWritten := f.bytesWritten + buf.length }
  else none

/-- `NonLockAppend`. -/
def append (f : LogMMapFile) (buf : List UInt8) : Option LogMMapFile :=
  if f.bytesWritten + buf.length > f.rotateSize then f.rotateFile.copy buf else f.copy buf

end LogMMapFile

/-! ## Sequences of appends -/

/-- `Append` of each message in turn to a `LogFdFile`, every `write` taking all of it. -/
def LogFdFile.appendAll (f : RotatingFile) (msgs : List (List UInt8)) : RotatingFile :=
  msgs.foldl (fun f msg => LogFdFile.append f msg (some msg.length)) f

/-- The same for a `LogCFile`. -/
def LogCFile.appendAll (f : RotatingFile) (msgs : List (List UInt8)) : RotatingFile :=
  msgs.foldl (fun f msg => LogCFile.append f msg msg.length) f

/-- The same for a `LogFile`. -/
def LogFile.appendAll (f : RotatingFile) (msgs : List (List UInt8)) : Option RotatingFile :=
  msgs.foldlM (fun f msg => LogFile.append f msg msg.length) f

/-- The same for a `LogMMapFile`. -/
def LogMMapFile.appendAll (f : LogMMapFile) (msgs : List (List UInt8)) : Option LogMMapFile :=
  msgs.foldlM LogMMapFile.append f

end LogFiles
end Snippets
