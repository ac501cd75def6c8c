import Mathlib.Data.List.Basic
import Snippets.Logger.AsyncLogger

/-!
# `Logger.Formatter` — from a log statement to the argument of `Write`

Model of `logger/src/log_streambuf.cc`, `logger/src/log_stream.cc`, `logger/src/log_formatter.cc`,
`logger/src/sync_logger.cc`, and `LOG_IF` in `logger/include/logger.hpp`. A log statement makes a
`LogFormatter`, which prints the header into its array, streams what the statement inserts into the rest of
it, and hands all of it with a newline to `Write` when it is destroyed.

What the system supplies is part of the `LogCall`: the time, the thread id, and the value that the never
initialised `tmp_` happens to have.
-/

namespace Snippets
namespace Logger

abbrev Bytes := List UInt8

/-- A C string literal. -/
def literal (s : String) : Bytes := s.toList.map fun c => UInt8.ofNat c.toNat

/-- `LogFormatter::kMaxLogLength`, and `SyncLogger::kMaxLogLength`. -/
def kMaxLogLength : Nat := 1 <<< 12

/-! ## `LogStreambuf` and `LogStream` -/

/-- `LogStreambuf` over an array of `size` bytes: `data` is what lies between `pbase()` and `pptr()`. -/
structure LogStreambuf (size : Nat) where
  data : Bytes
  tmp : Int8
  fits : data.length ≤ size

/-- `EOF`. -/
def eof : Int := -1

namespace LogStreambuf

variable {size : Nat}

/-- `setbuf`. -/
def setbuf (size : Nat) (tmp : Int8) : LogStreambuf size := ⟨[], tmp, Nat.zero_le size⟩

def used (b : LogStreambuf size) : Nat := b.data.length

def overflow (b : LogStreambuf size) (c : Int) : Int := if b.used = size then b.tmp.toInt else c

/-- `std::streambuf::sputc`. -/
def sputc (b : LogStreambuf size) (c : UInt8) : LogStreambuf size × Int :=
  if h : b.used < size then
    ({ b with data := b.data ++ [c]
              fits := by rw [List.length_append]; exact Nat.succ_le_of_lt h }, c.toNat)
  else (b, b.overflow c.toNat)

/-- `std::streambuf::xsputn`: `sputc` each character, up to the first for which it is `EOF`; the buffer, and
    how many were taken. -/
def xsputn (b : LogStreambuf size) : Bytes → LogStreambuf size × Nat
  | [] => (b, 0)
  | c :: cs =>
      if (b.sputc c).2 = eof then ((b.sputc c).1, 0)
      else (((b.sputc c).1.xsputn cs).1, ((b.sputc c).1.xsputn cs).2 + 1)

theorem sputc_data (b : LogStreambuf size) (c : UInt8) : (b.sputc c).1.data = (b.data ++ [c]).take size := by
  unfold sputc
  split
  · rename_i h
    have hle : (b.data ++ [c]).length ≤ size := by
      rw [List.length_append]
      exact Nat.succ_le_of_lt h
    exact (List.take_of_length_le hle).symm
  · rename_i h
    have hfull : b.data.length = size := Nat.le_antisymm b.fits (Nat.le_of_not_lt h)
    simp [← hfull]

/-- A character that is stored is not taken for `EOF`. -/
theorem sputc_eof {b : LogStreambuf size} {c : UInt8} (h : (b.sputc c).2 = eof) : b.used = size := by
  unfold sputc at h
  split at h
  · simp only [eof] at h
    omega
  · rename_i hfull
    exact Nat.le_antisymm b.fits (Nat.le_of_not_lt hfull)

/-- A full buffer stays as it is. -/
theorem take_of_full {b : LogStreambuf size} (h : b.used = size) (cs : Bytes) : (b.data ++ cs).take size = b.data :=
  List.take_left' h

theorem take_take_append (xs ys : Bytes) : (xs.take size ++ ys).take size = (xs ++ ys).take size := by
  rcases Nat.le_total size xs.length with hle | hle
  · rw [List.take_append_of_le_length (by simp [hle]), List.take_append_of_le_length hle, List.take_take,
      Nat.min_self]
  · rw [List.take_of_length_le hle]

/-- Characters go in until the buffer is full, and the others are dropped, whatever `tmp_` is. -/
theorem xsputn_data (b : LogStreambuf size) (cs : Bytes) : (b.xsputn cs).1.data = (b.data ++ cs).take size := by
  induction cs generalizing b with
  | nil => simpa [xsputn] using (List.take_of_length_le b.fits).symm
  | cons c cs ih =>
      unfold xsputn
      split
      next h =>
        have hfull := sputc_eof h
        rw [sputc_data, take_of_full hfull, take_of_full hfull]
      next =>
        rw [ih, sputc_data, take_take_append, List.append_assoc, List.singleton_append]

/-- Only a full buffer takes fewer characters than it is given. -/
theorem xsputn_short {b : LogStreambuf size} {cs : Bytes} (h : (b.xsputn cs).2 ≠ cs.length) :
    (b.xsputn cs).1.used = size := by
  induction cs generalizing b with
  | nil => exact absurd rfl h
  | cons c cs ih =>
      unfold xsputn at h ⊢
      split at h
      next heof =>
        have hfull := sputc_eof heof
        rw [if_pos heof, used, sputc_data, take_of_full hfull]
        exact hfull
      next heof =>
        rw [if_neg heof]
        exact ih fun hn => h (by rw [hn, List.length_cons])

end LogStreambuf

/-- `LogStream`: its `streambuf_`, and the `badbit` of the `std::ostream`, which is set by a short insertion
    only. -/
structure LogStream (size : Nat) where
  streambuf : LogStreambuf size
  bad : Bool
  full : bad = true → streambuf.used = size

namespace LogStream

variable {size : Nat}

def new (size : Nat) (tmp : Int8) : LogStream size := ⟨.setbuf size tmp, false, by simp⟩

/-- A formatted output of `piece`: nothing once the stream is bad, else `sputn`. -/
def insert (s : LogStream size) (piece : Bytes) : LogStream size :=
  if s.bad then s
  else
    { streambuf := (s.streambuf.xsputn piece).1
      bad := (s.streambuf.xsputn piece).2 != piece.length
      full := fun h => LogStreambuf.xsputn_short (by simpa using h) }

/-- The insertions of one statement. -/
def insertAll (s : LogStream size) (pieces : List Bytes) : LogStream size := pieces.foldl insert s

theorem insert_data (s : LogStream size) (piece : Bytes) :
    (s.insert piece).streambuf.data = (s.streambuf.data ++ piece).take size := by
  unfold insert
  split
  · rename_i hbad
    exact (LogStreambuf.take_of_full (s.full hbad) piece).symm
  · exact LogStreambuf.xsputn_data s.streambuf piece

theorem insertAll_data (s : LogStream size) (pieces : List Bytes) :
    (s.insertAll pieces).streambuf.data = (s.streambuf.data ++ pieces.flatten).take size := by
  induction pieces generalizing s with
  | nil => simpa [insertAll] using (List.take_of_length_le s.streambuf.fits).symm
  | cons piece pieces ih =>
      rw [insertAll, List.foldl_cons, ← insertAll, ih, insert_data, LogStreambuf.take_take_append,
        List.append_assoc, List.flatten_cons]

end LogStream

/-! ## `LogFormatter` -/

/-- `BasenameRetriever`'s loop, with `pos + 1` characters to look at. -/
def basenameFrom (arr : Bytes) : Nat → Bytes
  | 0 => arr
  | pos + 1 => if arr[pos]? = some 47 then arr.drop (pos + 1) else basenameFrom arr pos

/-- `BasenameRetriever`, from the `'\0'` down. -/
def basename (arr : Bytes) : Bytes := basenameFrom arr (arr.length + 1)

example : basename (literal "src/main.cc") = literal "main.cc" ∧ basename (literal "main.cc") = literal "main.cc" := by
  decide

inductive LogLevel
  | kLogError
  | kLogWarning
  | kLogInfo
  | kLogDebug
deriving DecidableEq, Repr

namespace LogLevel

def toNat : LogLevel → Nat
  | kLogError => 0
  | kLogWarning => 1
  | kLogInfo => 2
  | kLogDebug => 3

/-- `LogLevelNames`, as `Logger::Init` sets it. -/
def name : LogLevel → Bytes
  | kLogError => literal "ERROR"
  | kLogWarning => literal "WARNING"
  | kLogInfo => literal "INFO"
  | kLogDebug => literal "DEBUG"

end LogLevel

/-- One execution of a log statement: the arguments of the macro, the time (`date` is the text of `strftime`
    for the present second, `usec` the microseconds), the thread, `tmp_`, and what is streamed. -/
structure LogCall where
  level : LogLevel
  file : Bytes
  funcname : Bytes
  lineno : Nat
  date : Bytes
  usec : Nat
  tid : Nat
  tmp : Int8
  pieces : List Bytes
deriving DecidableEq

/-- `%u`, `%d`. -/
def digits (n : Nat) : Bytes := (Nat.toDigits 10 n).map fun c => UInt8.ofNat c.toNat

/-- A field of at least `width` characters, filled up with `fill` on the left. -/
def pad (fill : UInt8) (width : Nat) (bs : Bytes) : Bytes := List.replicate (width - bs.length) fill ++ bs

/-- `FormatHeader`: the text of `"[DATE.%06u %s:%d %s %5.d][%s] "`. The precision of `%5.d` is 0, so no digit
    stands for a zero. -/
def LogCall.header (c : LogCall) : Bytes :=
  literal "[" ++ c.date ++ literal "." ++ pad 48 6 (digits c.usec) ++ literal " " ++ basename c.file ++ literal ":"
    ++ digits c.lineno ++ literal " " ++ c.funcname ++ literal " "
    ++ pad 32 5 (if c.tid = 0 then [] else digits c.tid) ++ literal "][" ++ c.level.name ++ literal "] "

/-- `LogFormatter`: the first `header_len_` bytes of its array, and the stream over the rest but one. -/
structure LogFormatter where
  header : Bytes
  stream : LogStream (kMaxLogLength - header.length - 1)
  room : header.length < kMaxLogLength

namespace LogFormatter

/-- The constructor; `none` when `snprintf` says that the header is longer than the array, and the stream
    would be set up past its end. -/
def new (header : Bytes) (tmp : Int8) : Option LogFormatter :=
  if h : header.length < kMaxLogLength then some ⟨header, .new _ tmp, h⟩ else none

/-- `stream() << ...`. -/
def insertAll (f : LogFormatter) (pieces : List Bytes) : LogFormatter :=
  { f with stream := f.stream.insertAll pieces }

/-- The destructor's argument for `Write`. -/
def line (f : LogFormatter) : Bytes := f.header ++ f.stream.streambuf.data ++ literal "\n"

end LogFormatter

/-- `LOG_IF(level) << pieces`: the `Write`s it makes. -/
def logIf (current : LogLevel) (c : LogCall) : Option (List Bytes) :=
  if current.toNat < c.level.toNat then some []
  else (LogFormatter.new c.header c.tmp).map fun f => [(f.insertAll c.pieces).line]

/-- The statements of a program, in the order of their `Write`s. -/
def logAll (current : LogLevel) : List LogCall → Option (List Bytes)
  | [] => some []
  | c :: cs => do
      let ws ← logIf current c
      let rest ← logAll current cs
      return ws ++ rest

/-! ## What a line says -/

/-- The line of a call: its header, as much of what is streamed as `kMaxLogLength` allows, and a newline. -/
def LogCall.text (c : LogCall) : Bytes :=
  c.header ++ c.pieces.flatten.take (kMaxLogLength - c.header.length - 1) ++ literal "\n"

/-- The lines of the calls at a level that is logged. -/
def linesOf (current : LogLevel) (calls : List LogCall) : List Bytes :=
  (calls.filter fun c => c.level.toNat ≤ current.toNat).map LogCall.text

theorem line_insertAll {f : LogFormatter} {c : LogCall} (h : LogFormatter.new c.header c.tmp = some f) :
    (f.insertAll c.pieces).line = c.text := by
  unfold LogFormatter.new at h
  split at h
  · cases h
    simp [LogFormatter.line, LogFormatter.insertAll, LogStream.insertAll_data, LogStream.new, LogStreambuf.setbuf,
      LogCall.text]
  · cases h

theorem text_ne_nil (c : LogCall) : c.text ≠ [] := by simp [LogCall.text, literal]

theorem text_length {c : LogCall} (hroom : c.header.length < kMaxLogLength) : c.text.length ≤ kMaxLogLength := by
  simp only [LogCall.text, List.length_append, List.length_take, literal, List.length_map]
  have hnl : "\n".toList.length = 1 := rfl
  omega

/-- Every statement writes the text of its call, when its level is logged. -/
theorem logAll_eq {current : LogLevel} {calls : List LogCall} {ws : List Bytes} (h : logAll current calls = some ws) :
    ws = linesOf current calls ∧ ∀ w ∈ ws, w ≠ [] ∧ w.length ≤ kMaxLogLength := by
  induction calls generalizing ws with
  | nil =>
      obtain rfl : [] = ws := by simpa [logAll] using h
      simp [linesOf]
  | cons c cs ih =>
      obtain ⟨first, hfirst, rest, hrest, rfl⟩ :
          ∃ first, logIf current c = some first ∧ ∃ rest, logAll current cs = some rest ∧ first ++ rest = ws := by
        simpa [logAll, Option.bind_eq_some_iff] using h
      obtain ⟨hlines, hall⟩ := ih hrest
      unfold logIf at hfirst
      by_cases hlevel : current.toNat < c.level.toNat
      · -- the statement is switched off
        obtain rfl : [] = first := by simpa [hlevel] using hfirst
        have hoff : ¬ c.level.toNat ≤ current.toNat := Nat.not_le.mpr hlevel
        exact ⟨by simp [linesOf, hoff, hlines], by simpa using hall⟩
      · rw [if_neg hlevel] at hfirst
        obtain ⟨f, hf, rfl⟩ := Option.map_eq_some_iff.mp hfirst
        have hroom : c.header.length < kMaxLogLength := by
          unfold LogFormatter.new at hf
          split at hf
          · assumption
          · cases hf
        rw [line_insertAll hf]
        refine ⟨?_, ?_⟩
        · simp [linesOf, Nat.le_of_not_lt hlevel, hlines]
        · intro w hw
          rcases List.mem_append.mp hw with hw | hw
          · obtain rfl : w = c.text := by simpa using hw
            exact ⟨text_ne_nil c, text_length hroom⟩
          · exact hall w hw

/-! ## `SyncLogger` -/

/-- `SyncLogger::NonLockWrite`, with the arguments of the calls of `output_` so far: a long log is dropped. -/
def SyncLogger.nonLockWrite (out : List Bytes) (buf : Bytes) : List Bytes :=
  if buf.length > kMaxLogLength then out else out ++ [buf]

/-- `Write` after `Write`, each under the lock. -/
def SyncLogger.writeAll (bufs : List Bytes) : List Bytes := bufs.foldl SyncLogger.nonLockWrite []

theorem SyncLogger.writeAll_snoc (bufs : List Bytes) (buf : Bytes) :
    SyncLogger.writeAll (bufs ++ [buf]) = SyncLogger.nonLockWrite (SyncLogger.writeAll bufs) buf := by
  simp [SyncLogger.writeAll, List.foldl_append]

end Logger
end Snippets
