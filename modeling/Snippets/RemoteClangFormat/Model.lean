import Snippets.Lib.Bytes
import Snippets.Lib.Run

/-!
# `RemoteClangFormat.Model` — clients that have their code formatted by a server

Model of `clang-format-client.py` and `clang-format-server.py` as one system: any number of clients, a connection for
each, and the one server process, whose protocol object `Echo` collects a request from whatever pieces of the stream it
is handed. A stream is the bytes that are on their way; how many of them a `send` takes, the reactor hands over or a
`recv` returns is up to the kernel, so it is part of an `Action`.

`pickle` and `clang-format` are parameters (`Tools`). A server's `OnMessage` is one step, since the reactor runs nothing
else meanwhile; but all connections share the file that it leaves the style in.
-/

namespace Snippets
namespace RemoteClangFormat

open Lib

abbrev Bytes := List UInt8

/-- The dictionary a client sends. -/
structure Request where
  file : Bytes
  formatFile : Bytes
deriving DecidableEq, Repr

/-- `pickle.dumps`, `pickle.loads` (`none`: it raises), and `clang-format` for a style file and some code. -/
structure Tools where
  dumps : Request → Bytes
  loads : Bytes → Option Request
  clangFormat : Bytes → Bytes → Bytes

/-! ## The client's file -/

/-- What a client formats: the lines of the file, `--range` and what `--format-file` holds. -/
structure Args where
  lines : List Bytes
  range : Option (Int × Int)
  formatFileContent : Bytes

/-- The loop of `Format` from the line at `index` on: `head`, `file_content` and `tail`. -/
def splitRange (first last : Int) : Int → List Bytes → Bytes × Bytes × Bytes
  | _, [] => ([], [], [])
  | index, line :: lines =>
      let rest := splitRange first last (index + 1) lines
      if index + 1 < first then (line ++ rest.1, rest.2.1, rest.2.2)
      else if last < index + 1 then (rest.1, rest.2.1, line ++ rest.2.2)
      else (rest.1, line ++ rest.2.1, rest.2.2)

namespace Args

/-- `head`, `file_content` and `tail` of `Format`. -/
def parts (args : Args) : Bytes × Bytes × Bytes :=
  match args.range with
  | some (first, last) => splitRange first last 0 args.lines
  | none => ([], args.lines.flatten, [])

def head (args : Args) : Bytes := args.parts.1

def fileContent (args : Args) : Bytes := args.parts.2.1

def tail (args : Args) : Bytes := args.parts.2.2

/-- The dictionary of `Formats`. -/
def request (args : Args) : Request := ⟨args.fileContent, args.formatFileContent⟩

/-- What `Format` returns when `Formats` has returned `reply`. -/
def output (args : Args) (reply : Bytes) : Bytes := args.head ++ reply ++ args.tail

end Args

/-! ## The server's protocol object -/

structure Echo where
  len : Option Nat
  data : Bytes
deriving DecidableEq, Repr

/-- `__init__`. -/
def Echo.new : Echo := ⟨none, []⟩

/-- `dataReceived`, and the data of its call of `OnMessage`, if it makes one. -/
def Echo.dataReceived (self : Echo) (data : Bytes) : Echo × Option Bytes :=
  let self := { self with data := self.data ++ data }
  if self.data.length < 4 then (self, none)
  else
    let self :=
      match self.len with
      | none => { len := some (ofLe (self.data.take 4)), data := self.data.drop 4 }
      | some _ => self
    if self.len ≠ some 0 ∧ self.len = some self.data.length then (self, some self.data) else (self, none)

/-! ## The system -/

/-- Where a client stands in `Formats`. -/
inductive ClientPc
  | connected                                   -- before the `send` of the length
  | sending (data : Bytes)                      -- in the loop over `data`
  | waiting                                     -- before `recv(4)`
  | receiving (replySize : Nat) (reply : Bytes) -- in the loop over `reply_size`
  | returned (reply : Bytes)
  | raised                                      -- `struct.error`
  | exited                                      -- `sys.exit(-1)`, after a timeout
deriving DecidableEq, Repr

/-- The server's end of a connection: `disconnecting` after `loseConnection`, `lost` after an exception. -/
inductive Transport
  | connected
  | disconnecting
  | lost
deriving DecidableEq, Repr

structure Connection where
  pc : ClientPc
  toServer : Bytes
  echo : Echo
  transport : Transport
  toClient : Bytes
deriving DecidableEq, Repr

/-- All connections, and what the file at `TEMP_FORMAT_FILE_PATH` holds. -/
structure System where
  connections : Nat → Connection
  tempFormatFile : Bytes

def init (tempFormatFile : Bytes) : System := ⟨fun _ => ⟨.connected, [], .new, .connected, []⟩, tempFormatFile⟩

inductive Action
  | send (c n : Nat)     -- client `c`'s `send` takes `n` bytes
  | deliver (c n : Nat)  -- `dataReceived` is called with the next `n` bytes
  | recv (c n : Nat)     -- client `c`'s `recv` returns `n` bytes
  | timeout (c : Nat)
deriving DecidableEq, Repr

def Action.client : Action → Nat
  | .send c _ | .deliver c _ | .recv c _ | .timeout c => c

/-- The test of the sending loop. -/
def ClientPc.afterSend (data : Bytes) : ClientPc := if data = [] then .waiting else .sending data

/-- The test of the receiving loop. -/
def ClientPc.afterRecv (replySize : Nat) (reply : Bytes) : ClientPc :=
  if replySize = 0 then .returned reply else .receiving replySize reply

namespace Connection

variable (t : Tools) (args : Args) (x : Connection)

/-- The next `send` of `Formats`: the first one, of the length, is not repeated for the bytes that it does not take. -/
def send (n : Nat) : Option Connection :=
  match x.pc with
  | .connected =>
      let serialized := t.dumps args.request
      if 2 ^ 32 ≤ serialized.length then some { x with pc := .raised }
      else if 1 ≤ n ∧ n ≤ 4 then
        some { x with
          pc := .afterSend serialized
          toServer := x.toServer ++ (toLe 4 serialized.length).take n }
      else none
  | .sending data =>
      if 1 ≤ n ∧ n ≤ data.length then
        some { x with
          pc := .afterSend (data.drop n)
          toServer := x.toServer ++ data.take n }
      else none
  | _ => none

/-- The next `recv` of `Formats`, of no bytes when the server has closed the connection. -/
def recv (n : Nat) : Option Connection :=
  if n ≤ x.toClient.length ∧ (n = 0 → x.toClient = [] ∧ x.transport ≠ .connected) then
    match x.pc with
    | .waiting =>
        if n = 4 then some { x with pc := .afterRecv (ofLe (x.toClient.take n)) [], toClient := x.toClient.drop n }
        else if n < 4 then some { x with pc := .raised, toClient := x.toClient.drop n }
        else none
    | .receiving replySize reply =>
        if n ≤ replySize then
          some { x with
            pc := .afterRecv (replySize - n) (reply ++ x.toClient.take n)
            toClient := x.toClient.drop n }
        else none
    | _ => none
  else none

/-- A `send` or `recv` runs into the timeout. -/
def timeout : Option Connection :=
  match x.pc with
  | .connected | .sending _ | .waiting | .receiving _ _ => some { x with pc := .exited }
  | _ => none

/-- `OnMessage`, with what it leaves in the temporary file. An exception makes the reactor drop the connection. -/
def onMessage (tempFormatFile data : Bytes) : Connection × Bytes :=
  match t.loads data with
  | none => ({ x with transport := .lost }, tempFormatFile)
  | some fmt =>
      let tempFormatFile := fmt.formatFile
      let formatted := t.clangFormat tempFormatFile fmt.file
      if 2 ^ 32 ≤ formatted.length then ({ x with transport := .lost }, tempFormatFile)
      else
        ({ x with
            toClient := x.toClient ++ toLe 4 formatted.length ++ formatted
            transport := .disconnecting }, tempFormatFile)

/-- The reactor hands over the next `n` bytes. -/
def deliver (tempFormatFile : Bytes) (n : Nat) : Option (Connection × Bytes) :=
  if 1 ≤ n ∧ n ≤ x.toServer.length ∧ x.transport = .connected then
    let r := x.echo.dataReceived (x.toServer.take n)
    let x := { x with echo := r.1, toServer := x.toServer.drop n }
    match r.2 with
    | none => some (x, tempFormatFile)
    | some data => some (x.onMessage t tempFormatFile data)
  else none

end Connection

namespace System

def setConnection (s : System) (c : Nat) (x : Connection) : System :=
  { s with connections := fun i => if i = c then x else s.connections i }

/-- One step; client `c` has been started with `jobs c`. -/
def step (t : Tools) (jobs : Nat → Args) (s : System) : Action → Option System
  | .send c n => ((s.connections c).send t (jobs c) n).map (s.setConnection c)
  | .deliver c n =>
      ((s.connections c).deliver t s.tempFormatFile n).map fun r =>
        { s.setConnection c r.1 with tempFormatFile := r.2 }
  | .recv c n => ((s.connections c).recv n).map (s.setConnection c)
  | .timeout c => (s.connections c).timeout.map (s.setConnection c)

end System

/-- A step in which no length is cut: a client's first `send` takes all four bytes, as the client takes for granted. -/
def Step (t : Tools) (jobs : Nat → Args) (s : System) (a : Action) (s' : System) : Prop :=
  s.step t jobs a = some s' ∧ ∀ c n, a = .send c n → (s.connections c).pc = .connected → n = 4

end RemoteClangFormat
end Snippets
